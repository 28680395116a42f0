/-
  File:      HaiOS/Lib/Owned.lean
  Subject:   OWNERSHIP. Blocks that are reserved, owned by exactly one owner at exactly one
             position, or free; taking free blocks and giving blocks back. Names nothing of the
             kernel.
-/
import Mathlib.Data.List.Nodup
import Mathlib.Logic.Function.Basic

namespace HaiOS.Lib

open Function

variable {ι β : Type}

/-- **A block is in use if and only if it is reserved or owned**, and it is owned once. -/
structure Owned (reserved : β → Prop) (used : β → Bool) (own : ι → List β) : Prop where
  nodup : ∀ i, (own i).Nodup
  disjoint : ∀ i j, i ≠ j → ∀ b ∈ own i, b ∉ own j
  apart : ∀ i, ∀ b ∈ own i, ¬ reserved b
  exact : ∀ b, used b = true ↔ reserved b ∨ ∃ i, b ∈ own i

namespace Owned

variable {reserved : β → Prop} {used used' : β → Bool} {own : ι → List β}

theorem used_of_mem (h : Owned reserved used own) {i : ι} {b : β} (hb : b ∈ own i) :
    used b = true :=
  (h.exact b).mpr (Or.inr ⟨i, hb⟩)

/-- A free block has no owner. -/
theorem not_mem_of_free (h : Owned reserved used own) {b : β} (hb : used b = false) (i : ι) :
    b ∉ own i := fun hm => by
  rw [h.used_of_mem hm] at hb
  cases hb

/-- A block in use that is not reserved has one owner, at one position. -/
theorem exact_position (h : Owned reserved used own) (b : β) :
    used b = true ↔ reserved b ∨ ∃! p : ι × Nat, (own p.1)[p.2]? = some b := by
  rw [h.exact]
  refine or_congr_right ⟨?_, ?_⟩
  · rintro ⟨i, hb⟩
    obtain ⟨k, hk⟩ := List.mem_iff_getElem?.mp hb
    refine ⟨(i, k), hk, fun ⟨j, l⟩ hl => ?_⟩
    have hbj := List.mem_iff_getElem?.mpr ⟨l, hl⟩
    have e : j = i := by
      by_contra hne
      exact h.disjoint j i hne b hbj hb
    subst e
    have hlt := (List.getElem?_eq_some_iff.mp hl).1
    exact congrArg (Prod.mk j) ((List.getElem?_inj hlt (h.nodup j)).mp (hl.trans hk.symm))
  · rintro ⟨⟨i, k⟩, hk, -⟩
    exact ⟨i, List.mem_iff_getElem?.mpr ⟨k, hk⟩⟩

variable [DecidableEq ι]

/-- **Owner `i` takes free blocks.** -/
theorem take (h : Owned reserved used own) {i : ι} {new l : List β}
    (hfree : ∀ b ∈ new, used b = false) (hn : new.Nodup) (hl : l.Perm (own i ++ new))
    (hu : ∀ b, used' b = true ↔ used b = true ∨ b ∈ new) :
    Owned reserved used' (update own i l) := by
  have hmem : ∀ j b, b ∈ update own i l j ↔ b ∈ own j ∨ (j = i ∧ b ∈ new) := by
    intro j b
    by_cases hj : j = i
    · subst hj
      rw [update_self, hl.mem_iff, List.mem_append]
      simp
    · rw [update_of_ne hj]
      simp [hj]
  refine ⟨fun j => ?_, fun j k hjk b hbj hbk => ?_, fun j b hb => ?_, fun b => ?_⟩
  · by_cases hj : j = i
    · subst hj
      rw [update_self]
      refine hl.nodup_iff.mpr (List.nodup_append.mpr ⟨h.nodup j, hn, fun b hb b' hb' e => ?_⟩)
      exact h.not_mem_of_free (hfree b' hb') j (e ▸ hb)
    · rw [update_of_ne hj]
      exact h.nodup j
  · rcases (hmem j b).mp hbj with h1 | ⟨rfl, h1⟩ <;> rcases (hmem k b).mp hbk with h2 | ⟨rfl, h2⟩
    · exact h.disjoint j k hjk b h1 h2
    · exact h.not_mem_of_free (hfree b h2) j h1
    · exact h.not_mem_of_free (hfree b h1) k h2
    · exact hjk rfl
  · rcases (hmem j b).mp hb with h1 | ⟨-, h1⟩
    · exact h.apart j b h1
    · intro hr
      have := (h.exact b).mpr (Or.inl hr)
      rw [hfree b h1] at this
      cases this
  · rw [hu, h.exact]
    constructor
    · rintro ((hr | ⟨j, hj⟩) | hb)
      · exact Or.inl hr
      · exact Or.inr ⟨j, (hmem j b).mpr (Or.inl hj)⟩
      · exact Or.inr ⟨i, (hmem i b).mpr (Or.inr ⟨rfl, hb⟩)⟩
    · rintro (hr | ⟨j, hj⟩)
      · exact Or.inl (Or.inl hr)
      · rcases (hmem j b).mp hj with h1 | ⟨-, h1⟩
        · exact Or.inl (Or.inr ⟨j, h1⟩)
        · exact Or.inr h1

/-- **Owner `i` gives its blocks back.** -/
theorem release (h : Owned reserved used own) {i : ι}
    (hu : ∀ b, used' b = true ↔ used b = true ∧ b ∉ own i) :
    Owned reserved used' (update own i []) := by
  have hmem : ∀ j b, b ∈ update own i [] j ↔ j ≠ i ∧ b ∈ own j := by
    intro j b
    by_cases hj : j = i
    · subst hj
      simp
    · simp [hj]
  refine ⟨fun j => ?_, fun j k hjk b hbj hbk => ?_, fun j b hb => ?_, fun b => ?_⟩
  · by_cases hj : j = i
    · subst hj
      simp
    · rw [update_of_ne hj]
      exact h.nodup j
  · exact h.disjoint j k hjk b ((hmem j b).mp hbj).2 ((hmem k b).mp hbk).2
  · exact h.apart j b ((hmem j b).mp hb).2
  · rw [hu, h.exact]
    constructor
    · rintro ⟨hr | ⟨j, hj⟩, hn⟩
      · exact Or.inl hr
      · exact Or.inr ⟨j, (hmem j b).mpr ⟨fun e => hn (e ▸ hj), hj⟩⟩
    · rintro (hr | ⟨j, hj⟩)
      · exact ⟨Or.inl hr, fun hb => h.apart i b hb hr⟩
      · obtain ⟨hne, hb⟩ := (hmem j b).mp hj
        exact ⟨Or.inr ⟨j, hb⟩, h.disjoint j i hne b hb⟩

end Owned

end HaiOS.Lib
