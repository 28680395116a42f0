/-
  File:      HaiOS/Lib/Counted.lean
  Subject:   A POOL OF COUNTED UNITS. Units are on a free list or carry the number of the
             references to them; taking a unit, adding a reference, dropping one. Names nothing
             of the kernel.

  * `Counted managed free cnt refs` -- the free list holds the managed units without a reference,
    each once, and every unit's count is the number of its references;
  * `Counted.take`, `Counted.share`, `Counted.unshare`, `Counted.give` -- the four ways the pool
    moves, each for any reference function that differs by one at one unit.
-/
import Mathlib.Data.List.Nodup
import Mathlib.Logic.Function.Basic
import Mathlib.Data.Finset.Card
import Mathlib.Tactic.Common

namespace HaiOS.Lib

open Function

variable {ι : Type}

/-- **The free list and the counts are exact** for the references `refs`. -/
structure Counted (managed : ι → Prop) (free : List ι) (cnt refs : ι → Nat) : Prop where
  nodup : free.Nodup
  free : ∀ p, p ∈ free ↔ managed p ∧ refs p = 0
  count : ∀ p, cnt p = refs p
  inside : ∀ p, 0 < refs p → managed p

namespace Counted

variable {managed : ι → Prop} {free : List ι} {cnt refs refs' : ι → Nat} {p : ι}

/-- Nobody refers to a free unit. -/
theorem refs_of_free (h : Counted managed free cnt refs) (hp : p ∈ free) : refs p = 0 :=
  ((h.free p).mp hp).2

theorem not_free (h : Counted managed free cnt refs) (h1 : 0 < refs p) : p ∉ free :=
  fun hin => absurd (h.refs_of_free hin) (by omega)

theorem congr (h : Counted managed free cnt refs) (he : ∀ q, refs' q = refs q) :
    Counted managed free cnt refs' := by
  have : refs' = refs := funext he
  rw [this]
  exact h

variable [DecidableEq ι]

/-- **The count of one unit changes to `n`**, and the unit is on the free list when `n` is 0. -/
theorem recount {free' : List ι} {n : Nat} (h : Counted managed free cnt refs) (hm : managed p)
    (hp : refs' p = n) (hq : ∀ q, q ≠ p → refs' q = refs q) (hn : free'.Nodup)
    (hself : p ∈ free' ↔ n = 0) (hother : ∀ q, q ≠ p → (q ∈ free' ↔ q ∈ free)) :
    Counted managed free' (update cnt p n) refs' := by
  refine ⟨hn, fun q => ?_, fun q => ?_, fun q h2 => ?_⟩ <;> by_cases e : q = p
  · subst e
    rw [hself, hp]
    exact ⟨fun h0 => ⟨hm, h0⟩, fun h0 => h0.2⟩
  · rw [hother q e, hq q e, h.free q]
  · subst e
    rw [update_self, hp]
  · rw [update_of_ne e, hq q e, h.count q]
  · exact e ▸ hm
  · exact h.inside q (by rwa [hq q e] at h2)

/-- **Take the first free unit**: it has one reference from now on. -/
theorem take {l : List ι} (h : Counted managed (p :: l) cnt refs) (hp : refs' p = refs p + 1)
    (hq : ∀ q, q ≠ p → refs' q = refs q) : Counted managed l (update cnt p 1) refs' := by
  obtain ⟨hm, h0⟩ := (h.free p).mp List.mem_cons_self
  have hnd := List.nodup_cons.mp h.nodup
  refine h.recount hm (by omega) hq hnd.2 (iff_of_false hnd.1 (by decide)) fun q e => ?_
  rw [List.mem_cons]
  exact ⟨Or.inr, fun hin => hin.resolve_left e⟩

variable (h : Counted managed free cnt refs)
include h

/-- **Another reference** to a unit that has one. -/
theorem share (h1 : 0 < refs p) (hp : refs' p = refs p + 1) (hq : ∀ q, q ≠ p → refs' q = refs q) :
    Counted managed free (update cnt p (refs p + 1)) refs' :=
  h.recount (h.inside p h1) hp hq h.nodup (iff_of_false (h.not_free h1) (by omega)) fun _ _ => Iff.rfl

/-- **One of several references goes**: the unit stays in use. -/
theorem unshare (h1 : 1 < refs p) (hp : refs' p + 1 = refs p) (hq : ∀ q, q ≠ p → refs' q = refs q) :
    Counted managed free (update cnt p (refs p - 1)) refs' :=
  h.recount (h.inside p (by omega)) (by omega) hq h.nodup
    (iff_of_false (h.not_free (by omega)) (by omega)) fun _ _ => Iff.rfl

/-- **The last reference goes**: the unit is free again. -/
theorem give (h1 : refs p = 1) (hp : refs' p = 0) (hq : ∀ q, q ≠ p → refs' q = refs q) :
    Counted managed (p :: free) (update cnt p 0) refs' := by
  refine h.recount (h.inside p (by omega)) hp hq (List.nodup_cons.mpr ⟨h.not_free (by omega), h.nodup⟩)
    (iff_of_true List.mem_cons_self rfl) fun q e => ?_
  rw [List.mem_cons]
  exact ⟨fun hin => hin.resolve_left e, Or.inr⟩

/-- The free list is no longer than there are managed units. -/
theorem length_le {S : Finset ι} (hS : ∀ p, managed p → p ∈ S) : free.length ≤ S.card := by
  rw [← List.toFinset_card_of_nodup h.nodup]
  refine Finset.card_le_card fun p hp => ?_
  exact hS p ((h.free p).mp (List.mem_toFinset.mp hp)).1

end Counted

end HaiOS.Lib
