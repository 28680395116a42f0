/-
  File:      HaiOS/Lib/Count.lean
  Subject:   COUNTING OVER A FAMILY. Totals of a measure over the members of a finite family,
             and how a total moves when one member changes. Names nothing of the kernel.

  * `total S f m` -- the sum of `f (m i)` over `i ∈ S`; `total_update` is the one rule every
    accounting invariant uses: the member that changed gives back its old share and takes its
    new one.
  * `le_total`, `add_le_total`, `total_eq_zero` -- what single members can take of it.
-/
import Mathlib.Algebra.BigOperators.Group.Finset.Basic
import Mathlib.Algebra.BigOperators.Ring.Finset
import Mathlib.Algebra.Order.BigOperators.Group.Finset
import Mathlib.Tactic.Common

namespace HaiOS.Lib

open Finset Function

variable {ι α : Type}

/-- The sum of the measure `f` over the members of `m` in `S`. -/
def total (S : Finset ι) (f : α → Nat) (m : ι → α) : Nat := ∑ i ∈ S, f (m i)

variable {S : Finset ι}

/-- **One member changes**: its old share leaves the total, its new share joins it. -/
theorem total_update [DecidableEq ι] (f : α → Nat) (m : ι → α) {i : ι} (hi : i ∈ S) (x : α) :
    total S f (update m i x) + f (m i) = total S f m + f x := by
  unfold total
  rw [← add_sum_erase S (fun j => f (m j)) hi,
    ← add_sum_erase S (fun j => f (update m i x j)) hi]
  have hrest : ∑ j ∈ S.erase i, f (update m i x j) = ∑ j ∈ S.erase i, f (m j) := by
    refine sum_congr rfl fun j hj => ?_
    rw [update_of_ne (ne_of_mem_erase hj)]
  rw [hrest, update_self]
  omega

/-- A member outside the family does not count. -/
theorem total_update_of_notMem [DecidableEq ι] (f : α → Nat) (m : ι → α) {i : ι} (hi : i ∉ S)
    (x : α) : total S f (update m i x) = total S f m := by
  refine sum_congr rfl fun j hj => ?_
  have hne : j ≠ i := fun e => hi (e ▸ hj)
  rw [update_of_ne hne]

/-- One member's share is part of the total. -/
theorem le_total (f : α → Nat) (m : ι → α) {i : ι} (hi : i ∈ S) :
    f (m i) ≤ total S f m :=
  single_le_sum (f := fun j => f (m j)) (fun _ _ => Nat.zero_le _) hi

variable {f : α → Nat} {m : ι → α}

theorem total_eq_zero :
    total S f m = 0 ↔ ∀ i ∈ S, f (m i) = 0 := by
  exact sum_eq_zero_iff

/-- Two members hold at most the total between them. -/
theorem add_le_total [DecidableEq ι] (f : α → Nat) (m : ι → α) {i j : ι} (hi : i ∈ S) (hj : j ∈ S)
    (hij : i ≠ j) : f (m i) + f (m j) ≤ total S f m := by
  unfold total
  rw [← add_sum_erase S (fun k => f (m k)) hi]
  have := single_le_sum (f := fun k => f (m k)) (s := S.erase i) (fun _ _ => Nat.zero_le _)
    (mem_erase.mpr ⟨fun e => hij e.symm, hj⟩)
  omega

/-- A measure of at most one that only one member has is at most one in total. -/
theorem total_le_one [DecidableEq ι] (h : ∀ x, f x ≤ 1)
    (huniq : ∀ i ∈ S, ∀ j ∈ S, 0 < f (m i) → 0 < f (m j) → i = j) : total S f m ≤ 1 := by
  by_cases hz : ∀ i ∈ S, f (m i) = 0
  · rw [total_eq_zero.mpr hz]
    exact Nat.zero_le 1
  · obtain ⟨i, hi, hne⟩ : ∃ i ∈ S, f (m i) ≠ 0 := by
      by_contra hno
      exact hz fun i hi => by_contra fun hne => hno ⟨i, hi, hne⟩
    have hrest : ∑ j ∈ S.erase i, f (m j) = 0 := by
      refine sum_eq_zero fun j hj => ?_
      by_contra hj0
      have hji := huniq j (mem_of_mem_erase hj) i hi (by omega) (by omega)
      exact (ne_of_mem_erase hj) hji
    have hsum := add_sum_erase S (fun j => f (m j)) hi
    have := h (m i)
    unfold total
    omega

theorem total_pos :
    0 < total S f m ↔ ∃ i ∈ S, 0 < f (m i) := by
  rw [Nat.pos_iff_ne_zero, ne_eq, total_eq_zero]
  push Not
  exact exists_congr fun i => and_congr_right fun _ => Nat.pos_iff_ne_zero.symm

end HaiOS.Lib
