/-
  File:      HaiOS/Lib/Gather.lean
  Subject:   WHAT THE SLOTS OF A TABLE HOLD, as a list, up to order. Names nothing of the kernel.

  * `gather f g` -- the values that `f` finds in the slots `g 0, ..., g (n - 1)`;
  * `gather_update` -- the slot at work stands at the head, the others are what is left when it is
    emptied.
-/
import Mathlib.Data.List.FinRange
import Mathlib.Data.List.Perm.Basic

namespace HaiOS.Lib

open Function

variable {α β : Type} {n : Nat}

/-- What `f` finds in the slots. -/
def gather (f : α → Option β) (g : Fin n → α) : List β :=
  (List.finRange n).filterMap fun k => f (g k)

variable {f : α → Option β} {g : Fin n → α} {i : Fin n} {x z : α} {b : β}

theorem mem_gather : b ∈ gather f g ↔ ∃ k, f (g k) = some b := by
  rw [gather, List.mem_filterMap]
  exact ⟨fun ⟨k, _, h⟩ => ⟨k, h⟩, fun ⟨k, h⟩ => ⟨k, List.mem_finRange k, h⟩⟩

theorem length_gather_le (f : α → Option β) (g : Fin n → α) : (gather f g).length ≤ n := by
  have h := List.length_filterMap_le (fun k => f (g k)) (List.finRange n)
  rwa [List.length_finRange] at h

theorem gather_congr {g' : Fin n → α} (h : ∀ k, f (g' k) = f (g k)) : gather f g' = gather f g :=
  List.filterMap_congr fun k _ => h k

/-- **The slot at work stands at the head.** -/
theorem gather_update (hx : f x = some b) (hz : f z = none) :
    (gather f (update g i x)).Perm (b :: gather f (update g i z)) := by
  have hperm := List.perm_cons_erase (List.mem_finRange i)
  -- the other slots are the same in both
  have hrest : ((List.finRange n).erase i).filterMap (fun k => f (update g i x k)) =
      ((List.finRange n).erase i).filterMap (fun k => f (update g i z k)) := by
    refine List.filterMap_congr fun k hk => ?_
    have hne : k ≠ i := fun e =>
      (List.nodup_finRange n).not_mem_erase (e ▸ hk)
    rw [update_of_ne hne, update_of_ne hne]
  have h1 := hperm.filterMap fun k => f (update g i x k)
  have h2 := hperm.filterMap fun k => f (update g i z k)
  rw [List.filterMap_cons, update_self, hx, hrest] at h1
  rw [List.filterMap_cons, update_self, hz] at h2
  exact h1.trans (h2.symm.cons b)

theorem gather_head (h : f (g i) = some b) (hz : f z = none) :
    (gather f g).Perm (b :: gather f (update g i z)) := by
  have e := gather_update (g := g) (i := i) h hz
  rwa [update_eq_self] at e

/-- A slot that holds nothing makes no difference. -/
theorem gather_update_none (h : f (g i) = none) (hz : f z = none) :
    gather f (update g i z) = gather f g := by
  refine List.filterMap_congr fun k _ => ?_
  rcases eq_or_ne k i with rfl | hne
  · rw [update_self, h, hz]
  · rw [update_of_ne hne]

end HaiOS.Lib
