/-
  File:      HaiOS/Boot/Bss.lean
  Subject:   THE BSS DURING THE BOOT: `clear_bss` and `start` of kernel/start.c and the stores of
             `primary_init_sequence` in kernel/main.c, on any number of harts.

  Every hart comes to `_entry` at a time of its own, clears the whole BSS byte by byte and goes on
  to `main`. Hart 0 runs `primary_init_sequence`, which is here the list of the bytes it stores in
  the BSS, with `started = 1` at its end; the other harts spin on `started`, which lies in the BSS
  as well. A hart that is through stores what it likes.

  * `stores_kept` -- no `clear_bss` undoes a store of hart 0, as long as hart 0 stores each byte only
    after every hart's `clear_bss` has passed it. Nothing in the code waits for that.
  * `store_undone` -- a hart that comes late clears what hart 0 has set up.
-/
import HaiOS.Lib.Machine
import HaiOS.Param
import Mathlib.Logic.Function.Basic

namespace HaiOS.Boot

open Lib Function

/-! ## 1. The machine -/

/-- What the linker and the compiler fix: the size of the BSS, the place of `started` in it and the
    bytes that `primary_init_sequence` stores there, in order. -/
structure Image where
  size : Nat
  started : Nat
  stores : List (Nat × UInt8)

/-- Where a hart is. -/
inductive Pc where
  /-- not yet at `_entry` -/
  | reset
  /-- in `clear_bss`, with `p = __bss_start + k` -/
  | clear (k : Nat)
  /-- in `primary_init_sequence`, with `k` stores made -/
  | init (k : Nat)
  /-- in the loop of `secondary_init_sequence` -/
  | spin
  /-- in the scheduler, or on the way there with the boot of hart 0 done -/
  | up
  deriving DecidableEq

/-- The hart's `clear_bss` has passed byte `a`. -/
def Pc.past (a : Nat) : Pc → Bool
  | .reset => false
  | .clear k => decide (a < k)
  | _ => true

/-- The bytes of the BSS and the harts; and which bytes hart 0 has stored in
    `primary_init_sequence`. -/
structure Sys (H : Nat) where
  bss : Nat → UInt8
  pc : Fin H → Pc
  written : Nat → Bool

/-- A step of a hart. -/
inductive Event (H : Nat) where
  /-- `_entry` and the call of `start` -/
  | enter (i : Fin H)
  /-- `*p = 0; p++` -/
  | clear (i : Fin H)
  /-- `clear_bss` returns, and `start` jumps to `main` -/
  | main (i : Fin H)
  /-- the next store of `primary_init_sequence` -/
  | store (i : Fin H)
  /-- `primary_init_sequence` returns -/
  | live (i : Fin H)
  /-- `started` is not 0 -/
  | leave (i : Fin H)
  /-- a store of a hart that is through -/
  | run (i : Fin H) (a : Nat) (v : UInt8)

variable {H : Nat}

/-- The four bytes of `started` are not all 0. -/
def Image.isStarted (b : Image) (bss : Nat → UInt8) : Prop := ∃ k < 4, bss (b.started + k) ≠ 0

/-- When the step can be taken. -/
def Allowed (b : Image) (s : Sys H) : Event H → Prop
  | .enter i => s.pc i = .reset
  | .clear i => ∃ k < b.size, s.pc i = .clear k
  | .main i => s.pc i = .clear b.size
  | .store i => ∃ k < b.stores.length, s.pc i = .init k
  | .live i => s.pc i = .init b.stores.length
  | .leave i => s.pc i = .spin ∧ b.isStarted s.bss
  | .run i .. => s.pc i = .up

/-- The hart moves. -/
def Sys.goto (s : Sys H) (i : Fin H) (pc : Pc) : Sys H :=
  { s with pc := update s.pc i pc }

/-- The state after the step. -/
def next (b : Image) (s : Sys H) : Event H → Sys H
  | .enter i => s.goto i (.clear 0)
  | .clear i =>
    match s.pc i with
    | .clear k => { s.goto i (.clear (k + 1)) with bss := update s.bss k 0 }
    | _ => s
  | .main i => s.goto i (if i.val = 0 then .init 0 else .spin)
  | .store i =>
    match s.pc i with
    | .init k =>
      match b.stores[k]? with
      | some (a, v) =>
        { s.goto i (.init (k + 1)) with
          bss := update s.bss a v, written := update s.written a true }
      | none => s
    | _ => s
  | .live i => s.goto i .up
  | .leave i => s.goto i .up
  | .run _ a v => { s with bss := update s.bss a v }

/-- Power on: the memory holds anything. -/
def Initial (s : Sys H) : Prop := (∀ i, s.pc i = .reset) ∧ ∀ a, s.written a = false

/-- The states that steps with `P` reach. -/
def ReachBy (b : Image) (P : Sys H → Event H → Prop) : Sys H → Prop :=
  Reach Initial fun s s' => ∃ e, P s e ∧ Allowed b s e ∧ s' = next b s e

/-- **Nothing is undone**: where a hart's `clear_bss` is about to store, there is no byte of hart 0's
    initialisation that it would set back to zero. -/
def Kept (b : Image) (s : Sys H) : Prop :=
  ∀ i k, s.pc i = .clear k → k < b.size → s.written k = true → s.bss k = 0

/-! ## 2. In order -/

/-- Hart 0 stores a byte in `primary_init_sequence` only when every hart has cleared it. -/
def InOrder (b : Image) (s : Sys H) : Event H → Prop
  | .store i => ∀ k a v, s.pc i = .init k → b.stores[k]? = some (a, v) →
      ∀ j, (s.pc j).past a = true
  | _ => True

/-- Every hart has cleared the bytes that hart 0 has stored. -/
def Cleared (s : Sys H) : Prop := ∀ a, s.written a = true → ∀ j, (s.pc j).past a = true

section
variable {b : Image} {s : Sys H} {e : Event H} {i : Fin H} {pc : Pc}

/-- A hart goes on. -/
theorem past_goto {a : Nat} (h : ∀ j, (s.pc j).past a = true)
    (hpc : (s.pc i).past a = true → pc.past a = true) (j : Fin H) :
    ((s.goto i pc).pc j).past a = true := by
  show (update s.pc i pc j).past a = true
  rcases eq_or_ne j i with rfl | hj
  · rw [update_self]
    exact hpc (h j)
  · rw [update_of_ne hj]
    exact h j

theorem Cleared.step (h : Cleared s) (hP : InOrder b s e) (ha : Allowed b s e) :
    Cleared (next b s e) := by
  cases e with
  | enter i =>
    refine fun a hw => past_goto (h a hw) fun hp => ?_
    rw [show s.pc i = _ from ha] at hp
    cases hp
  | clear i =>
    obtain ⟨k, -, hpc⟩ := ha
    simp only [next, hpc]
    refine fun a hw => past_goto (h a hw) fun hp => ?_
    rw [hpc] at hp
    exact decide_eq_true (Nat.lt_succ_of_lt (of_decide_eq_true hp))
  | main i => exact fun a hw => past_goto (h a hw) fun _ => by split <;> rfl
  | store i =>
    obtain ⟨k, hk, hpc⟩ := ha
    have hnow := hP k _ _ hpc (List.getElem?_eq_getElem hk)
    simp only [next, hpc, List.getElem?_eq_getElem hk]
    intro a hw
    refine past_goto ?_ fun _ => rfl
    by_cases he : a = (b.stores[k]).1
    · rw [he]
      exact hnow
    · exact h a ((update_of_ne he true s.written).symm.trans hw)
  | live i => exact fun a hw => past_goto (h a hw) fun _ => rfl
  | leave i => exact fun a hw => past_goto (h a hw) fun _ => rfl
  | run i x v => exact h

/-- **No store of hart 0 is undone** in any state of a run in which hart 0 stores each byte only when
    every hart has cleared it. -/
theorem stores_kept (h : ReachBy b (InOrder b) s) : Kept b s := by
  have hc : Cleared s := Reach.invariant
    (fun _ h0 a hw => by rw [h0.2 a] at hw; cases hw)
    (fun _ _ hi ⟨_, hP, ha, hs⟩ => by rw [hs]; exact hi.step hP ha) h
  intro i k hpc _ hw
  have hp := hc k hw i
  rw [hpc] at hp
  exact absurd (of_decide_eq_true hp) (Nat.lt_irrefl k)

end

/-- Power on, with two harts. -/
def power : Sys 2 := ⟨fun _ => 0, fun _ => .reset, fun _ => false⟩

/-- A BSS that holds `started` alone. -/
def tiny : Image := ⟨4, 0, [(0, 1), (1, 0), (2, 0), (3, 0)]⟩

theorem reach_tiny {P : Sys 2 → Event 2 → Prop} {l : List (Event 2)}
    (hl : Along (fun s e => P s e ∧ Allowed tiny s e) (next tiny) power l) :
    ReachBy tiny P (l.foldl (next tiny) power) :=
  Reach.along (fun _ e h => ⟨e, h.1, h.2, rfl⟩) (.start ⟨fun _ => rfl, fun _ => rfl⟩) hl

/-- Hart 0 stores the first byte of `started` while hart 1 is still in `clear_bss`, but past it. -/
theorem stores_kept_first : ∃ s : Sys 2, ReachBy tiny (InOrder tiny) s ∧ s.pc 1 = .clear 2 ∧
    s.written 0 = true ∧ s.bss 0 = 1 ∧ Kept tiny s := by
  have h := reach_tiny (P := InOrder tiny) (l := [.enter 0, .enter 1, .clear 0, .clear 1, .clear 0,
      .clear 0, .clear 0, .main 0, .store 0, .clear 1])
    ⟨⟨trivial, rfl⟩, ⟨trivial, rfl⟩, ⟨trivial, 0, by decide, rfl⟩, ⟨trivial, 0, by decide, rfl⟩,
      ⟨trivial, 1, by decide, rfl⟩, ⟨trivial, 2, by decide, rfl⟩, ⟨trivial, 3, by decide, rfl⟩,
      ⟨trivial, rfl⟩, ⟨fun k a v hk ha => ?_, 0, by decide, rfl⟩, ⟨trivial, 1, by decide, rfl⟩, trivial⟩
  · exact ⟨_, h, rfl, rfl, rfl, stores_kept h⟩
  · cases hk
    cases ha
    decide

/-! ## 3. Out of order -/

/-- **A late hart undoes the boot**: hart 0 clears the BSS, enters `main` and sets `started`; hart 1
    enters `start` only then, and the first store of its `clear_bss` sets `started` back. -/
theorem store_undone : ∃ s s' : Sys 2, ReachBy tiny (fun _ _ => True) s ∧ ¬ Kept tiny s ∧
    Allowed tiny s (.clear 1) ∧ s' = next tiny s (.clear 1) ∧ s.written 0 = true ∧
    s.bss 0 = 1 ∧ s'.bss 0 = 0 := by
  have h := reach_tiny (P := fun _ _ => True) (l := [.enter 0, .clear 0, .clear 0, .clear 0, .clear 0,
      .main 0, .store 0, .enter 1])
    ⟨⟨trivial, rfl⟩, ⟨trivial, 0, by decide, rfl⟩, ⟨trivial, 1, by decide, rfl⟩,
      ⟨trivial, 2, by decide, rfl⟩, ⟨trivial, 3, by decide, rfl⟩, ⟨trivial, rfl⟩,
      ⟨trivial, 0, by decide, rfl⟩, ⟨trivial, rfl⟩, trivial⟩
  refine ⟨_, _, h, fun hk => ?_, ⟨0, by decide, rfl⟩, rfl, rfl, rfl, rfl⟩
  have h0 := hk 1 0 rfl (by decide) rfl
  revert h0
  decide

end HaiOS.Boot
