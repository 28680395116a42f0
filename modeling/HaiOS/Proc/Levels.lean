/-
  File:      HaiOS/Proc/Levels.lean
  Subject:   WHERE A CPU HOG ENDS UP. A process that only computes rises by one level at every
             timer interrupt, up to PRI_MAX, and stays there.

  The scheduler gives a process its full slice each time it runs it, the timer interrupt takes
  one tick off, and `yield` then finds more than half of the slice left: it raises the priority,
  as for a process that gives up the CPU by itself. The budget never comes down to 0.

  * `Proc.Ok`, `ok_reach` -- in every reachable state the priorities are in range, and a RUNNING
    process has its full slice.
  * `Computes`, `computes_levels` -- the runs of a process that only computes, and the levels it
    takes in them.
  * `sinks_iff` -- it sinks as the policy says only in runs that hardly begin (`hog_rises`).
-/
import HaiOS.Proc.Ids
import Mathlib.Tactic.IntervalCases

namespace HaiOS.Sched

open Lib
open Procs (ProcState)

variable {s s' : Sys} {e : Event} {i j k : Fin NPROC}

/-! ## 1. A RUNNING process has its full slice -/

/-- The priority is in range, and a RUNNING process has the full slice of its priority. -/
structure Proc.Ok (p : Proc) : Prop where
  min : PRI_MIN ≤ p.priority
  max : p.priority ≤ PRI_MAX
  full : p.state = .running → p.budget = sliceForPriority p.priority

variable {p : Proc}

/-- A process that was just allocated, or freed. -/
theorem Proc.Ok.of_default (h : p.priority = PRI_DEFAULT) (hs : p.state ≠ .running) :
    p.Ok :=
  ⟨by rw [h]; decide, by rw [h]; decide, fun hr => absurd hr hs⟩

/-- **One turn**: from the full slice, `proc_tick` and `yield` raise the priority by one, up to
    PRI_MAX. -/
theorem turn_priority (h : p.Ok) (hr : p.state = .running) (t : UInt32) :
    (p.procTick.yield t).priority = min (p.priority + 1) PRI_MAX := by
  have hb := h.full hr
  have hmin : 0 ≤ p.priority := h.min
  have hmax : p.priority ≤ 3 := h.max
  obtain ⟨st, chan, killed, pid, prio, budget, rtime, cnt, stamp, parent⟩ := p
  dsimp only at hr hb hmin hmax
  subst hr hb
  interval_cases prio <;> rfl

theorem yield_ok (h : p.Ok) (t : UInt32) : (p.yield t).Ok := by
  have hmin : 0 ≤ p.priority := h.min
  have hmax : p.priority ≤ 3 := h.max
  refine ⟨?_, ?_, nofun⟩ <;> simp only [Proc.yield, PRI_MIN, PRI_MAX] <;> split <;> omega

theorem turn_ok (h : p.Ok) (hr : p.state = .running) (t : UInt32) :
    (p.procTick.yield t).Ok := by
  have hmin : 0 ≤ p.priority := h.min
  refine ⟨?_, ?_, nofun⟩
  · rw [turn_priority h hr]
    show 0 ≤ min (p.priority + 1) 3
    omega
  · rw [turn_priority h hr]
    exact min_le_right _ _

theorem wakeup_ok (h : p.Ok) (t : UInt32) : (p.wakeup t).Ok := by
  have hmin : 0 ≤ p.priority := h.min
  have hmax : p.priority ≤ 3 := h.max
  refine ⟨?_, ?_, nofun⟩ <;> simp only [Proc.wakeup, PRI_MIN, PRI_MAX] <;> split <;> omega

theorem kkill_ok (h : p.Ok) : p.kkill.Ok := by
  refine ⟨h.min, h.max, fun hr => ?_⟩
  by_cases hs : p.state = .sleeping
  · simp [Proc.kkill, hs] at hr
  · rw [Proc.kkill, if_neg hs] at hr
    exact h.full hr

theorem setpriority_ok {prio : Int} (hmin : PRI_MIN ≤ prio) (hmax : prio ≤ PRI_MAX) (t : UInt32) :
    (p.setpriority prio t).Ok := ⟨hmin, hmax, fun _ => rfl⟩

/-- **Every step keeps every process so.** -/
theorem ok_step (h : ∀ k, (s.proc k).Ok) (ha : Allowed s e) (k : Fin NPROC) :
    ((next s e).proc k).Ok := by
  have hup : ∀ (t : Sys) (k : Fin NPROC) (f : Proc → Proc), (∀ j, (t.proc j).Ok) →
      (f (t.proc k)).Ok → ∀ j, ((t.upd k f).proc j).Ok := fun t k f ht hf =>
    upd_forall (P := fun _ p => p.Ok) (fun j _ => ht j) hf
  have hal : ∀ k j, ((s.allocproc k).proc j).Ok := fun k =>
    upd_forall (s := s) (f := (·.allocproc s.nextpid s.ticks)) (P := fun _ p => p.Ok)
      (fun j _ => h j) (.of_default rfl nofun)
  cases e with
  | select i now => exact hup s i (·.select now) h ⟨(h i).min, (h i).max, fun _ => rfl⟩ k
  | timer i => exact hup s i (fun p => p.procTick.yield s.ticks) h (turn_ok (h i) ha _) k
  | preempt i => exact hup s i (·.yield s.ticks) h (yield_ok (h i) _) k
  | clock => exact h k
  | alloc i m =>
    exact hup _ m ({ · with parent := some i }) (hal m)
      ⟨(hal m m).min, (hal m m).max, (hal m m).full⟩ k
  | allocFail i m =>
    exact hup _ m (·.freeproc) (hal m) (.of_default rfl nofun) k
  | start i m => exact hup s m (·.start s.ticks) h ⟨(h m).min, (h m).max, nofun⟩ k
  | sleep i c => exact hup s i (·.sleep c) h ⟨(h i).min, (h i).max, nofun⟩ k
  | wakeup m => exact hup s m (·.wakeup s.ticks) h (wakeup_ok (h m) _) k
  | exit i =>
    have hre : ∀ j, ((s.reparent i).proc j).Ok := by
      intro j
      unfold Sys.reparent
      dsimp only
      split
      · exact ⟨(h j).min, (h j).max, (h j).full⟩
      · exact h j
    exact hup _ i ({ · with state := .zombie }) hre ⟨(hre i).min, (hre i).max, nofun⟩ k
  | reap i m => exact hup s m (·.freeproc) h (.of_default rfl nofun) k
  | kkill pid m => exact hup (s.aim pid) m (·.kkill) h (kkill_ok (h m)) k
  | setkilled i =>
    exact upd_forall (s := s) (f := ({ · with killed := true })) (P := fun _ p => p.Ok)
      (fun j _ => h j) ⟨(h i).min, (h i).max, (h i).full⟩ k
  | setpriority pid prio m =>
    exact hup s m (·.setpriority prio s.ticks) h (setpriority_ok ha.1 ha.2.1 _) k

theorem ok_boot (k : Fin NPROC) : (boot.proc k).Ok := by
  rcases eq_or_ne k 0 with rfl | hk
  · exact .of_default rfl fun h => by cases h
  · rw [boot, upd_other hk, allocproc_other hk]
    exact ⟨PRI_MIN_eq.le, (by decide : (0 : Int) ≤ 3), fun h => by cases h⟩

theorem ok_reach (h : Reachable s) : ∀ k, (s.proc k).Ok :=
  Reach.invariant (I := fun s => ∀ k, (s.proc k).Ok) (fun _ h0 => by rw [h0]; exact ok_boot)
    (fun _ _ hi ⟨_, _, ha, hs⟩ => by rw [hs]; exact ok_step hi ha) h

/-! ## 2. A process that only computes -/

/-- The steps others take while `i` computes, and the scheduler's choice of `i`: `i` makes no
    call, takes no fault and no interrupt in the kernel, and nobody kills it or sets its
    priority. -/
def Event.spares (i : Fin NPROC) : Event → Bool
  | .select .. | .clock | .wakeup _ => true
  | .timer j | .preempt j | .sleep j _ | .setkilled j | .exit j | .alloc j _ | .allocFail j _
  | .start j _ | .reap j _ | .kkill _ j | .setpriority _ _ j => j != i

/-- **The runs in which `i` only computes**, with the priority it has after each of its timer
    interrupts. -/
inductive Computes (i : Fin NPROC) : Sys → List Int → Sys → Prop where
  | nil (s : Sys) : Computes i s [] s
  | other {s s' s'' : Sys} {ps : List Int} {e : Event} (h : Computes i s ps s')
      (he : e.spares i = true) (hs : Step s' e s'') : Computes i s ps s''
  | timer {s s' s'' : Sys} {ps : List Int} (h : Computes i s ps s')
      (hs : Step s' (.timer i) s'') : Computes i s (ps ++ [(s''.proc i).priority]) s''

/-- On the CPU or ready for it. -/
def Proc.ready (p : Proc) : Prop := p.state = .runnable ∨ p.state = .running

/-- A step of the others leaves the priority of a process that computes, and it stays ready. -/
theorem spares_priority (hi : (s.proc i).ready) (he : e.spares i = true) (ha : Allowed s e) :
    ((next s e).proc i).priority = (s.proc i).priority ∧ ((next s e).proc i).ready := by
  -- a step that needs another state of a slot is not about `i`
  have hne : ∀ {k : Fin NPROC} {st : ProcState}, (s.proc k).state = st → st ≠ .runnable →
      st ≠ .running → i ≠ k := by
    rintro k st hk h1 h2 rfl
    exact hi.elim (fun h => h1 (hk.symm.trans h)) fun h => h2 (hk.symm.trans h)
  cases e with
  | select j now =>
    rcases eq_or_ne i j with rfl | hij
    · rw [next, upd_same]
      exact ⟨rfl, .inr rfl⟩
    · rw [next, upd_other hij]
      exact ⟨rfl, hi⟩
  | clock => exact ⟨rfl, hi⟩
  | wakeup k =>
    rw [next, upd_other (hne ha (by decide) (by decide))]
    exact ⟨rfl, hi⟩
  | timer j | preempt j | sleep j c | kkill pid j | setpriority pid prio j =>
    have hij : i ≠ j := fun h => by simp [Event.spares, h] at he
    rw [next, upd_other hij]
    exact ⟨rfl, hi⟩
  | setkilled j =>
    have hij : i ≠ j := fun h => by simp [Event.spares, h] at he
    rw [next, setkilled_other hij]
    exact ⟨rfl, hi⟩
  | exit j =>
    have hij : i ≠ j := fun h => by simp [Event.spares, h] at he
    rw [next, upd_other hij, Sys.reparent]
    dsimp only
    split
    · exact ⟨rfl, hi⟩
    · exact ⟨rfl, hi⟩
  | alloc j k | allocFail j k =>
    have hik := hne ha.2 (by decide) (by decide)
    rw [next, upd_other hik, allocproc_other hik]
    exact ⟨rfl, hi⟩
  | start j k | reap j k =>
    rw [next, upd_other (hne ha.2.1 (by decide) (by decide))]
    exact ⟨rfl, hi⟩

/-- The levels of `n` turns from the level `p`. -/
def climb (p : Int) (n : Nat) : List Int :=
  (List.range n).map fun t : Nat => min (p + t + 1) PRI_MAX

theorem climb_succ (p : Int) (n : Nat) :
    climb p (n + 1) = climb p n ++ [min (p + n + 1) PRI_MAX] := by
  rw [climb, List.range_succ, List.map_append]
  rfl

/-- **It climbs by one at each turn, up to PRI_MAX.** -/
theorem computes_levels {ps : List Int} (h : Computes i s ps s') (hok : ∀ k, (s.proc k).Ok)
    (hi : (s.proc i).ready) :
    ps = climb (s.proc i).priority ps.length ∧ (∀ k, (s'.proc k).Ok) ∧ (s'.proc i).ready ∧
      (s'.proc i).priority = min ((s.proc i).priority + ps.length) PRI_MAX := by
  have hmax := (hok i).max
  induction h with
  | nil => exact ⟨rfl, hok, hi, by simp only [List.length_nil]; omega⟩
  | other _ he hs ih =>
    obtain ⟨hps, hok', hr, hp⟩ := ih
    obtain ⟨ha, rfl⟩ := hs
    obtain ⟨hpe, hre⟩ := spares_priority hr he ha
    exact ⟨hps, ok_step hok' ha, hre, hpe.trans hp⟩
  | @timer s1 s2 ps _ hs ih =>
    obtain ⟨hps, hok', hr, hp⟩ := ih
    obtain ⟨ha, rfl⟩ := hs
    have hnew : ((next s1 (.timer i)).proc i).priority =
        min ((s.proc i).priority + ps.length + 1) PRI_MAX := by
      rw [next, upd_same, turn_priority (hok' i) ha, hp]
      omega
    refine ⟨?_, ok_step hok' ha, ?_, ?_⟩
    · rw [List.length_append, List.length_singleton, climb_succ, ← hps, hnew]
    · rw [next, upd_same]
      exact .inl rfl
    · rw [hnew, List.length_append, List.length_singleton]
      omega

/-! ## 3. Sinking -/

/-- **The policy**, over the levels after each tick, for a process that has been charged `charged`
    ticks at the level `level`: the priority never increases, and when the ticks of a slice have
    been charged at one level it drops by one, until it is PRI_MIN. -/
def Sinks (charged : Nat) (level : Int) : List Int → Prop
  | [] => True
  | q :: qs =>
    q ≤ level ∧
    ((charged + 1 : Int) = sliceForPriority level → PRI_MIN < level → q = level - 1) ∧
    Sinks (if q = level then charged + 1 else 0) q qs

/-- **A hog sinks only in runs that hardly begin**: without a tick, or with a single one at
    PRI_MAX. -/
theorem sinks_iff {ps : List Int} (hr : Reachable s) (hi : (s.proc i).ready)
    (h : Computes i s ps s') :
    Sinks 0 (s.proc i).priority ps ↔
      ps = [] ∨ ((s.proc i).priority = PRI_MAX ∧ ps.length = 1) := by
  have hok := ok_reach hr
  have hmin : 0 ≤ (s.proc i).priority := (hok i).min
  have hmax : (s.proc i).priority ≤ 3 := (hok i).max
  have hps := (computes_levels h hok hi).1
  have h3 := PRI_MAX_eq
  generalize (s.proc i).priority = p at hps hmin hmax ⊢
  generalize hn : ps.length = n at hps
  subst hps
  match n with
  | 0 => exact ⟨fun _ => .inl rfl, fun _ => trivial⟩
  | 1 =>
    have e : climb p 1 = [min (p + 1) 3] := by simp [climb]
    rw [e, Sinks]
    constructor
    · rintro ⟨h1, -⟩
      exact .inr ⟨by omega, rfl⟩
    · rintro (h1 | ⟨rfl, -⟩)
      · cases h1
      · exact ⟨by decide, by decide, trivial⟩
  | n + 2 =>
    obtain ⟨qs, e⟩ : ∃ qs, climb p (n + 2) = min (p + 1) 3 :: min (p + 1 + 1) 3 :: qs := by
      rw [climb, List.range_succ_eq_map, List.range_succ_eq_map]
      exact ⟨_, by simp; rfl⟩
    rw [e, Sinks, Sinks]
    constructor
    · rintro ⟨h1, -, -, h2, -⟩
      -- at PRI_MAX the second tick ends the slice, and the level stays
      obtain rfl : p = 3 := by omega
      exact absurd (h2 rfl (by decide)) (by decide)
    · rintro (h1 | ⟨-, h1⟩)
      · cases h1
      · simp at h1

/-- The scheduler runs process `i`, up to the next timer interrupt. -/
def turn (i : Fin NPROC) (s : Sys) : Sys := next (next s (.select i s.ticks)) (.timer i)

theorem Computes.turn {s0 : Sys} {ps : List Int} (h : Computes i s0 ps s)
    (hs : (s.proc i).state = .runnable) :
    Computes i s0 (ps ++ [((turn i s).proc i).priority]) (turn i s) := by
  refine .timer (.other (e := .select i s.ticks) h rfl ⟨hs, rfl⟩) ⟨?_, rfl⟩
  rw [Allowed, next, upd_same]
  rfl

theorem reachable_boot : Reachable boot := .start rfl

theorem sinks_iff_once : ∃ s', Reachable boot ∧ (boot.proc 0).ready ∧ Computes 0 boot [2] s' ∧
    (Sinks 0 (boot.proc 0).priority [2] ↔
      ([2] : List Int) = [] ∨
        ((boot.proc 0).priority = PRI_MAX ∧ ([2] : List Int).length = 1)) :=
  have h : Computes 0 boot [2] (turn 0 boot) := (Computes.nil boot).turn rfl
  ⟨_, reachable_boot, .inl rfl, h, sinks_iff reachable_boot (.inl rfl) h⟩

/-- **The hog rises**: the first process starts at PRI_DEFAULT and only computes. After four timer
    interrupts it has been at 2, 3, 3 and 3. -/
theorem hog_rises : ∃ s', Reachable boot ∧ (boot.proc 0).priority = PRI_DEFAULT ∧
    Computes 0 boot [2, 3, 3, 3] s' ∧ ¬ Sinks 0 (boot.proc 0).priority [2, 3, 3, 3] := by
  have h1 : Computes 0 boot [2] (turn 0 boot) := (Computes.nil boot).turn rfl
  have h2 : Computes 0 boot [2, 3] (turn 0 (turn 0 boot)) := h1.turn rfl
  have h3 : Computes 0 boot [2, 3, 3] (turn 0 (turn 0 (turn 0 boot))) := h2.turn rfl
  have h4 : Computes 0 boot [2, 3, 3, 3] (turn 0 (turn 0 (turn 0 (turn 0 boot)))) :=
    h3.turn rfl
  refine ⟨_, reachable_boot, rfl, h4, fun hs => ?_⟩
  have h : (2 : Int) ≤ 1 := hs.1
  omega

end HaiOS.Sched
