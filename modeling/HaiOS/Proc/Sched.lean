/-
  File:      HaiOS/Proc/Sched.lean
  Subject:   PIDS, KILLS AND PRIORITIES: the fields `pid`, `killed`, `priority`, `budget` and
             `sched_stamp` of kernel/proc.c, and every function that reads or writes them.

  `nextpid` and the pids are C ints of 32 bits, `ticks` is an unsigned one. The functions are
  written on the record of one process where the source works under one `p->lock`; the machine
  `Step` interleaves them slot by slot, on any number of CPUs: a scan of the table (`kkill`,
  `setpriority`, `wakeup`, the scheduler) takes effect at one slot, at a moment when that slot
  meets its test, and everything may happen before and after.

  * `Event`, `Allowed`, `next`, `Step` -- the machine. `aimed` is history: a kill of that pid, or
    a fault of its own, since the process was allocated.
-/
import HaiOS.Proc.Table
import Mathlib.Data.List.FinRange
import Mathlib.Data.Fin.VecNotation

namespace HaiOS.Sched

open Lib Function
open Procs (ProcState)

/-! ## 1. One process -/

/-- `slice_for_priority`. -/
def sliceForPriority (prio : Int) : Int :=
  let prio := if prio < PRI_MIN then PRI_MIN else prio
  let prio := if prio > PRI_MAX then PRI_MAX else prio
  [SLICE_P0_TICKS, SLICE_P1_TICKS, SLICE_P2_TICKS, SLICE_P3_TICKS].getD prio.toNat 0

/-- The fields of `struct proc` that `p->lock` guards, but for `xstate`, and the parent. -/
structure Proc where
  state : ProcState
  chan : Nat
  killed : Bool
  pid : Int32
  priority : Int
  budget : Int
  rtime : Nat
  schedCnt : Nat
  schedStamp : Nat
  parent : Option (Fin NPROC)

namespace Proc

/-- A slot of the BSS, after `procinit`. -/
def zero : Proc := ⟨.unused, 0, false, 0, 0, 0, 0, 0, 0, none⟩

/-- The state is not UNUSED. -/
def live (p : Proc) : Prop := p.state ≠ .unused

instance (p : Proc) : Decidable p.live := inferInstanceAs (Decidable (_ ≠ _))

/-- What `allocproc` stores in the slot it has found. It leaves `killed` as it is. -/
def allocproc (p : Proc) (pid : Int32) (ticks : UInt32) : Proc :=
  { p with
    pid, state := .used, priority := PRI_DEFAULT, budget := sliceForPriority PRI_DEFAULT,
    rtime := 0, schedCnt := 0, schedStamp := ticks.toNat }

/-- `freeproc`. -/
def freeproc (p : Proc) : Proc :=
  { p with
    pid := 0, parent := none, chan := 0, killed := false, priority := PRI_DEFAULT,
    budget := sliceForPriority PRI_DEFAULT, rtime := 0, schedCnt := 0, schedStamp := 0,
    state := .unused }

/-- The end of `kfork` and of `userinit`. -/
def start (p : Proc) (ticks : UInt32) : Proc :=
  { p with
    state := .runnable, schedStamp := ticks.toNat, budget := sliceForPriority p.priority }

/-- `proc_tick`. -/
def procTick (p : Proc) : Proc :=
  if p.state = .running then
    let p := { p with rtime := p.rtime + 1, budget := p.budget - 1 }
    if p.budget ≤ 0 then
      let p := { p with priority := if p.priority > PRI_MIN then p.priority - 1 else p.priority }
      { p with budget := sliceForPriority p.priority }
    else p
  else p

/-- `yield`, up to `sched`. -/
def yield (p : Proc) (ticks : UInt32) : Proc :=
  let slice := sliceForPriority p.priority
  let p := { p with
    priority :=
      if p.budget > slice / 2 ∧ p.priority < PRI_MAX then p.priority + 1 else p.priority }
  { p with
    budget := sliceForPriority p.priority, schedStamp := ticks.toNat, state := .runnable }

/-- What the scheduler stores in the process it has chosen; its scan began at `now`. -/
def select (p : Proc) (now : UInt32) : Proc :=
  { p with
    state := .running, budget := sliceForPriority p.priority, schedCnt := p.schedCnt + 1,
    schedStamp := now.toNat }

/-- `sleep`, up to `sched`. -/
def sleep (p : Proc) (chan : Nat) : Proc := { p with chan, state := .sleeping }

/-- What `wakeup` does to a process that sleeps on its channel. -/
def wakeup (p : Proc) (ticks : UInt32) : Proc :=
  let p := { p with priority := if p.priority < PRI_MAX then p.priority + 1 else p.priority }
  { p with
    budget := sliceForPriority p.priority, schedStamp := ticks.toNat, state := .runnable }

/-- What `kkill` does to the process it has found. -/
def kkill (p : Proc) : Proc :=
  { p with killed := true, state := if p.state = .sleeping then .runnable else p.state }

/-- What `setpriority` does to the process it has found. -/
def setpriority (p : Proc) (prio : Int) (ticks : UInt32) : Proc :=
  { p with
    priority := prio, budget := sliceForPriority prio,
    schedStamp := if p.state = .runnable then ticks.toNat else p.schedStamp }

end Proc

/-! ## 2. The table -/

/-- The table, `ticks`, `nextpid` and `initproc`; with the history of the kills. -/
structure Sys where
  proc : Fin NPROC → Proc
  ticks : UInt32
  nextpid : Int32
  initproc : Fin NPROC
  /-- `kkill` of the pid of this process, or `setkilled` on it, since it was allocated -/
  aimed : Fin NPROC → Bool

namespace Sys

/-- Only slot `k` changes. -/
def upd (s : Sys) (k : Fin NPROC) (f : Proc → Proc) : Sys :=
  { s with proc := update s.proc k (f (s.proc k)) }

/-- `allocpid` and `allocproc`, with memory for the trapframe and the page table. -/
def allocproc (s : Sys) (k : Fin NPROC) : Sys :=
  { s.upd k (·.allocproc s.nextpid s.ticks) with
    nextpid := s.nextpid + 1, aimed := update s.aimed k false }

/-- The slot at which a scan for `pid` stops. -/
def find (s : Sys) (pid : Int32) : Option (Fin NPROC) :=
  (List.finRange NPROC).find? fun k => (s.proc k).pid == pid

/-- The kill is aimed at every live process of that pid. -/
def aim (s : Sys) (pid : Int32) : Sys :=
  { s with aimed := fun k => s.aimed k || (decide (s.proc k).live && (s.proc k).pid == pid) }

/-- `kkill`. -/
def kkill (s : Sys) (pid : Int32) : Sys × Int :=
  match s.find pid with
  | some k => ((s.aim pid).upd k (·.kkill), 0)
  | none => (s.aim pid, -1)

/-- `setpriority`. -/
def setpriority (s : Sys) (pid : Int32) (prio : Int) : Sys × Int :=
  if prio < PRI_MIN ∨ prio > PRI_MAX then (s, -1)
  else
    match s.find pid with
    | some k => (s.upd k (·.setpriority prio s.ticks), 0)
    | none => (s, -1)

/-- `getpriority`. -/
def getpriority (s : Sys) (pid : Int32) : Int :=
  match s.find pid with
  | some k => (s.proc k).priority
  | none => -1

/-- `reparent`, without its wakeups. -/
def reparent (s : Sys) (i : Fin NPROC) : Sys :=
  { s with
    proc := fun k =>
      if (s.proc k).parent = some i then { s.proc k with parent := some s.initproc }
      else s.proc k }

/-- `setkilled`. -/
def setkilled (s : Sys) (i : Fin NPROC) : Sys :=
  { s.upd i ({ · with killed := true }) with aimed := update s.aimed i true }

end Sys

/-- After `procinit`. -/
def procinit : Sys := ⟨fun _ => .zero, 0, 1, 0, fun _ => false⟩

/-- **After `userinit`**: the first process is RUNNABLE in slot 0, with pid 1. -/
def boot : Sys := (procinit.allocproc 0).upd 0 (·.start 0)

/-! ## 3. The machine -/

/-- What a process or a CPU does in one step. -/
inductive Event where
  /-- the scheduler of a CPU, which read `ticks` as `now` before its scan, runs process `i` -/
  | select (i : Fin NPROC) (now : UInt32)
  /-- a timer interrupt in user mode: `proc_tick(); yield()` -/
  | timer (i : Fin NPROC)
  /-- a timer interrupt in the kernel: `yield()` only -/
  | preempt (i : Fin NPROC)
  /-- `ticks++` on CPU 0 -/
  | clock
  /-- `kfork` of `i` has found slot `k`: `allocproc`, and the copy of the parent -/
  | alloc (i k : Fin NPROC)
  /-- the same without enough memory: `freeproc`, and `kfork` returns -1 -/
  | allocFail (i k : Fin NPROC)
  /-- the end of `kfork`: the child is RUNNABLE -/
  | start (i k : Fin NPROC)
  /-- `sleep` -/
  | sleep (i : Fin NPROC) (chan : Nat)
  /-- `wakeup` comes to the sleeping process `k` -/
  | wakeup (k : Fin NPROC)
  /-- `kexit` -/
  | exit (i : Fin NPROC)
  /-- `kwait` of `i` frees its child `k` -/
  | reap (i k : Fin NPROC)
  /-- the scan of `kkill(pid)` comes to slot `k` -/
  | kkill (pid : Int32) (k : Fin NPROC)
  /-- `setkilled(myproc())` after a fault -/
  | setkilled (i : Fin NPROC)
  /-- the scan of `setpriority(pid, prio)` comes to slot `k` -/
  | setpriority (pid : Int32) (prio : Int) (k : Fin NPROC)

/-- When the step can be taken. -/
def Allowed (s : Sys) : Event → Prop
  | .select i _ => (s.proc i).state = .runnable
  | .timer i | .preempt i | .sleep i _ | .setkilled i => (s.proc i).state = .running
  | .clock => True
  | .alloc i k | .allocFail i k => (s.proc i).state = .running ∧ (s.proc k).state = .unused
  | .start i k =>
    (s.proc i).state = .running ∧ (s.proc k).state = .used ∧ (s.proc k).parent = some i
  | .wakeup k => (s.proc k).state = .sleeping
  | .exit i => (s.proc i).state = .running ∧ i ≠ s.initproc
  | .reap i k =>
    (s.proc i).state = .running ∧ (s.proc k).state = .zombie ∧ (s.proc k).parent = some i
  | .kkill pid k => (s.proc k).pid = pid
  | .setpriority pid prio k => PRI_MIN ≤ prio ∧ prio ≤ PRI_MAX ∧ (s.proc k).pid = pid

/-- The state after the step. -/
def next (s : Sys) : Event → Sys
  | .select i now => s.upd i (·.select now)
  | .timer i => s.upd i fun p => p.procTick.yield s.ticks
  | .preempt i => s.upd i (·.yield s.ticks)
  | .clock => { s with ticks := s.ticks + 1 }
  | .alloc i k => (s.allocproc k).upd k ({ · with parent := some i })
  | .allocFail _ k => (s.allocproc k).upd k (·.freeproc)
  | .start _ k => s.upd k (·.start s.ticks)
  | .sleep i chan => s.upd i (·.sleep chan)
  | .wakeup k => s.upd k (·.wakeup s.ticks)
  | .exit i => (s.reparent i).upd i ({ · with state := .zombie })
  | .reap _ k => s.upd k (·.freeproc)
  | .kkill pid k => (s.aim pid).upd k (·.kkill)
  | .setkilled i => s.setkilled i
  | .setpriority _ prio k => s.upd k (·.setpriority prio s.ticks)

/-- **The machine.** -/
def Step (s : Sys) (e : Event) (s' : Sys) : Prop := Allowed s e ∧ s' = next s e

/-- The states reached from the boot by steps that meet `P`. -/
def ReachBy (P : Sys → Event → Prop) : Sys → Prop :=
  Reach (· = boot) fun s s' => ∃ e, P s e ∧ Step s e s'

/-- The states any interleaving reaches. -/
def Reachable : Sys → Prop := ReachBy fun _ _ => True

/-! ## 4. What the functions leave alone -/

section
variable {s : Sys} {i k : Fin NPROC} {f : Proc → Proc}

@[simp] theorem upd_same : (s.upd k f).proc k = f (s.proc k) := update_self ..

@[simp] theorem upd_other (h : i ≠ k) : (s.upd k f).proc i = s.proc i :=
  update_of_ne h ..

@[simp] theorem allocproc_same :
    (s.allocproc k).proc k = (s.proc k).allocproc s.nextpid s.ticks := update_self ..

@[simp] theorem allocproc_other (h : i ≠ k) : (s.allocproc k).proc i = s.proc i :=
  update_of_ne h ..

@[simp] theorem setkilled_same : (s.setkilled k).proc k = { s.proc k with killed := true } :=
  update_self ..

@[simp] theorem setkilled_other (h : i ≠ k) : (s.setkilled k).proc i = s.proc i :=
  update_of_ne h ..

/-- Where the fields a step writes in slot `k` have a property, they have it in every slot. -/
theorem upd_forall {P : Fin NPROC → Proc → Prop} (h : ∀ j, j ≠ k → P j (s.proc j))
    (hk : P k (f (s.proc k))) (j : Fin NPROC) : P j ((s.upd k f).proc j) := by
  rcases eq_or_ne j k with rfl | hj
  · rwa [upd_same]
  · rw [upd_other hj]
    exact h j hj

end

/-- `proc_tick` touches the times and the priority only. -/
theorem procTick_keeps (p : Proc) :
    p.procTick.pid = p.pid ∧ p.procTick.killed = p.killed ∧ p.procTick.state = p.state := by
  unfold Proc.procTick
  split
  · dsimp only
    split <;> exact ⟨rfl, rfl, rfl⟩
  · exact ⟨rfl, rfl, rfl⟩

end HaiOS.Sched
