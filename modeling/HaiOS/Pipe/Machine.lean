/-
  File:      HaiOS/Pipe/Machine.lean
  Subject:   ONE PIPE AND ITS PROCESSES: `pipewrite`, `piperead` and `pipeclose` of kernel/pipe.c,
             with `sleep`, `wakeup` and `kkill` of kernel/proc.c.

  The process table has any number `N` of slots, and each process may call the pipe at any time.
  The machine steps at lock granularity or below: taking `pi->lock` is a step, a test or a byte
  under it is a step, and so is each visit of `wakeup` to one process under that process's own
  lock. `sleep` takes two steps, because it gives up `pi->lock` first and changes `p->state`
  after that; in between the process holds its own lock (`Run.falling`), so that neither `wakeup`
  nor `kkill` gets past it. User memory may fail under any `copyin` or `copyout`.

  * `Inv`, `inv_reach` -- who holds the lock, and what the ring holds;
  * `pipe_fifo` -- a pipe is a lossless FIFO.
-/
import HaiOS.Lib.Machine
import HaiOS.Lib.Ring
import HaiOS.Param

namespace HaiOS.Pipes

open Lib Function

/-! ## 1. `struct pipe` -/

abbrev PIPESIZE : Nat := 512

/-- `struct pipe` without its lock. -/
structure Pipe where
  /-- `data[k]` for `k < PIPESIZE` -/
  data : Nat → UInt8
  /-- number of bytes read -/
  nread : UInt32
  /-- number of bytes written -/
  nwrite : UInt32
  /-- read fd is still open -/
  readopen : Bool
  /-- write fd is still open -/
  writeopen : Bool

namespace Pipe

/-- The test `pi->nread == pi->nwrite`. -/
def empty (p : Pipe) : Bool := p.nread == p.nwrite

/-- The test `pi->nwrite == pi->nread + PIPESIZE`. -/
def full (p : Pipe) : Bool := p.nwrite == p.nread + UInt32.ofNat PIPESIZE

/-- `pi->data[pi->nwrite++ % PIPESIZE] = ch`. -/
def put (p : Pipe) (ch : UInt8) : Pipe :=
  { p with data := update p.data (p.nwrite.toNat % PIPESIZE) ch, nwrite := p.nwrite + 1 }

/-- `pi->data[pi->nread % PIPESIZE]`. -/
def next (p : Pipe) : UInt8 := p.data (p.nread.toNat % PIPESIZE)

/-- `pi->nread++`. -/
def get (p : Pipe) : Pipe := { p with nread := p.nread + 1 }

/-- `pipeclose` closes one end. -/
def close (p : Pipe) (writable : Bool) : Pipe :=
  if writable then { p with writeopen := false } else { p with readopen := false }

end Pipe

/-! ## 2. The processes -/

/-- The two sleep channels of a pipe. -/
inductive Chan where
  /-- `&pi->nread` -/
  | nread
  /-- `&pi->nwrite` -/
  | nwrite
  deriving DecidableEq

/-- The calls on the pipe. -/
inductive Call where
  | write (n : Int)
  | read (n : Int)
  | close (writable : Bool)
  deriving DecidableEq

/-- What follows a `wakeup` in the code. -/
inductive Next where
  /-- `sleep(&pi->nwrite, &pi->lock)` of `pipewrite` -/
  | sleep (n : Int) (i : Nat)
  /-- the release of the lock, and `return r` -/
  | ret (r : Int)
  /-- the end of `pipeclose` -/
  | closed
  deriving DecidableEq

/-- Where a process stands. -/
inductive Pc where
  /-- in no call on the pipe; what the last `pipewrite` or `piperead` returned -/
  | out (r : Option Int)
  /-- at `acquire(&pi->lock)` -/
  | enter (c : Call)
  /-- at the head of the loop of `pipewrite`, with `i` bytes stored, `j` of them when it last
      woke the readers or entered -/
  | wLoop (n : Int) (i j : Nat)
  /-- at `copyin` -/
  | wCopy (n : Int) (i j : Nat)
  /-- at the head of the waiting loop of `piperead` -/
  | rWait (n : Int)
  /-- at the head of the copying loop of `piperead` -/
  | rLoop (n : Int) (i : Nat)
  /-- at `copyout` -/
  | rCopy (n : Int) (i : Nat)
  /-- in `wakeup(c)`, at `proc[k]` -/
  | wake (c : Chan) (k : Nat) (next : Next)
  /-- in `sleep(&pi->nwrite, &pi->lock)` of `pipewrite` -/
  | wSleep (n : Int) (i : Nat)
  /-- in `sleep(&pi->nread, &pi->lock)` of `piperead` -/
  | rSleep (n : Int)
  deriving DecidableEq

/-- `p->state` as far as the pipe sees it. -/
inductive Run where
  /-- RUNNABLE or RUNNING -/
  | awake
  /-- in `sleep`, with `pi->lock` released and `p->lock` held, not yet SLEEPING -/
  | falling (c : Chan)
  /-- SLEEPING on a channel of the pipe -/
  | sleeping (c : Chan)
  deriving DecidableEq

/-- One process, with the number of bytes its present or last call has moved. -/
structure Proc where
  pc : Pc
  run : Run
  killed : Bool
  moved : Nat

/-- The pipe, the holder of its lock, and the processes; with the bytes all writes have stored
    and the bytes all reads have copied out, in the order in which that happened. -/
structure Sys (N : Nat) where
  pipe : Pipe
  lock : Option (Fin N)
  /-- both ends are closed and the page is freed -/
  freed : Bool
  proc : Fin N → Proc
  accepted : List UInt8
  copied : List UInt8

variable {N : Nat}

/-- Process `i` becomes `p`. -/
def Sys.set (s : Sys N) (i : Fin N) (p : Proc) : Sys N :=
  { s with proc := update s.proc i p }

/-- Process `i` moves to `pc`. -/
def Sys.goto (s : Sys N) (i : Fin N) (pc : Pc) : Sys N := s.set i { s.proc i with pc := pc }

/-- Process `i` returns `r`: `release(&pi->lock); return r`. -/
def Sys.ret (s : Sys N) (i : Fin N) (r : Int) : Sys N :=
  { s.goto i (.out (some r)) with lock := none }

/-- The first half of `sleep(c, &pi->lock)`: the lock of the pipe is given up. -/
def Sys.fall (s : Sys N) (i : Fin N) (c : Chan) (pc : Pc) : Sys N :=
  { s.set i { s.proc i with pc := pc, run := .falling c } with lock := none }

/-- What a call starts with once it has the lock. -/
def Call.start : Call → Pc
  | .write n => .wLoop n 0 0
  | .read n => .rWait n
  | .close true => .wake .nread 0 .closed
  | .close false => .wake .nwrite 0 .closed

/-- The pipe as the call's first statement under the lock leaves it. -/
def Call.enters : Call → Pipe → Pipe
  | .close writable, p => p.close writable
  | _, p => p

/-- The effect of `wakeup(c)` on the process it visits. -/
def Proc.woken (c : Chan) (p : Proc) : Proc :=
  if p.run = .sleeping c then { p with run := .awake } else p

/-- The effect of `kkill` on its victim. -/
def Proc.kill (p : Proc) : Proc :=
  match p.run with
  | .sleeping _ => { p with killed := true, run := .awake }
  | _ => { p with killed := true }

/-- The process's own lock is free. -/
def Proc.unlocked (p : Proc) : Prop := ∀ c, p.run ≠ .falling c

/-- The label of a step: who takes it, or who is killed. -/
inductive Act (N : Nat) where
  | step (i : Fin N)
  | kill (i : Fin N)

/-- **The steps of the machine.** -/
inductive Step : Sys N → Act N → Sys N → Prop where
  /-- a system call on the pipe -/
  | call {s : Sys N} (i : Fin N) (c : Call) (r : Option Int) (hpc : (s.proc i).pc = .out r) :
      Step s (.step i) (s.set i { s.proc i with pc := .enter c, moved := 0 })
  /-- `acquire(&pi->lock)`, and for `pipeclose` the store to its flag -/
  | acquire {s : Sys N} (i : Fin N) (c : Call) (hpc : (s.proc i).pc = .enter c)
      (hlock : s.lock = none) (hfreed : s.freed = false) :
      Step s (.step i)
        { s.goto i c.start with lock := some i, pipe := c.enters s.pipe }
  /-- `pi->readopen == 0 || killed(pr)`: release and return -1 -/
  | wGone {s : Sys N} (i : Fin N) (n : Int) (k j : Nat) (hpc : (s.proc i).pc = .wLoop n k j)
      (hn : (k : Int) < n) (hgone : s.pipe.readopen = false ∨ (s.proc i).killed = true) :
      Step s (.step i) (s.ret i (-1))
  /-- the pipe is full: `wakeup(&pi->nread)` and then sleep -/
  | wFull {s : Sys N} (i : Fin N) (n : Int) (k j : Nat) (hpc : (s.proc i).pc = .wLoop n k j)
      (hn : (k : Int) < n) (hopen : s.pipe.readopen = true) (hlive : (s.proc i).killed = false)
      (hfull : s.pipe.full = true) : Step s (.step i) (s.goto i (.wake .nread 0 (.sleep n k)))
  /-- there is room for a byte -/
  | wRoom {s : Sys N} (i : Fin N) (n : Int) (k j : Nat) (hpc : (s.proc i).pc = .wLoop n k j)
      (hn : (k : Int) < n) (hopen : s.pipe.readopen = true) (hlive : (s.proc i).killed = false)
      (hroom : s.pipe.full = false) : Step s (.step i) (s.goto i (.wCopy n k j))
  /-- `copyin` gives a byte, which is stored -/
  | wByte {s : Sys N} (i : Fin N) (n : Int) (k j : Nat) (ch : UInt8)
      (hpc : (s.proc i).pc = .wCopy n k j) :
      Step s (.step i)
        { s.set i { s.proc i with pc := .wLoop n (k + 1) j, moved := (s.proc i).moved + 1 } with
          pipe := s.pipe.put ch, accepted := s.accepted ++ [ch] }
  /-- `copyin` fails: break -/
  | wFault {s : Sys N} (i : Fin N) (n : Int) (k j : Nat) (hpc : (s.proc i).pc = .wCopy n k j) :
      Step s (.step i) (s.goto i (.wake .nread 0 (.ret k)))
  /-- all `n` bytes are stored -/
  | wDone {s : Sys N} (i : Fin N) (n : Int) (k j : Nat) (hpc : (s.proc i).pc = .wLoop n k j)
      (hn : n ≤ (k : Int)) : Step s (.step i) (s.goto i (.wake .nread 0 (.ret k)))
  /-- empty, with writers: a killed reader returns -1 -/
  | rKilled {s : Sys N} (i : Fin N) (n : Int) (hpc : (s.proc i).pc = .rWait n)
      (hempty : s.pipe.empty = true) (hopen : s.pipe.writeopen = true)
      (hkilled : (s.proc i).killed = true) : Step s (.step i) (s.ret i (-1))
  /-- empty, with writers: `sleep(&pi->nread, &pi->lock)` -/
  | rEmpty {s : Sys N} (i : Fin N) (n : Int) (hpc : (s.proc i).pc = .rWait n)
      (hempty : s.pipe.empty = true) (hopen : s.pipe.writeopen = true)
      (hlive : (s.proc i).killed = false) : Step s (.step i) (s.fall i .nread (.rSleep n))
  /-- there are bytes, or no writers -/
  | rReady {s : Sys N} (i : Fin N) (n : Int) (hpc : (s.proc i).pc = .rWait n)
      (hready : s.pipe.empty = false ∨ s.pipe.writeopen = false) :
      Step s (.step i) (s.goto i (.rLoop n 0))
  /-- the next byte to copy -/
  | rNext {s : Sys N} (i : Fin N) (n : Int) (k : Nat) (hpc : (s.proc i).pc = .rLoop n k)
      (hn : (k : Int) < n) (hmore : s.pipe.empty = false) :
      Step s (.step i) (s.goto i (.rCopy n k))
  /-- `copyout` succeeds -/
  | rByte {s : Sys N} (i : Fin N) (n : Int) (k : Nat) (hpc : (s.proc i).pc = .rCopy n k) :
      Step s (.step i)
        { s.set i { s.proc i with pc := .rLoop n (k + 1), moved := (s.proc i).moved + 1 } with
          pipe := s.pipe.get, copied := s.copied ++ [s.pipe.next] }
  /-- `copyout` fails -/
  | rFault {s : Sys N} (i : Fin N) (n : Int) (k : Nat) (hpc : (s.proc i).pc = .rCopy n k) :
      Step s (.step i) (s.goto i (.wake .nwrite 0 (.ret (if k = 0 then -1 else k))))
  /-- `n` bytes are copied, or the pipe is empty -/
  | rDone {s : Sys N} (i : Fin N) (n : Int) (k : Nat) (hpc : (s.proc i).pc = .rLoop n k)
      (hn : n ≤ (k : Int) ∨ s.pipe.empty = true) :
      Step s (.step i) (s.goto i (.wake .nwrite 0 (.ret k)))
  /-- `wakeup` visits a process, under that process's lock -/
  | wake {s : Sys N} (i k : Fin N) (c : Chan) (next : Next) (hpc : (s.proc i).pc = .wake c k next)
      (hk : k ≠ i) (hfree : (s.proc k).unlocked) :
      Step s (.step i) ((s.set k ((s.proc k).woken c)).goto i (.wake c (k + 1) next))
  /-- `wakeup` skips its caller -/
  | wakeSelf {s : Sys N} (i : Fin N) (c : Chan) (next : Next) (hpc : (s.proc i).pc = .wake c i next) :
      Step s (.step i) (s.goto i (.wake c (i + 1) next))
  /-- after `wakeup(&pi->nread)` a writer at a full pipe goes to sleep -/
  | wSleep {s : Sys N} (i : Fin N) (c : Chan) (n : Int) (k : Nat)
      (hpc : (s.proc i).pc = .wake c N (.sleep n k)) :
      Step s (.step i) (s.fall i .nwrite (.wSleep n k))
  /-- after its last `wakeup` a call returns -/
  | ret {s : Sys N} (i : Fin N) (c : Chan) (r : Int) (hpc : (s.proc i).pc = .wake c N (.ret r)) :
      Step s (.step i) (s.ret i r)
  /-- the end of `pipeclose`: the page goes when both ends are closed -/
  | closed {s : Sys N} (i : Fin N) (c : Chan) (hpc : (s.proc i).pc = .wake c N .closed) :
      Step s (.step i)
        { s.goto i (.out none) with
          lock := none, freed := !s.pipe.readopen && !s.pipe.writeopen }
  /-- the second half of `sleep`: SLEEPING, and the scheduler releases `p->lock` -/
  | asleep {s : Sys N} (i : Fin N) (c : Chan) (hrun : (s.proc i).run = .falling c) :
      Step s (.step i) (s.set i { s.proc i with run := .sleeping c })
  /-- a woken writer takes the lock again -/
  | wAgain {s : Sys N} (i : Fin N) (n : Int) (k : Nat) (hpc : (s.proc i).pc = .wSleep n k)
      (hrun : (s.proc i).run = .awake) (hlock : s.lock = none) (hfreed : s.freed = false) :
      Step s (.step i) { s.goto i (.wLoop n k k) with lock := some i }
  /-- a woken reader takes the lock again -/
  | rAgain {s : Sys N} (i : Fin N) (n : Int) (hpc : (s.proc i).pc = .rSleep n)
      (hrun : (s.proc i).run = .awake) (hlock : s.lock = none) (hfreed : s.freed = false) :
      Step s (.step i) { s.goto i (.rWait n) with lock := some i }
  /-- `kkill` of process `i`, by anyone, under its lock -/
  | kill {s : Sys N} (i : Fin N) (hfree : (s.proc i).unlocked) :
      Step s (.kill i) (s.set i (s.proc i).kill)

/-- After `pipealloc`: nothing has moved and nobody is in the pipe. -/
def Initial (s : Sys N) : Prop :=
  s.pipe.nread = 0 ∧ s.pipe.nwrite = 0 ∧ s.pipe.readopen = true ∧ s.pipe.writeopen = true ∧
  s.lock = none ∧ s.freed = false ∧ s.accepted = [] ∧ s.copied = [] ∧
  ∀ i, (s.proc i).pc = .out none ∧ (s.proc i).run = .awake

/-- The states any interleaving reaches. -/
def Reachable : Sys N → Prop := Reach Initial fun s s' => ∃ a, Step s a s'

/-! ## 3. The invariant -/

/-- The process is inside the critical section of `pi->lock`. -/
def Pc.holds : Pc → Bool
  | .out _ | .enter _ | .wSleep .. | .rSleep .. => false
  | _ => true

/-- The channel of the `sleep` the process is in. -/
def Pc.chan : Pc → Option Chan
  | .wSleep .. => some .nwrite
  | .rSleep .. => some .nread
  | _ => none

/-- The channel the process sleeps on, or is about to. -/
def Run.chan : Run → Option Chan
  | .awake => none
  | .falling c | .sleeping c => some c

/-- What the place of a process says about the bytes its call has moved. -/
def Proc.counted (p : Proc) : Prop :=
  match p.pc with
  | .out (some r) | .wake _ _ (.ret r) => 0 ≤ r → r = p.moved
  | .wLoop _ k _ | .wCopy _ k _ | .rLoop _ k | .rCopy _ k | .wSleep _ k
  | .wake _ _ (.sleep _ k) => p.moved = k
  | .enter _ | .rWait _ | .rSleep _ => p.moved = 0
  | .out none | .wake _ _ .closed => True

/-- What the place of a process says about the pipe: room for its byte, or a byte to take. -/
def Pc.fits (p : Pipe) : Pc → Prop
  | .wCopy .. => p.full = false
  | .rCopy .. => p.empty = false
  | _ => True

/-- **What the ring holds**: the bytes stored and not yet copied out. -/
structure Content (p : Pipe) (accepted copied : List UInt8) : Prop where
  ring : Ring PIPESIZE p.data accepted copied.length
  nwrite : p.nwrite.toNat = accepted.length % 2 ^ 32
  nread : p.nread.toNat = copied.length % 2 ^ 32
  inOrder : copied <+: accepted

/-- The invariant of the machine. -/
structure Inv (s : Sys N) : Prop where
  lock : ∀ i, s.lock = some i ↔ (s.proc i).pc.holds = true
  run : ∀ i c, (s.proc i).run.chan = some c → (s.proc i).pc.chan = some c
  counted : ∀ i, (s.proc i).counted
  content : Content s.pipe s.accepted s.copied
  fits : ∀ i, (s.proc i).pc.fits s.pipe

namespace Content

variable {p : Pipe} {accepted copied : List UInt8}

variable (h : Content p accepted copied)
include h

theorem lt_range : accepted.length < copied.length + 2 ^ 32 := by
  have hroom := h.ring.room
  have hsize : PIPESIZE < 2 ^ 32 := by decide
  omega

/-- The bytes in the pipe are counted by the two counters. -/
theorem sub_eq : (p.nwrite - p.nread).toNat = accepted.length - copied.length :=
  counter_sub h.nread h.nwrite h.ring.le h.lt_range

theorem full_iff : p.full = true ↔ accepted.length = copied.length + PIPESIZE := by
  unfold Pipe.full
  rw [beq_iff_eq]
  exact counter_eq_iff h.nread h.nwrite h.ring.le h.lt_range PIPESIZE (by decide)

theorem empty_iff : p.empty = true ↔ accepted.length = copied.length := by
  unfold Pipe.empty
  rw [beq_iff_eq, eq_comm]
  simpa using counter_eq_iff h.nread h.nwrite h.ring.le h.lt_range 0 (by decide)

/-- **A byte goes in** when the pipe is not full. -/
theorem put (hfull : p.full = false) (ch : UInt8) : Content (p.put ch) (accepted ++ [ch]) copied where
  ring := by
    have hlt : accepted.length < copied.length + PIPESIZE := by
      have hroom := h.ring.room
      have hne : accepted.length ≠ copied.length + PIPESIZE := fun e => by
        rw [h.full_iff.mpr e] at hfull
        cases hfull
      omega
    have hput := h.ring.put hlt ch
    rwa [← counter_mod h.nwrite (by decide)] at hput
  nwrite := by
    rw [List.length_append, List.length_singleton]
    exact counter_succ h.nwrite
  nread := h.nread
  inOrder := h.inOrder.trans (List.prefix_append _ _)

/-- **The oldest byte comes out** when the pipe is not empty. -/
theorem get (hempty : p.empty = false) : Content p.get accepted (copied ++ [p.next]) := by
  have hlt : copied.length < accepted.length := by
    have hle := h.ring.le
    have hne : accepted.length ≠ copied.length := fun e => by
      rw [h.empty_iff.mpr e] at hempty
      cases hempty
    omega
  have hnext : accepted[copied.length]? = some p.next := by
    unfold Pipe.next
    rw [counter_mod h.nread (by decide)]
    exact h.ring.next hlt
  refine ⟨?_, h.nwrite, ?_, ?_⟩
  · rw [List.length_append, List.length_singleton]
    exact h.ring.take hlt
  · rw [List.length_append, List.length_singleton]
    exact counter_succ h.nread
  · obtain ⟨rest, rfl⟩ := h.inOrder
    cases rest with
    | nil => simp at hlt
    | cons x rest =>
      rw [List.getElem?_append_right (Nat.le_refl _), Nat.sub_self] at hnext
      obtain rfl : x = p.next := by simpa using hnext
      exact ⟨rest, by simp⟩

end Content

/-! ## 4. Every step keeps the invariant -/

section Steps

variable {s s' : Sys N} {i : Fin N} {p : Proc}

variable {pc : Pc}

theorem chan_of_holds (h : pc.holds = true) : pc.chan = none := by
  cases pc <;> first | rfl | cases h

theorem fits_of_out (h : pc.holds = false) (p : Pipe) : pc.fits p := by
  cases pc <;> trivial

/-- **Process `i` becomes `p`.** Either it holds the lock or takes it, and then no other process
    looks at the pipe; or neither the lock nor the pipe changes. -/
theorem Inv.move (h : Inv s) (hproc : s'.proc = update s.proc i p)
    (hturn : ((s.lock = some i ∨ s.lock = none) ∧
        s'.lock = if p.pc.holds then some i else none) ∨
      (p.pc.holds = (s.proc i).pc.holds ∧ s'.lock = s.lock ∧ s'.pipe = s.pipe))
    (hrun : ∀ c, p.run.chan = some c → p.pc.chan = some c) (hcounted : p.counted)
    (hcontent : Content s'.pipe s'.accepted s'.copied) (hfits : p.pc.fits s'.pipe) : Inv s' := by
  have hself : s'.proc i = p := by rw [hproc, update_self]
  have hother : ∀ j, j ≠ i → s'.proc j = s.proc j := fun j hj => by
    rw [hproc, update_of_ne hj]
  -- another process that holds the lock sees the same pipe
  have hpipe : ∀ j, j ≠ i → (s.proc j).pc.holds = true → s'.pipe = s.pipe := by
    intro j hj hh
    have hl := (h.lock j).mpr hh
    rcases hturn with ⟨hl' | hl', -⟩ | ⟨-, -, e⟩
    · rw [hl'] at hl
      exact absurd (Option.some.inj hl).symm hj
    · rw [hl'] at hl
      cases hl
    · exact e
  refine ⟨fun j => ?_, fun j c hj => ?_, fun j => ?_, hcontent, fun j => ?_⟩
  · by_cases e : j = i
    · subst e
      rw [hself]
      rcases hturn with ⟨-, hl⟩ | ⟨hh, hl, -⟩
      · rw [hl]
        cases p.pc.holds <;> simp
      · rw [hl, hh]
        exact h.lock j
    · rw [hother j e]
      rcases hturn with ⟨hl, hl'⟩ | ⟨-, hl, -⟩
      · have hnot : (s.proc j).pc.holds ≠ true := fun hh => by
          have := (h.lock j).mpr hh
          rcases hl with hl | hl <;> rw [hl] at this
          · exact e (Option.some.inj this).symm
          · cases this
        rw [hl']
        cases p.pc.holds
        · simp [hnot]
        · simpa [hnot] using fun e' => e e'.symm
      · rw [hl]
        exact h.lock j
  · by_cases e : j = i
    · subst e
      rw [hself] at hj ⊢
      exact hrun c hj
    · rw [hother j e] at hj ⊢
      exact h.run j c hj
  · by_cases e : j = i
    · subst e
      rw [hself]
      exact hcounted
    · rw [hother j e]
      exact h.counted j
  · by_cases e : j = i
    · subst e
      rw [hself]
      exact hfits
    · rw [hother j e]
      cases hh : (s.proc j).pc.holds with
      | false => exact fits_of_out hh _
      | true =>
        rw [hpipe j e hh]
        exact h.fits j

theorem Inv.room {n : Int} {k j : Nat} (h : Inv s) (hpc : (s.proc i).pc = .wCopy n k j) :
    s.pipe.full = false := by
  have := h.fits i
  rwa [hpc] at this

theorem Inv.more {n : Int} {k : Nat} (h : Inv s) (hpc : (s.proc i).pc = .rCopy n k) :
    s.pipe.empty = false := by
  have := h.fits i
  rwa [hpc] at this

theorem Inv.awake (h : Inv s) (hpc : (s.proc i).pc.chan = none) : (s.proc i).run.chan = none := by
  cases hr : (s.proc i).run.chan with
  | none => rfl
  | some c =>
    rw [h.run i c hr] at hpc
    cases hpc

/-- The holder of the lock is awake. -/
theorem Inv.holder_chan (h : Inv s) (hold : (s.proc i).pc.holds = true) (c : Chan) :
    (s.proc i).run.chan ≠ some c := by
  rw [h.awake (chan_of_holds hold)]
  simp

section

variable (h : Inv s) (hold : (s.proc i).pc.holds = true)
include h hold

/-- The holder of the lock goes on to `pc` and the pipe stays as it is. -/
theorem Inv.goto (hnew : pc.holds = true) (hcounted : Proc.counted { s.proc i with pc := pc })
    (hfits : pc.fits s.pipe) : Inv (s.goto i pc) := by
  have hl := (h.lock i).mpr hold
  refine h.move rfl (Or.inl ⟨Or.inl hl, ?_⟩) (fun c hr => absurd hr (h.holder_chan hold c)) hcounted
    h.content hfits
  show s.lock = if pc.holds then some i else none
  rw [hnew, hl]
  rfl

/-- A call returns `r` and releases the lock. -/
theorem Inv.ret {r : Int} (hcounted : 0 ≤ r → r = (s.proc i).moved) : Inv (s.ret i r) :=
  h.move rfl (Or.inl ⟨Or.inl ((h.lock i).mpr hold), rfl⟩)
    (fun c hr => absurd hr (h.holder_chan hold c)) hcounted h.content trivial

/-- The first half of `sleep` releases the lock. -/
theorem Inv.fall {c : Chan}
    (hnew : pc.chan = some c) (hcounted : Proc.counted { s.proc i with pc := pc }) :
    Inv (s.fall i c pc) := by
  have hout : pc.holds = false := by
    cases hh : pc.holds with
    | false => rfl
    | true =>
      rw [chan_of_holds hh] at hnew
      cases hnew
  refine h.move rfl (Or.inl ⟨Or.inl ((h.lock i).mpr hold), ?_⟩) (fun c' hr => ?_) hcounted
    h.content (fits_of_out hout _)
  · show none = if pc.holds then some i else none
    rw [hout]
    rfl
  · obtain rfl : c = c' := Option.some.inj hr
    exact hnew

end

/-- A process outside takes the lock. -/
theorem Inv.takes (h : Inv s) (hlock : s.lock = none)
    (hproc : s'.proc = update s.proc i { s.proc i with pc := pc }) (hl : s'.lock = some i)
    (hnew : pc.holds = true) (hawake : (s.proc i).run.chan = none)
    (hcounted : Proc.counted { s.proc i with pc := pc })
    (hcontent : Content s'.pipe s'.accepted s'.copied) (hfits : pc.fits s'.pipe) : Inv s' := by
  refine h.move hproc (Or.inl ⟨Or.inr hlock, ?_⟩) (fun c hr => ?_) hcounted hcontent hfits
  · show s'.lock = if pc.holds then some i else none
    rw [hl, hnew]
    rfl
  · rw [show (s.proc i).run.chan = none from hawake] at hr
    cases hr

/-- What happens to a process under its own lock: its place, its bytes and the pipe stay. -/
theorem Inv.touch (h : Inv s) (hpc : p.pc = (s.proc i).pc) (hm : p.moved = (s.proc i).moved)
    (hrun : ∀ c, p.run.chan = some c → (s.proc i).run.chan = some c) : Inv (s.set i p) := by
  refine h.move rfl (Or.inr ⟨by rw [hpc], rfl, rfl⟩) (fun c hr => ?_) ?_ h.content
    (hpc ▸ h.fits i)
  · rw [hpc]
    exact h.run i c (hrun c hr)
  · have := h.counted i
    unfold Proc.counted at this ⊢
    rw [hpc, hm]
    exact this

/-- Under the process's own lock, `wakeup` and `kkill` change its state at most to awake. -/
theorem woken_chan (c d : Chan) (h : (p.woken c).run.chan = some d) : p.run.chan = some d := by
  unfold Proc.woken at h
  split at h
  · cases h
  · exact h

theorem kill_chan (d : Chan) (h : p.kill.run.chan = some d) : p.run.chan = some d := by
  unfold Proc.kill at h
  split at h
  · cases h
  · exact h

@[simp] theorem woken_pc (c : Chan) : (p.woken c).pc = p.pc := by
  unfold Proc.woken
  split <;> rfl

@[simp] theorem woken_moved (c : Chan) : (p.woken c).moved = p.moved := by
  unfold Proc.woken
  split <;> rfl

@[simp] theorem kill_pc : p.kill.pc = p.pc := by
  unfold Proc.kill
  split <;> rfl

@[simp] theorem kill_moved : p.kill.moved = p.moved := by
  unfold Proc.kill
  split <;> rfl

/-- A call that has the lock starts with nothing moved, and closing an end moves no byte. -/
theorem inv_acquire {c : Call} (h : Inv s) (hpc : (s.proc i).pc = .enter c)
    (hlock : s.lock = none) :
    Inv { s.goto i c.start with lock := some i, pipe := c.enters s.pipe } := by
  have hm : (s.proc i).moved = 0 := by
    have := h.counted i
    unfold Proc.counted at this
    rwa [hpc] at this
  have hc : Content (c.enters s.pipe) s.accepted s.copied := by
    cases c with
    | close writable => cases writable <;> exact ⟨h.content.ring, h.content.nwrite, h.content.nread, h.content.inOrder⟩
    | _ => exact h.content
  refine h.takes hlock rfl rfl ?_ (h.awake (by rw [hpc]; rfl)) ?_ hc ?_
  · cases c with
    | close writable => cases writable <;> rfl
    | _ => rfl
  · cases c with
    | close writable => cases writable <;> trivial
    | _ => exact hm
  · cases c with
    | close writable => cases writable <;> trivial
    | _ => trivial

/-- **Every step keeps the invariant.** -/
theorem inv_step {a : Act N} (h : Inv s) (hs : Step s a s') : Inv s' := by
  -- what the place of the process says about the bytes it has moved
  have hcount : ∀ {i : Fin N} {pc : Pc}, (s.proc i).pc = pc →
      Proc.counted { s.proc i with pc := pc } := by
    rintro i pc rfl
    exact h.counted i
  cases hs with
  | call i c r hpc =>
    refine h.move rfl (Or.inr ⟨by rw [hpc]; rfl, rfl, rfl⟩) (fun d hr => ?_) rfl h.content trivial
    rw [show (s.proc i).run.chan = none from h.awake (by rw [hpc]; rfl)] at hr
    cases hr
  | acquire i c hpc hlock => exact inv_acquire h hpc hlock
  | wGone i n k j hpc =>
    exact h.ret (by rw [hpc]; rfl) (fun h0 => absurd h0 (by decide))
  | wFull i n k j hpc =>
    have hm := hcount hpc
    exact h.goto (by rw [hpc]; rfl) rfl hm trivial
  | wRoom i n k j hpc _ _ _ hroom =>
    have hm := hcount hpc
    exact h.goto (by rw [hpc]; rfl) rfl hm hroom
  | wByte i n k j ch hpc =>
    have hold : (s.proc i).pc.holds = true := by rw [hpc]; rfl
    have hl := (h.lock i).mpr hold
    exact h.move rfl (Or.inl ⟨Or.inl hl, hl⟩) (fun d hr => absurd hr (h.holder_chan hold d))
      (congrArg (· + 1) (hcount hpc)) (h.content.put (h.room hpc) ch) trivial
  | wFault i n k j hpc =>
    exact h.goto (by rw [hpc]; rfl) rfl (fun _ => congrArg Nat.cast (hcount hpc).symm) trivial
  | wDone i n k j hpc =>
    exact h.goto (by rw [hpc]; rfl) rfl (fun _ => congrArg Nat.cast (hcount hpc).symm) trivial
  | rKilled i n hpc =>
    exact h.ret (by rw [hpc]; rfl) (fun h0 => absurd h0 (by decide))
  | rEmpty i n hpc =>
    have hm := hcount hpc
    exact h.fall (by rw [hpc]; rfl) rfl hm
  | rReady i n hpc =>
    have hm := hcount hpc
    exact h.goto (by rw [hpc]; rfl) rfl hm trivial
  | rNext i n k hpc _ hmore =>
    have hm := hcount hpc
    exact h.goto (by rw [hpc]; rfl) rfl hm hmore
  | rByte i n k hpc =>
    have hold : (s.proc i).pc.holds = true := by rw [hpc]; rfl
    have hl := (h.lock i).mpr hold
    exact h.move rfl (Or.inl ⟨Or.inl hl, hl⟩) (fun d hr => absurd hr (h.holder_chan hold d))
      (congrArg (· + 1) (hcount hpc)) (h.content.get (h.more hpc)) trivial
  | rFault i n k hpc =>
    refine h.goto (by rw [hpc]; rfl) rfl (fun h0 => ?_) trivial
    have hm : (s.proc i).moved = k := hcount hpc
    split at h0
    · exact absurd h0 (by decide)
    · rename_i hk
      rw [if_neg hk]
      exact congrArg Nat.cast hm.symm
  | rDone i n k hpc =>
    exact h.goto (by rw [hpc]; rfl) rfl (fun _ => congrArg Nat.cast (hcount hpc).symm) trivial
  | wake i k c next hpc hk =>
    have h1 : Inv (s.set k ((s.proc k).woken c)) :=
      h.touch (by simp) (by simp) fun d hd => woken_chan c d hd
    have hsame : (s.set k ((s.proc k).woken c)).proc i = s.proc i :=
      update_of_ne (fun e => hk e.symm) _ _
    refine h1.goto (by rw [hsame, hpc]; rfl) rfl ?_ trivial
    have := hcount hpc
    rw [hsame]
    cases next <;> exact this
  | wakeSelf i c next hpc =>
    refine h.goto (by rw [hpc]; rfl) rfl ?_ trivial
    have := hcount hpc
    cases next <;> exact this
  | wSleep i c n k hpc =>
    have hm := hcount hpc
    exact h.fall (by rw [hpc]; rfl) rfl hm
  | ret i c r hpc => exact h.ret (by rw [hpc]; rfl) (hcount hpc)
  | closed i c hpc =>
    have hold : (s.proc i).pc.holds = true := by rw [hpc]; rfl
    exact h.move rfl (Or.inl ⟨Or.inl ((h.lock i).mpr hold), rfl⟩)
      (fun d hr => absurd hr (h.holder_chan hold d)) trivial h.content trivial
  | asleep i c hrun =>
    exact h.touch rfl rfl fun d hd => by rw [hrun]; exact hd
  | wAgain i n k hpc hrun hlock =>
    have hm := hcount hpc
    exact h.takes hlock rfl rfl rfl (by rw [hrun]; rfl) hm h.content trivial
  | rAgain i n hpc hrun hlock =>
    have hm := hcount hpc
    exact h.takes hlock rfl rfl rfl (by rw [hrun]; rfl) hm h.content trivial
  | kill i => exact h.touch (by simp) (by simp) fun d hd => kill_chan d hd

end Steps

theorem inv_initial {s : Sys N} (h : Initial s) : Inv s := by
  obtain ⟨h1, h2, -, -, h5, -, h7, h8, h9⟩ := h
  refine ⟨fun i => ?_, fun i c hc => ?_, fun i => ?_, ⟨?_, ?_, ?_, ?_⟩, fun i => ?_⟩
  · rw [h5, (h9 i).1]
    simp [Pc.holds]
  · rw [(h9 i).2] at hc
    cases hc
  · unfold Proc.counted
    rw [(h9 i).1]
    trivial
  · rw [h7, h8]
    exact Ring.empty _
  · rw [h2, h7]
    rfl
  · rw [h1, h8]
    rfl
  · simp [h7, h8]
  · rw [(h9 i).1]
    trivial

/-- **The invariant on every reachable state.** -/
theorem inv_reach {s : Sys N} (h : Reachable s) : Inv s :=
  h.invariant (fun _ => inv_initial) fun _ _ hI ⟨_, hs⟩ => inv_step hI hs

/-! ## 5. A pipe is a FIFO -/

/-- **PIPES ARE LOSSLESS FIFOS.** In every state that any interleaving of any number of readers
    and writers reaches, however many bytes have gone through and wherever copies have failed:
    `nwrite - nread` is the number of bytes stored and not yet copied out, and at most `PIPESIZE`;
    the bytes copied out are the first of the bytes stored, in their order; and a call that
    returned a number that is not negative has moved that number of bytes. -/
theorem pipe_fifo {s : Sys N} (h : Reachable s) :
    (s.pipe.nwrite - s.pipe.nread).toNat ≤ PIPESIZE ∧
    (s.pipe.nwrite - s.pipe.nread).toNat = s.accepted.length - s.copied.length ∧
    s.copied <+: s.accepted ∧
    ∀ i r, (s.proc i).pc = .out (some r) → 0 ≤ r → r = (s.proc i).moved := by
  have hI := inv_reach h
  have hsub := hI.content.sub_eq
  refine ⟨?_, hsub, hI.content.inOrder, fun i r hi h0 => ?_⟩
  · have hroom := hI.content.ring.room
    rw [hsub]
    omega
  · have := hI.counted i
    unfold Proc.counted at this
    rw [hi] at this
    exact this h0

/-- After `pipealloc`, with a zeroed page. -/
def boot : Sys N where
  pipe := ⟨fun _ => 0, 0, 0, true, true⟩
  lock := none
  freed := false
  proc := fun _ => ⟨.out none, .awake, false, 0⟩
  accepted := []
  copied := []

theorem initial_boot : Initial (boot : Sys N) :=
  ⟨rfl, rfl, rfl, rfl, rfl, rfl, rfl, rfl, fun _ => ⟨rfl, rfl⟩⟩

/-- One process writes two bytes and reads the first one back; `piperead` has returned 1. -/
theorem pipe_fifo_byte : ∃ s : Sys 1, Reachable s ∧ s.accepted = [7, 8] ∧ s.copied = [7] ∧
    (s.pipe.nwrite - s.pipe.nread).toNat = s.accepted.length - s.copied.length ∧
    s.copied <+: s.accepted ∧ (s.proc 0).pc = .out (some 1) ∧ 1 = ((s.proc 0).moved : Int) := by
  have h0 : Reachable (boot : Sys 1) := .start initial_boot
  have h1 := (h0.step ⟨_, .call 0 (.write 2) none rfl⟩).step ⟨_, .acquire 0 (.write 2) rfl rfl rfl⟩
  have h2 := (h1.step ⟨_, .wRoom 0 2 0 0 rfl (by decide) rfl rfl (by decide)⟩).step
    ⟨_, .wByte 0 2 0 0 7 rfl⟩
  have h3 := (h2.step ⟨_, .wRoom 0 2 1 0 rfl (by decide) rfl rfl (by decide)⟩).step
    ⟨_, .wByte 0 2 1 0 8 rfl⟩
  have h4 := (h3.step ⟨_, .wDone 0 2 2 0 rfl (by decide)⟩).step ⟨_, .wakeSelf 0 .nread (.ret 2) rfl⟩
  have h5 := (h4.step ⟨_, .ret 0 .nread 2 rfl⟩).step ⟨_, .call 0 (.read 1) (some 2) rfl⟩
  have h6 := (h5.step ⟨_, .acquire 0 (.read 1) rfl rfl rfl⟩).step
    ⟨_, .rReady 0 1 rfl (Or.inl (by decide))⟩
  have h7 := (h6.step ⟨_, .rNext 0 1 0 rfl (by decide) (by decide)⟩).step ⟨_, .rByte 0 1 0 rfl⟩
  have h8 := (h7.step ⟨_, .rDone 0 1 1 rfl (Or.inl (by decide))⟩).step
    ⟨_, .wakeSelf 0 .nwrite (.ret 1) rfl⟩
  have h9 := h8.step ⟨_, .ret 0 .nwrite 1 rfl⟩
  obtain ⟨-, hlen, hin, hret⟩ := pipe_fifo h9
  exact ⟨_, h9, rfl, rfl, hlen, hin, rfl, hret 0 1 rfl (by decide)⟩

end HaiOS.Pipes
