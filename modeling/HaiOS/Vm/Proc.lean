/-
  File:      HaiOS/Vm/Proc.lean
  Subject:   PROCESSES AND THEIR MEMORY (kernel/proc.c, kernel/sysproc.c, kernel/pipe.c):
             `proc_pagetable`, `proc_freepagetable`, `allocproc`, `freeproc`, `growproc`, `sys_sbrk`,
             `kfork`, `kexit`, `kwait`, `pipealloc`, `pipeclose`, and the boot up to `userinit`.

  Of `struct proc` the model keeps what these routines read and write; the scheduler's fields, open
  files and the working directory have no part in it. A routine runs from its start to its end: a
  process works on its own page table, and what it shares with others -- the allocator -- is locked.

  A process being built by `allocproc` is a value in the hand of its caller; it enters the table
  when `kfork` is done with it.
-/
import HaiOS.Vm.Uvm

namespace HaiOS.Vm

open Lib Lib.Routine

/-! ## 1. The page table of a process -/

/-- `PTE_X` alone. -/
def Flags.X : Flags := ⟨false, true, false, false⟩

/-- `proc_pagetable`: an empty table with the trampoline and the trap frame. -/
def procPagetable (trampoline trapframe : Nat) : VmM (Option PageTable) := do
  match ← uvmcreate with
  | none => pure none
  | some t => do
    let (ok, t) ← mappages t TRAMPOLINE PGSIZE trampoline Flags.X
    if ok = false then do
      uvmfree t 0
      pure none
    else do
      let (ok, t) ← mappages t TRAPFRAME PGSIZE trapframe Flags.W
      if ok = false then do
        let t ← uvmunmap t TRAMPOLINE 1 false
        uvmfree t 0
        pure none
      else pure (some t)

/-- `proc_freepagetable`. -/
def procFreepagetable (t : PageTable) (sz : Nat) : VmM Unit := do
  let t ← uvmunmap t TRAMPOLINE 1 false
  let t ← uvmunmap t TRAPFRAME 1 false
  uvmfree t sz

/-! ## 2. The process table -/

/-- The registers of the trap frame that the modelled code writes. -/
structure Trapframe where
  epc : Nat
  sp : Nat
  a0 : Nat
  a1 : Nat
  deriving DecidableEq

/-- `struct proc`. -/
structure Proc where
  pid : Int32
  parent : Option (Fin NPROC)
  xstate : Int
  /-- the page of the trap frame -/
  frame : Nat
  trapframe : Trapframe
  pagetable : PageTable
  sz : Nat
  name : List UInt8

/-- A slot of `proc[NPROC]`, by its `state`. -/
inductive Slot where
  | unused
  /-- USED, SLEEPING, RUNNABLE or RUNNING -/
  | used (p : Proc)
  | zombie (p : Proc)

/-- The process in a slot. -/
def Slot.proc? : Slot → Option Proc
  | .unused => none
  | .used p => some p
  | .zombie p => some p

/-- Change the process in a slot, not its state. -/
def Slot.map (f : Proc → Proc) : Slot → Slot
  | .unused => .unused
  | .used p => .used (f p)
  | .zombie p => .zombie (f p)

/-- A pipe: its page and the ends that are open. -/
structure Pipe where
  page : Nat
  readopen : Bool
  writeopen : Bool

/-- **The state of the kernel**: the memory, the process table, the pipes, and the pages that the
    kernel took at boot and keeps. -/
structure Sys where
  mem : Mem
  proc : Fin NPROC → Slot
  nextpid : Int32
  initproc : Fin NPROC
  pipes : List Pipe
  kernel : List Nat
  /-- the page of the trampoline, in the kernel's image -/
  trampoline : Nat

/-- A routine of the kernel. -/
abbrev SysM (α : Type) : Type := Routine Panic Sys α

/-- A routine of the memory system, run in the kernel. -/
def onMem {α : Type} (x : VmM α) : SysM α := fun s =>
  match x s.mem with
  | .ok a m => .ok a { s with mem := m }
  | .fail e m => .fail e { s with mem := m }

/-- Write a slot. -/
def setSlot (i : Fin NPROC) (x : Slot) : SysM Unit :=
  update fun s => { s with proc := Function.update s.proc i x }

/-! ## 3. Making and freeing a process -/

/-- The first UNUSED slot. -/
def firstUnused (proc : Fin NPROC → Slot) : Option (Fin NPROC) :=
  (List.finRange NPROC).find? fun i => (proc i).proc?.isNone

/-- `allocpid`; the counter is an `int` and wraps. -/
def allocpid : SysM Int32 := do
  let pid ← gets Sys.nextpid
  update fun s => { s with nextpid := s.nextpid + 1 }
  pure pid

/-- `freeproc`, as far as it gives memory back. -/
def freeproc (p : Proc) : VmM Unit := do
  kfree p.frame
  procFreepagetable p.pagetable p.sz

/-- `allocproc`: a slot, and a process with an empty address space. On failure `freeproc` has only
    the trap frame to give back. -/
def allocproc : SysM (Option (Fin NPROC × Proc)) := do
  match firstUnused (← gets Sys.proc) with
  | none => pure none
  | some i => do
    let pid ← allocpid
    match ← onMem kalloc with
    | none => pure none
    | some frame => do
      match ← onMem (procPagetable (← gets Sys.trampoline) frame) with
      | none => do
        onMem (kfree frame)
        pure none
      | some t => pure (some (i, ⟨pid, none, 0, frame, ⟨0, 0, 0, 0⟩, t, 0, []⟩))

/-! ## 4. Growing -/

/-- `growproc`: whether it succeeded, and the process. -/
def growproc (p : Proc) (n : Int) : VmM (Bool × Proc) :=
  if 0 < n then
    if TRAPFRAME < addInt p.sz n then pure (false, p)
    else do
      let (sz, t) ← uvmalloc p.pagetable p.sz (addInt p.sz n) Flags.W
      if sz = 0 then pure (false, { p with pagetable := t })
      else pure (true, { p with pagetable := t, sz := sz })
  else if n < 0 then do
    let (sz, t) ← uvmdealloc p.pagetable p.sz (addInt p.sz n)
    pure (true, { p with pagetable := t, sz := sz })
  else pure (true, p)

/-- `sys_sbrk`: the old break, `none` for -1. -/
def sysSbrk (p : Proc) (n : Int32) (eager : Bool) : VmM (Option Nat × Proc) :=
  if eager = true ∨ n.toInt < 0 then do
    let (ok, p') ← growproc p n.toInt
    if ok = false then pure (none, p') else pure (some p.sz, p')
  else if addInt p.sz n.toInt < p.sz then pure (none, p)
  else if TRAPFRAME < addInt p.sz n.toInt then pure (none, p)
  else pure (some p.sz, { p with sz := addInt p.sz n.toInt })

/-! ## 5. Fork, exit, wait -/

/-- `kfork` by the process `p` in slot `i`: the child's pid, or -1. -/
def kfork (i : Fin NPROC) (p : Proc) : SysM Int := do
  match ← allocproc with
  | none => pure (-1)
  | some (j, np) => do
    let (ok, old, new) ← onMem (uvmcopy p.pagetable np.pagetable p.sz)
    setSlot i (.used { p with pagetable := old })
    let np := { np with pagetable := new }
    if ok = false then do
      onMem (freeproc np)
      pure (-1)
    else do
      setSlot j (.used
        { np with
          sz := p.sz
          trapframe := { p.trapframe with a0 := 0 }
          name := p.name
          parent := some i })
      pure np.pid.toInt

/-- `reparent`: the children of slot `i` become children of init. -/
def reparent (i : Fin NPROC) (s : Sys) : Sys :=
  { s with
    proc := fun k => (s.proc k).map fun q =>
      if q.parent = some i then { q with parent := some s.initproc } else q }

/-- The slot of a process that exits. -/
def Slot.exit (status : Int) : Slot → Slot
  | .used p => .zombie { p with xstate := status }
  | x => x

/-- `kexit` by the process in slot `i`; its memory stays until its parent waits for it. -/
def kexit (i : Fin NPROC) (status : Int) : SysM Unit := do
  if i = (← gets Sys.initproc) then stop .initExiting
  else do
    update (reparent i)
    update fun s => { s with proc := Function.update s.proc i ((s.proc i).exit status) }

/-- The first ZOMBIE child of slot `i`. -/
def zombieChild (proc : Fin NPROC → Slot) (i : Fin NPROC) : Option (Fin NPROC × Proc) :=
  (List.finRange NPROC).findSome? fun k =>
    match proc k with
    | .zombie q => if q.parent = some i then some (k, q) else none
    | _ => none

/-- Slot `i` has a child. -/
def havekids (proc : Fin NPROC → Slot) (i : Fin NPROC) : Bool :=
  (List.finRange NPROC).any fun k =>
    match (proc k).proc? with
    | some q => q.parent = some i
    | none => false

/-- How a scan of `kwait` ends: with a pid, with -1, or asleep. -/
inductive Waited where
  | pid (pid : Int32)
  | error
  | sleeps
  deriving DecidableEq

/-- `kwait` by the process `p` in slot `i`: one scan of the table. The status of the child goes to
    `addr`, in 4 bytes, before the child is freed. -/
def kwait (i : Fin NPROC) (p : Proc) (addr : Nat) : SysM Waited := do
  let s ← read
  match zombieChild s.proc i with
  | some (k, q) => do
    let (ok, sp) ← if addr = 0 then pure (true, ⟨p.pagetable, p.sz, none⟩)
      else onMem (copyout ⟨p.pagetable, p.sz, none⟩ addr (le 4 (q.xstate.emod (2 ^ 32)).toNat))
    setSlot i (.used { p with pagetable := sp.pagetable })
    if ok = false then pure .error
    else do
      onMem (freeproc q)
      setSlot k .unused
      pure (.pid q.pid)
  | none => if havekids s.proc i = true then pure .sleeps else pure .error

/-! ## 6. Pipes -/

/-- `pipealloc`, when two files were free. -/
def pipealloc : SysM Bool := do
  match ← onMem kalloc with
  | none => pure false
  | some page => do
    update fun s => { s with pipes := ⟨page, true, true⟩ :: s.pipes }
    pure true

/-- `pipeclose` of an end of the pipe at position `k`; the page goes with the second end. -/
def pipeclose (k : Nat) (writable : Bool) : SysM Unit := do
  match (← gets Sys.pipes)[k]? with
  | none => pure ()
  | some pi => do
    let pi := if writable = true then { pi with writeopen := false }
      else { pi with readopen := false }
    if pi.readopen = false ∧ pi.writeopen = false then do
      update fun s => { s with pipes := s.pipes.eraseIdx k }
      onMem (kfree pi.page)
    else update fun s => { s with pipes := s.pipes.set k pi }

/-! ## 7. Boot -/

/-- The pages that the kernel takes for its page table, the kernel stacks and the disk queues. -/
def kernelPages : Nat → VmM (Option (List Nat))
  | 0 => pure (some [])
  | n + 1 => do
    match ← kalloc with
    | none => pure none
    | some p => do
      match ← kernelPages n with
      | none => pure none
      | some l => pure (some (p :: l))

/-- `userinit`: the first process; false when `allocproc` failed. -/
def userinit : SysM Bool := do
  match ← allocproc with
  | none => pure false
  | some (i, p) => do
    setSlot i (.used p)
    update fun s => { s with initproc := i }
    pure true

/-- **The boot**: `kinit`, `n` pages for the kernel, `userinit`; false when memory was too small. -/
def boot (first n trampoline : Nat) (ram : Nat → Store) : SysM Bool := do
  onMem (kinit first ram)
  match ← onMem (kernelPages n) with
  | none => pure false
  | some l => do
    update fun s =>
      { s with
        proc := fun _ => .unused
        nextpid := 1
        pipes := []
        kernel := l
        trampoline := trampoline }
    userinit

end HaiOS.Vm
