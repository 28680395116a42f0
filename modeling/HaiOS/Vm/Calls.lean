/-
  File:      HaiOS/Vm/Calls.lean
  Subject:   THE SYSTEM OF PROCESSES AND THEIR MEMORY, call by call: what a process in user mode and
             the system calls do to memory, in any order.

  * `Op`, `perform` -- a process loads, stores, has the kernel copy from and to its memory, moves
    its break, forks, calls a program, exits, waits, and opens and closes pipes.
  * `Booted`, `Reached` -- the state after the boot, and what any sequence of calls makes of it.

  A call that needs a process does nothing when the slot has none. An access that cannot be resolved
  leaves the process where it is; that `usertrap` then kills it is an `exit` that may follow.
-/
import HaiOS.Vm.Exec
import HaiOS.Lib.Machine

namespace HaiOS.Vm

open Lib Lib.Routine

/-- What a process does. -/
inductive Op where
  | load (va : Nat)
  | store (va : Nat) (b : UInt8)
  | copyin (va len : Nat)
  | copyout (va : Nat) (src : List UInt8)
  | sbrk (n : Int32) (eager : Bool)
  | fork
  /-- `namei` is the file system at the time of the call -/
  | exec (namei : List UInt8 → Option Exe) (upath uargv : Nat)
  | exit (status : Int)
  | wait (addr : Nat)
  | pipe
  | close (k : Nat) (writable : Bool)

/-- What it gets back. -/
inductive Ans where
  /-- the slot has no process -/
  | nobody
  /-- a byte, or the process is killed -/
  | byte (b : Option UInt8)
  /-- whether it worked -/
  | ok (b : Bool)
  | bytes (bs : Option (List UInt8))
  /-- the old break, or -1 -/
  | brk (b : Option Nat)
  | int (n : Int)
  | waited (w : Waited)
  deriving DecidableEq

/-- Run `f` on the process in slot `i`. -/
def inProc (i : Fin NPROC) (f : Proc → VmM (Ans × Proc)) : SysM Ans := do
  match (← gets Sys.proc) i with
  | .used p => do
    let (a, p) ← onMem (f p)
    setSlot i (.used p)
    pure a
  | _ => pure .nobody

/-- Run `f` on the address space of the process. -/
def inSpace {α : Type} (ans : α → Ans) (f : Space → VmM (α × Space)) (p : Proc) :
    VmM (Ans × Proc) := do
  let (a, s) ← f ⟨p.pagetable, p.sz, none⟩
  pure (ans a, { p with pagetable := s.pagetable })

/-- `sys_sbrk` as a call. -/
def callSbrk (n : Int32) (eager : Bool) (p : Proc) : VmM (Ans × Proc) := do
  let (b, p) ← sysSbrk p n eager
  pure (.brk b, p)

/-- `sys_exec` as a call. -/
def callExec (namei : List UInt8 → Option Exe) (trampoline upath uargv : Nat) (p : Proc) :
    VmM (Ans × Proc) := do
  let (n, p) ← sysExec namei trampoline p upath uargv
  pure (.int n, p)

/-- A call that works on the table: the process in slot `i` makes it. -/
def byProc {α : Type} (i : Fin NPROC) (ans : α → Ans) (f : Proc → SysM α) : SysM Ans := do
  match (← gets Sys.proc) i with
  | .used p => do
    let a ← f p
    pure (ans a)
  | _ => pure .nobody

/-- **A call** of the process in slot `i`. -/
def perform (c : Fin NPROC × Op) : SysM Ans :=
  match c.2 with
  | .load va => inProc c.1 (inSpace .byte (load · va))
  | .store va b => inProc c.1 (inSpace .ok (store · va b))
  | .copyin va len => inProc c.1 (inSpace .bytes (copyin · va len))
  | .copyout va src => inProc c.1 (inSpace .ok (copyout · va src))
  | .sbrk n eager => inProc c.1 (callSbrk n eager)
  | .fork => byProc c.1 .int (kfork c.1)
  | .exec namei upath uargv => do
    let trampoline ← gets Sys.trampoline
    inProc c.1 (callExec namei trampoline upath uargv)
  | .exit status => byProc c.1 (fun _ => .ok true) fun _ => kexit c.1 status
  | .wait addr => byProc c.1 .waited (kwait c.1 · addr)
  | .pipe => byProc c.1 .ok fun _ => pipealloc
  | .close k writable => byProc c.1 (fun _ => .ok true) fun _ => pipeclose k writable

/-- **After the boot**, with memory from page `first` on. -/
def Booted (s : Sys) : Prop :=
  ∃ first n trampoline ram s0, first ≤ NPAGE ∧ boot first n trampoline ram s0 = .ok true s

/-- **The states any sequence of calls reaches.** -/
def Reached (s : Sys) : Prop := ∃ s0 l, Booted s0 ∧ Calls perform s0 l s

end HaiOS.Vm
