/-
  File:      HaiOS/Proc/Table.lean
  Subject:   WHO RUNS IN THE KERNEL: the states of a process (kernel/proc.h), and the processes and
             the interrupt handlers that take the kernel's locks.
-/
import HaiOS.Lib.Machine
import HaiOS.Param
import Mathlib.Data.List.FinRange
import Mathlib.Logic.Function.Basic

namespace HaiOS.Procs

/-- `enum procstate`. -/
inductive ProcState where
  | unused | used | sleeping | runnable | running | zombie
  deriving DecidableEq

/-- A process in a system call, or the interrupt handler of a CPU. -/
abbrev Thread := Fin NPROC ⊕ Fin NCPU

/-- The processes that the loop of `wakeup` visits. (It leaves out the one it runs in, which does
    not sleep.) -/
def slots : List Thread := (List.finRange NPROC).map Sum.inl

theorem mem_slots (p : Fin NPROC) : (Sum.inl p : Thread) ∈ slots :=
  List.mem_map_of_mem (List.mem_finRange p)

end HaiOS.Procs
