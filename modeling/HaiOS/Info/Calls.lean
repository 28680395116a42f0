/-
  File:      HaiOS/Info/Calls.lean
  Subject:   WHAT THE INFORMATIONAL CALLS COPY OUT: `sys_sysinfo`, `sys_schedinfo`, `sys_vmstat` and
             `sys_devinfo` of kernel/sysproc.c, `sys_statfs` and `sys_fstat` of kernel/sysfile.c.

  Each of them fills a struct on the kernel stack, member by member, and copies the whole of it to
  the user. The struct lies where other calls have left their data; a call is a function of the
  kernel's state and of these bytes, and its value is the bytes it passes to `copyout`.

  * `haiSysinfo`, `haiStatfs`, ... -- the members of the structs, laid out by the C ABI.
  * `reply` -- the bytes copied out.
  * `reply_same_iff` -- they do not depend on the old contents of the stack exactly for the calls
    other than `sysinfo` and an `fstat` that finds an inode: these two leave padding as it was.
-/
import HaiOS.File.Table
import HaiOS.Lib.Layout
import HaiOS.Proc.Table

namespace HaiOS.Info

open Lib
open Procs (ProcState)

/-! ## 1. The structs -/

def uint64 : Shape := .num 8
def int : Shape := .num 4
def short : Shape := .num 2
def char : Shape := .num 1

/-- `struct hai_sysinfo`: total_pages, free_pages, pressure_pct, ticks, procs, log_level. -/
def haiSysinfo : List Shape := [uint64, uint64, int, uint64, int, int]

/-- `struct hai_procinfo`: pid, state, priority, rtime, sched_cnt, page_faults, name. -/
def haiProcinfo : List Shape := [int, int, int, uint64, uint64, uint64, char.array 16]

abbrev HAI_MAX_PROCSNAPSHOT : Nat := 32

/-- `struct hai_schedinfo`: runnable, running, sleeping, zombies, used, ticks, nreturned, procs. -/
def haiSchedinfo : List Shape :=
  [int, int, int, int, int, uint64, int, (record haiProcinfo).array HAI_MAX_PROCSNAPSHOT]

/-- `struct hai_vmstat`: total_pages, free_pages, pressure_pct, page_faults. -/
def haiVmstat : List Shape := [uint64, uint64, int, uint64]

abbrev HAI_MAX_DRIVERS : Nat := 8

/-- `struct hai_driver`: name, cls, inited, metric0, metric1, metric2. -/
def haiDriver : List Shape := [char.array 16, int, int, uint64, uint64, uint64]

/-- `struct hai_devinfo`: count, devs. -/
def haiDevinfo : List Shape := [int, (record haiDriver).array HAI_MAX_DRIVERS]

/-- `struct hai_statfs`: 23 words. -/
def haiStatfs : List Shape := List.replicate 23 int

/-- `struct stat`: dev, ino, type, nlink, size. -/
def stat : List Shape := [int, int, short, short, uint64]

example : offsets 0 haiSysinfo = [0, 8, 16, 24, 32, 36] ∧ (record haiSysinfo).size = 40 := by decide
example : offsets 0 stat = [0, 4, 8, 10, 16] ∧ (record stat).size = 24 := by decide
example : (record haiSchedinfo).size = 1832 ∧ (record haiDevinfo).size = 392 := by decide

/-! ## 2. The state the calls read -/

/-- A process, as the snapshots show it. -/
structure Proc where
  state : ProcState
  pid : Nat
  priority : Nat
  rtime : Nat
  schedCnt : Nat
  pageFaults : Nat
  name : List UInt8

/-- The number of the state in `enum procstate`. -/
def stateNum : ProcState → Nat
  | .unused => 0
  | .used => 1
  | .sleeping => 2
  | .runnable => 3
  | .running => 4
  | .zombie => 5

/-- `struct driver`, as far as `driver_snapshot` reads it. -/
structure Driver where
  name : List UInt8
  cls : Nat
  inited : Nat

/-- An open file and the members of its inode that `stati` reads. -/
structure File where
  type : FdType
  dev : Nat
  inum : Nat
  itype : Nat
  nlink : Nat
  size : Nat

/-- The superblock. -/
structure Superblock where
  magic : Nat
  version : Nat
  checksumAlg : Nat
  dataCsum : Nat
  size : Nat
  nblocks : Nat
  ninodes : Nat
  logstart : Nat
  nlog : Nat
  logSegments : Nat
  quotaStart : Nat
  quotaBlocks : Nat

/-- The logical state of the kernel, as far as these calls read it. -/
structure Kernel where
  totalPages : Nat
  freePages : Nat
  ticks : Nat
  logLevel : Nat
  proc : List Proc
  drivers : List Driver
  /-- `disk.submits`, `disk.completes`, `disk.max_inflight` -/
  disk : Nat × Nat × Nat
  /-- `uart_tx_bytes`, `uart_rx_bytes`, `uart_flowctl` -/
  uart : Nat × Nat × Nat
  sb : Superblock
  /-- the bit of a block in the bitmap -/
  bitmap : Nat → Bool
  /-- the type of an inode on disk -/
  dinodeType : Nat → Nat
  ioReads : Nat
  ioWrites : Nat
  checksumErrors : Nat
  /-- `myproc()->ofile` -/
  ofile : Fin NOFILE → Option File

/-- `kalloc_pressure_percent`. -/
def pressurePercent (k : Kernel) : Nat :=
  if k.totalPages = 0 then 0 else (k.totalPages - k.freePages) * 100 / k.totalPages

/-- `safestrcpy(s, t, n)` at address `a`, for a string `t` without its NUL. -/
def safestrcpy (m : Store) (a : Nat) (t : List UInt8) (n : Nat) : Store :=
  patch m a ((t.takeWhile (· != 0)).take (n - 1) ++ [0])

/-! ## 3. The calls -/

/-- `sys_sysinfo`. -/
def sysSysinfo (k : Kernel) (info : Store) : List UInt8 :=
  let info := putLE 8 info (offset haiSysinfo 0) k.totalPages
  let info := putLE 8 info (offset haiSysinfo 1) k.freePages
  let info := putLE 4 info (offset haiSysinfo 2) (pressurePercent k)
  let info := putLE 8 info (offset haiSysinfo 3) k.ticks
  let info := putLE 4 info (offset haiSysinfo 5) k.logLevel
  let procs := (k.proc.filter fun p => p.state != .unused).length
  let info := putLE 4 info (offset haiSysinfo 4) procs
  slice info 0 (record haiSysinfo).size

/-- `fs_statfs`, after its `memset`. -/
def fsStatfs (k : Kernel) (st : Store) : Store :=
  let freeb := ((List.range k.sb.size).filter fun b => !k.bitmap b).length
  let freei := ((List.range k.sb.ninodes).filter fun i => k.dinodeType i == 0).length
  let usedi := ((List.range k.sb.ninodes).filter fun i => k.dinodeType i != 0).length
  let word (st : Store) (i v : Nat) := putLE 4 st (offset haiStatfs i) v
  let st := word st 0 k.sb.magic
  let st := word st 1 k.sb.version
  let st := word st 2 BSIZE
  let st := word st 3 k.sb.checksumAlg
  let st := word st 4 k.sb.dataCsum
  let st := word st 5 k.sb.size
  let st := word st 6 k.sb.nblocks
  let st := word st 7 k.sb.ninodes
  let st := word st 18 k.sb.logstart
  let st := word st 19 k.sb.nlog
  let st := word st 20 k.sb.logSegments
  let st := word st 21 k.sb.quotaStart
  let st := word st 22 k.sb.quotaBlocks
  let st := word st 8 freeb
  let st := word st 9 (k.sb.size - freeb)
  let st := word st 10 freei
  let st := word st 11 usedi
  let st := word st 15 1
  let st := word st 16 1
  let st := word st 17 0
  let st := word st 12 k.ioReads
  let st := word st 13 k.ioWrites
  word st 14 k.checksumErrors

/-- `sys_statfs`. -/
def sysStatfs (k : Kernel) (st : Store) : List UInt8 :=
  slice (fsStatfs k (clear (record haiStatfs).size st)) 0 (record haiStatfs).size

/-- `fill_procinfo`, for the struct at `a`. -/
def fillProcinfo (m : Store) (a : Nat) (p : Proc) : Store :=
  let m := putLE 4 m (a + offset haiProcinfo 0) p.pid
  let m := putLE 4 m (a + offset haiProcinfo 1) (stateNum p.state)
  let m := putLE 4 m (a + offset haiProcinfo 2) p.priority
  let m := putLE 8 m (a + offset haiProcinfo 3) p.rtime
  let m := putLE 8 m (a + offset haiProcinfo 4) p.schedCnt
  let m := putLE 8 m (a + offset haiProcinfo 5) p.pageFaults
  safestrcpy m (a + offset haiProcinfo 6) p.name 16

/-- The member of `struct hai_schedinfo` that counts the processes of the state. -/
def countOf : ProcState → Option Nat
  | .runnable => some 0
  | .running => some 1
  | .sleeping => some 2
  | .zombie => some 3
  | .used => some 4
  | .unused => none

/-- `info.member++` for an `int` at `a`. -/
def incr (m : Store) (a : Nat) : Store := putLE 4 m a (getLE 4 m a + 1)

/-- The loop of `sys_schedinfo`, with `idx` entries returned. -/
def schedLoop (info : Store) (idx : Nat) : List Proc → Store × Nat
  | [] => (info, idx)
  | p :: ps =>
    let info := match countOf p.state with
      | some i => incr info (offset haiSchedinfo i)
      | none => info
    if p.state ≠ .unused ∧ idx < HAI_MAX_PROCSNAPSHOT then
      schedLoop (fillProcinfo info (offset haiSchedinfo 7 + idx * (record haiProcinfo).size) p)
        (idx + 1) ps
    else schedLoop info idx ps

/-- `sys_schedinfo`, after its `memset`. -/
def fillSchedinfo (k : Kernel) (info : Store) : Store :=
  let info := putLE 8 info (offset haiSchedinfo 5) k.ticks
  let (info, idx) := schedLoop info 0 k.proc
  putLE 4 info (offset haiSchedinfo 6) idx

/-- `sys_schedinfo`. -/
def sysSchedinfo (k : Kernel) (info : Store) : List UInt8 :=
  slice (fillSchedinfo k (clear (record haiSchedinfo).size info)) 0 (record haiSchedinfo).size

/-- `sys_vmstat`, after its `memset`. `kalloc_stats` stores words in the 64-bit members. -/
def fillVmstat (k : Kernel) (st : Store) : Store :=
  let st := putLE 4 st (offset haiVmstat 0) k.totalPages
  let st := putLE 4 st (offset haiVmstat 1) k.freePages
  let st := putLE 4 st (offset haiVmstat 2) (pressurePercent k)
  k.proc.foldl (fun st p =>
    if p.state ≠ .unused then
      putLE 8 st (offset haiVmstat 3) (getLE 8 st (offset haiVmstat 3) + p.pageFaults)
    else st) st

/-- `sys_vmstat`. -/
def sysVmstat (k : Kernel) (st : Store) : List UInt8 :=
  slice (fillVmstat k (clear (record haiVmstat).size st)) 0 (record haiVmstat).size

/-- `"virtio-blk"` and `"uart"`. -/
def virtioName : List UInt8 := "virtio-blk".toUTF8.toList
def uartName : List UInt8 := "uart".toUTF8.toList

/-- `virtio_driver_stats` and `uart_driver_stats`, for the struct at `a`. -/
def driverStats (m : Store) (a : Nat) (v : Nat × Nat × Nat) : Store :=
  let m := putLE 8 m (a + offset haiDriver 3) v.1
  let m := putLE 8 m (a + offset haiDriver 4) v.2.1
  putLE 8 m (a + offset haiDriver 5) v.2.2

/-- One round of `driver_snapshot`, for `drivers[i]`. -/
def snapshot (k : Kernel) (m : Store) (i : Nat) (d : Driver) : Store :=
  let a := offset haiDevinfo 1 + i * (record haiDriver).size
  let m := safestrcpy m (a + offset haiDriver 0) d.name 16
  let m := putLE 4 m (a + offset haiDriver 1) d.cls
  let m := putLE 4 m (a + offset haiDriver 2) d.inited
  if d.name = virtioName then driverStats m a k.disk
  else if d.name = uartName then driverStats m a k.uart
  else m

/-- `driver_snapshot`. -/
def driverSnapshot (k : Kernel) (info : Store) : Store :=
  let count := min k.drivers.length HAI_MAX_DRIVERS
  let info := putLE 4 info (offset haiDevinfo 0) count
  (k.drivers.take count).zipIdx.foldl (fun m di => snapshot k m di.2 di.1) info

/-- `sys_devinfo`. -/
def sysDevinfo (k : Kernel) (info : Store) : List UInt8 :=
  slice (driverSnapshot k (clear (record haiDevinfo).size info)) 0 (record haiDevinfo).size

/-- `stati`. -/
def stati (f : File) (st : Store) : Store :=
  let st := putLE 4 st (offset stat 0) f.dev
  let st := putLE 4 st (offset stat 1) f.inum
  let st := putLE 2 st (offset stat 2) f.itype
  let st := putLE 2 st (offset stat 3) f.nlink
  putLE 8 st (offset stat 4) f.size

/-- `filestat`: it returns -1 and copies nothing for a pipe. -/
def filestat (f : File) (st : Store) : List UInt8 :=
  if f.type = .inode ∨ f.type = .device then slice (stati f st) 0 (record stat).size else []

/-- `argfd`. -/
def argfd (k : Kernel) (fd : Int) : Option File :=
  if h : 0 ≤ fd ∧ fd < NOFILE then k.ofile ⟨fd.toNat, by omega⟩ else none

/-- `sys_fstat`. -/
def sysFstat (k : Kernel) (fd : Int) (st : Store) : List UInt8 :=
  match argfd k fd with
  | some f => filestat f st
  | none => []

/-- An informational call. -/
inductive Call where
  | sysinfo | statfs | schedinfo | vmstat | devinfo
  | fstat (fd : Int)

/-- **The bytes copied out**, when the struct lies over the bytes of `stack`. -/
def reply (k : Kernel) (stack : Store) : Call → List UInt8
  | .sysinfo => sysSysinfo k stack
  | .statfs => sysStatfs k stack
  | .schedinfo => sysSchedinfo k stack
  | .vmstat => sysVmstat k stack
  | .devinfo => sysDevinfo k stack
  | .fstat fd => sysFstat k fd stack

/-! ## 4. What the bytes depend on -/

theorem local_fsStatfs (k : Kernel) (n : Nat) : Local n (fsStatfs k) := by
  intro m m' h
  iterate 23 apply local_putLE
  exact h

theorem local_fillProcinfo (n a : Nat) (p : Proc) : Local n fun m => fillProcinfo m a p := by
  intro m m' h
  dsimp only [fillProcinfo, safestrcpy]
  apply local_patch
  iterate 6 apply local_putLE
  exact h

theorem agree_schedLoop {info info' : Store} (ps : List Proc) (idx : Nat)
    (h : Agree (record haiSchedinfo).size info info') :
    Agree (record haiSchedinfo).size (schedLoop info idx ps).1 (schedLoop info' idx ps).1 ∧
      (schedLoop info idx ps).2 = (schedLoop info' idx ps).2 := by
  induction ps generalizing info info' idx with
  | nil => exact ⟨h, rfl⟩
  | cons p ps ih =>
    -- the counter that is stepped lies in the record
    have hcount : Agree (record haiSchedinfo).size
        (match countOf p.state with
          | some i => incr info (offset haiSchedinfo i)
          | none => info)
        (match countOf p.state with
          | some i => incr info' (offset haiSchedinfo i)
          | none => info') := by
      cases p.state with
      | unused => exact h
      | used | sleeping | runnable | running | zombie =>
        exact local_modify 4 _ (· + 1) (by decide) info info' h
    unfold schedLoop
    dsimp only
    split
    · exact ih _ (local_fillProcinfo _ _ p _ _ hcount)
    · exact ih _ hcount

theorem local_fillSchedinfo (k : Kernel) :
    Local (record haiSchedinfo).size (fillSchedinfo k) := by
  intro m m' h
  have hticks := local_putLE 8 (offset haiSchedinfo 5) k.ticks m m' h
  obtain ⟨hloop, hidx⟩ := agree_schedLoop k.proc 0 hticks
  show Agree _ (putLE 4 (schedLoop _ 0 k.proc).1 _ (schedLoop _ 0 k.proc).2)
    (putLE 4 (schedLoop _ 0 k.proc).1 _ (schedLoop _ 0 k.proc).2)
  rw [hidx]
  exact local_putLE 4 _ _ _ _ hloop

theorem local_fillVmstat (k : Kernel) : Local (record haiVmstat).size (fillVmstat k) := by
  intro m m' h
  refine Local.foldl (fun p => ?_) k.proc _ _ ?_
  · intro st st' hst
    split
    · exact local_modify 8 _ (· + p.pageFaults) (by decide) st st' hst
    · exact hst
  · iterate 3 apply local_putLE
    exact h

theorem local_snapshot (k : Kernel) (n i : Nat) (d : Driver) :
    Local n fun m => snapshot k m i d := by
  have hstats : ∀ a v, Local n fun m => driverStats m a v := by
    intro a v m m' h
    dsimp only [driverStats]
    iterate 3 apply local_putLE
    exact h
  intro m m' h
  have hhead := local_putLE 4 (offset haiDevinfo 1 + i * (record haiDriver).size +
    offset haiDriver 2) d.inited _ _ (local_putLE 4 (offset haiDevinfo 1 +
      i * (record haiDriver).size + offset haiDriver 1) d.cls _ _ (local_patch
        (offset haiDevinfo 1 + i * (record haiDriver).size + offset haiDriver 0)
        ((d.name.takeWhile (· != 0)).take (16 - 1) ++ [0]) m m' h))
  dsimp only [snapshot, safestrcpy]
  split
  · exact hstats _ _ _ _ hhead
  · split
    · exact hstats _ _ _ _ hhead
    · exact hhead

theorem local_driverSnapshot (k : Kernel) (n : Nat) : Local n (driverSnapshot k) := by
  intro m m' h
  exact Local.foldl (fun di : Driver × Nat => local_snapshot k n di.2 di.1) _ _ _
    (local_putLE 4 _ _ m m' h)

/-- The calls that leave padding of their struct as it was. -/
def Leaves (k : Kernel) : Call → Prop
  | .sysinfo => True
  | .fstat fd => ∃ f, argfd k fd = some f ∧ (f.type = .inode ∨ f.type = .device)
  | _ => False

/-- `info.pressure_pct` ends at 20, `info.ticks` begins at 24. -/
theorem sysinfo_hole (k : Kernel) (m : Store) : (sysSysinfo k m)[20]? = some (m 20) := by
  unfold sysSysinfo
  rw [List.getElem?_eq_getElem (by rw [length_slice]; decide), getElem_slice]
  iterate 6 rw [putLE_out (by decide)]

/-- `st.nlink` ends at 12, `st.size` begins at 16. -/
theorem stat_hole (f : File) (m : Store) :
    (slice (stati f m) 0 (record stat).size)[12]? = some (m 12) := by
  unfold stati
  rw [List.getElem?_eq_getElem (by rw [length_slice]; decide), getElem_slice]
  iterate 5 rw [putLE_out (by decide)]

/-- Bytes that show the stack at `x` differ for two stacks. -/
theorem differs {g : Store → List UInt8} {x : Nat} (h : ∀ m, (g m)[x]? = some (m x)) :
    ¬ ∀ m m', g m = g m' := by
  intro hs
  have h0 := h fun _ => 0
  rw [hs (fun _ => 0) (fun _ => 1), h fun _ => 1] at h0
  exact absurd h0 (by decide)

/-- **What is copied out does not depend on the old contents of the kernel stack** exactly when
    the call is not `sysinfo` and not an `fstat` of a file with an inode. -/
theorem reply_same_iff (k : Kernel) (c : Call) :
    (∀ stack stack' : Store, reply k stack c = reply k stack' c) ↔ ¬ Leaves k c := by
  cases c with
  | sysinfo => exact ⟨fun h => absurd h (differs (sysinfo_hole k)), fun h => absurd trivial h⟩
  | statfs => exact ⟨fun _ => id, fun _ => (local_fsStatfs k _).after_clear⟩
  | schedinfo => exact ⟨fun _ => id, fun _ => (local_fillSchedinfo k).after_clear⟩
  | vmstat => exact ⟨fun _ => id, fun _ => (local_fillVmstat k).after_clear⟩
  | devinfo => exact ⟨fun _ => id, fun _ => (local_driverSnapshot k _).after_clear⟩
  | fstat fd =>
    simp only [reply, sysFstat, Leaves]
    cases hf : argfd k fd with
    | none => simp
    | some f =>
      simp only [filestat]
      by_cases ht : f.type = .inode ∨ f.type = .device
      · simp only [if_pos ht]
        exact ⟨fun h => absurd h (differs (stat_hole f)), fun h => absurd ⟨f, rfl, ht⟩ h⟩
      · simp only [if_neg ht]
        refine ⟨fun _ ⟨f', hf', ht'⟩ => ?_, fun _ _ _ => trivial⟩
        obtain rfl : f = f' := Option.some.inj hf'
        exact ht ht'

/-- A kernel that runs one process. -/
def oneProc : Kernel where
  totalPages := 65000
  freePages := 64900
  ticks := 7
  logLevel := 1
  proc := [⟨.running, 1, 1, 3, 5, 0, "init".toUTF8.toList⟩]
  drivers := []
  disk := (0, 0, 0)
  uart := (0, 0, 0)
  sb := ⟨0, 0, 0, 0, 0, 0, 0, 0, 0, 0, 0, 0⟩
  bitmap := fun _ => false
  dinodeType := fun _ => 0
  ioReads := 0
  ioWrites := 0
  checksumErrors := 0
  ofile := fun _ => none

/-- **Four bytes of the stack leave with `sysinfo`**: a stack that holds 0xAA shows it. -/
theorem sysinfo_leaks :
    reply oneProc (fun _ => 0xAA) .sysinfo ≠ reply oneProc (fun _ => 0) .sysinfo := by
  decide

end HaiOS.Info
