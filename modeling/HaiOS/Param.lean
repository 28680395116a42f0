/-
  File:      HaiOS/Param.lean
  Subject:   The constants of kernel/param.h, kernel/fs.h, kernel/stat.h, kernel/file.h,
             kernel/riscv.h and kernel/memlayout.h, and the panics of the modelled code.
-/
import Mathlib.Algebra.GroupWithZero.Nat

namespace HaiOS

/-! ## kernel/param.h -/

abbrev NPROC : Nat := 128

instance : NeZero NPROC := ⟨by decide⟩

abbrev NCPU : Nat := 8
abbrev NOFILE : Nat := 16
abbrev NFILE : Nat := 200
abbrev NINODE : Nat := 100
abbrev NDEV : Nat := 10
abbrev MAXARG : Nat := 32
abbrev MAXPATH : Nat := 128
abbrev MAXOPBLOCKS : Nat := 10
abbrev LOGBLOCKS : Nat := MAXOPBLOCKS * 3
abbrev NBUF : Nat := MAXOPBLOCKS * 3
abbrev USERSTACK : Nat := 1
abbrev MEM_LOW_WATERMARK_PAGES : Nat := 64
abbrev MEM_CRIT_WATERMARK_PAGES : Nat := 32
abbrev PRI_MIN : Int := 0
abbrev PRI_DEFAULT : Int := 1
abbrev PRI_MAX : Int := 3
abbrev SLICE_P0_TICKS : Int := 8
abbrev SLICE_P1_TICKS : Int := 6
abbrev SLICE_P2_TICKS : Int := 4
abbrev SLICE_P3_TICKS : Int := 2

theorem PRI_MIN_eq : PRI_MIN = 0 := rfl

theorem PRI_MAX_eq : PRI_MAX = 3 := rfl

/-! ## kernel/fs.h, kernel/stat.h, kernel/file.h -/

abbrev ROOTINO : Nat := 1
abbrev FSMAGIC : Nat := 0x48414946
abbrev BSIZE : Nat := 1024
abbrev NEXTENT : Nat := 14
/-- `sizeof(struct dinode)`: four shorts, two words and `NEXTENT` extents of two words. -/
abbrev DINODE_SIZE : Nat := 128
abbrev IPB : Nat := BSIZE / DINODE_SIZE
abbrev BPB : Nat := BSIZE * 8

theorem IPB_eq : IPB = 8 := rfl

theorem BPB_eq : BPB = 8192 := rfl

abbrev MAXFILE : Nat := 1024
abbrev DIRSIZ : Nat := 14
/-- `sizeof(struct dirent)`: a short and the name. -/
abbrev DIRENT_SIZE : Nat := 16
abbrev DIRCACHE_MAX : Nat := 256
abbrev T_DIR : Int16 := 1
abbrev T_FILE : Int16 := 2
abbrev T_DEVICE : Int16 := 3

/-! ## kernel/riscv.h, kernel/memlayout.h -/

abbrev PGSIZE : Nat := 4096
abbrev MAXVA : Nat := 2 ^ 38
abbrev KERNBASE : Nat := 0x80000000
abbrev PHYSTOP : Nat := KERNBASE + 256 * 1024 * 1024
abbrev TRAMPOLINE : Nat := MAXVA - PGSIZE
abbrev TRAPFRAME : Nat := TRAMPOLINE - PGSIZE

/-- The panics the modelled code can reach, one constructor a message. -/
inductive Panic where
  /-- `log_write`: "too big a transaction" -/
  | tooBigTransaction
  /-- `log_write`: "log_write outside of trans" -/
  | logWriteOutsideOfTrans
  /-- `end_op`: "log.committing" -/
  | logCommitting
  /-- `bget`: "bget: no buffers" -/
  | bgetNoBuffers
  /-- `fsinit`: "invalid file system" -/
  | invalidFileSystem
  /-- `bfree`: "freeing free block" -/
  | freeingFreeBlock
  /-- `bmap`: "bmap: extent overflow" -/
  | bmapExtentOverflow
  /-- `bmap`: "bmap: unreachable" -/
  | bmapUnreachable
  /-- `iget`: "iget: no inodes" -/
  | igetNoInodes
  /-- `ilock`: "ilock" -/
  | ilock
  /-- `ilock`: "ilock: no type" -/
  | ilockNoType
  /-- `iunlock`: "iunlock" -/
  | iunlock
  /-- `dircache_rebuild`: "dircache rebuild read" -/
  | dircacheRebuildRead
  /-- `dirlookup`: "dirlookup not DIR" -/
  | dirlookupNotDir
  /-- `dirlookup`: "dirlookup read" -/
  | dirlookupRead
  /-- `dirlink`: "dirlink read" -/
  | dirlinkRead
  /-- `isdirempty`: "isdirempty: readi" -/
  | isdiremptyReadi
  /-- `sys_unlink`: "unlink: nlink < 1" -/
  | unlinkNlink
  /-- `sys_unlink`: "unlink: writei" -/
  | unlinkWritei
  /-- `filedup`: "filedup" -/
  | filedup
  /-- `fileclose`: "fileclose" -/
  | fileclose
  deriving DecidableEq, Repr

end HaiOS
