/-
  File:      HaiOS/Fs/State.lean
  Subject:   THE FILE SYSTEM'S STATE: the disk, the buffer cache, the log and the inode table,
             with the on-disk layout of inodes (kernel/fs.h, kernel/file.h, kernel/buf.h).

  There is one device, so `dev` fields are left out; a buffer that has never held a block of
  it has no `blockno`. Locks are left out: a routine of the model runs from its first
  statement to its last.

  * `Fs` -- the state; `writes` is a ghost, the block writes issued so far, oldest first;
  * `Dinode.bytes`, `Dinode.ofBytes` -- the 128 bytes of a `struct dinode`;
    `ofBytes_bytes` -- what is stored is what is read back.
-/
import HaiOS.Lib.Routine
import HaiOS.Lib.Bytes
import HaiOS.Log.Core

namespace HaiOS

open Lib

/-! ## 1. On-disk inodes -/

/-- `uchar data[BSIZE]`, by offset. -/
abbrev Block : Type := Store

/-- `struct extent`. -/
structure Extent where
  /-- start block -/
  start : UInt32
  /-- length in blocks -/
  len : UInt32
  deriving DecidableEq, Repr

/-- `struct extent extents[NEXTENT]`. -/
def Extents : Type := { l : List Extent // l.length = NEXTENT }

instance : DecidableEq Extents := inferInstanceAs (DecidableEq { l : List Extent // l.length = NEXTENT })

/-- All slots empty. -/
def Extents.none : Extents := ⟨List.replicate NEXTENT ⟨0, 0⟩, List.length_replicate⟩

/-- `struct dinode`. -/
structure Dinode where
  type : Int16
  major : Int16
  minor : Int16
  nlink : Int16
  /-- file size (bytes) -/
  size : UInt32
  /-- Adler-32 of the contents -/
  checksum : UInt32
  extents : Extents
  deriving DecidableEq

/-- `memset(dip, 0, sizeof(*dip))`. -/
def Dinode.zero : Dinode := ⟨0, 0, 0, 0, 0, 0, Extents.none⟩

def shortBytes (v : Int16) : List UInt8 := le 2 v.toUInt16.toNat

def shortOf (bs : List UInt8) : Int16 := (UInt16.ofNat (ofLE bs)).toInt16

def wordBytes (v : UInt32) : List UInt8 := le 4 v.toNat

def wordOf (bs : List UInt8) : UInt32 := UInt32.ofNat (ofLE bs)

@[simp] theorem length_shortBytes (v : Int16) : (shortBytes v).length = 2 := length_le ..

@[simp] theorem length_wordBytes (v : UInt32) : (wordBytes v).length = 4 := length_le ..

theorem drop_shortBytes {k : Nat} (h : 2 ≤ k) (v : Int16) : (shortBytes v).drop k = [] :=
  List.drop_eq_nil_of_le (by rw [length_shortBytes]; exact h)

theorem drop_wordBytes {k : Nat} (h : 4 ≤ k) (v : UInt32) : (wordBytes v).drop k = [] :=
  List.drop_eq_nil_of_le (by rw [length_wordBytes]; exact h)

@[simp] theorem shortOf_shortBytes (v : Int16) : shortOf (shortBytes v) = v := by
  unfold shortOf shortBytes
  have hv : v.toUInt16.toNat % 256 ^ 2 = v.toUInt16.toNat :=
    Nat.mod_eq_of_lt v.toUInt16.toNat_lt
  rw [ofLE_le, hv]
  simp

@[simp] theorem wordOf_wordBytes (v : UInt32) : wordOf (wordBytes v) = v := by
  unfold wordOf wordBytes
  have hv : v.toNat % 256 ^ 4 = v.toNat := Nat.mod_eq_of_lt v.toNat_lt
  rw [ofLE_le, hv]
  simp

def Extent.bytes (e : Extent) : List UInt8 := wordBytes e.start ++ wordBytes e.len

/-- The first `n` extents of an array. -/
def extentsOf : Nat → List UInt8 → List Extent
  | 0, _ => []
  | n + 1, bs => ⟨wordOf (bs.take 4), wordOf ((bs.drop 4).take 4)⟩ :: extentsOf n (bs.drop 8)

theorem length_extentsOf (n : Nat) (bs : List UInt8) : (extentsOf n bs).length = n := by
  induction n generalizing bs with
  | zero => rfl
  | succ n ih => simp [extentsOf, ih]

theorem extentsOf_bytes (es : List Extent) : extentsOf es.length (es.flatMap Extent.bytes) = es := by
  induction es with
  | nil => rfl
  | cons e es ih => simp [extentsOf, Extent.bytes, List.drop_append, drop_wordBytes, ih]

/-- The bytes of a `struct dinode`, field after field. -/
def Dinode.bytes (d : Dinode) : List UInt8 :=
  shortBytes d.type ++ (shortBytes d.major ++ (shortBytes d.minor ++ (shortBytes d.nlink ++
    (wordBytes d.size ++ (wordBytes d.checksum ++ d.extents.1.flatMap Extent.bytes)))))

def Dinode.ofBytes (bs : List UInt8) : Dinode where
  type := shortOf (bs.take 2)
  major := shortOf ((bs.drop 2).take 2)
  minor := shortOf ((bs.drop 4).take 2)
  nlink := shortOf ((bs.drop 6).take 2)
  size := wordOf ((bs.drop 8).take 4)
  checksum := wordOf ((bs.drop 12).take 4)
  extents := ⟨extentsOf NEXTENT (bs.drop 16), length_extentsOf ..⟩

theorem length_flatMap_bytes (es : List Extent) : (es.flatMap Extent.bytes).length = 8 * es.length := by
  induction es with
  | nil => rfl
  | cons e es ih =>
    simp only [List.flatMap_cons, List.length_append, ih, List.length_cons, Extent.bytes,
      length_wordBytes]
    omega

@[simp] theorem Dinode.length_bytes (d : Dinode) : d.bytes.length = DINODE_SIZE := by
  simp only [Dinode.bytes, List.length_append, length_shortBytes, length_wordBytes,
    length_flatMap_bytes, d.extents.2]
  decide

/-- **What is stored is what is read back.** -/
theorem Dinode.ofBytes_bytes (d : Dinode) : Dinode.ofBytes d.bytes = d := by
  have he : extentsOf NEXTENT (d.extents.1.flatMap Extent.bytes) = d.extents.1 := by
    have h := extentsOf_bytes d.extents.1
    rwa [d.extents.2] at h
  simp [Dinode.ofBytes, Dinode.bytes, List.drop_append, drop_shortBytes, drop_wordBytes, he]
  rfl

/-- `*((struct dinode*)bp->data + i)`. -/
def getDinode (blk : Block) (i : Nat) : Dinode :=
  Dinode.ofBytes (slice blk (i * DINODE_SIZE) DINODE_SIZE)

/-- Store `d` as `*((struct dinode*)bp->data + i)`. -/
def putDinode (blk : Block) (i : Nat) (d : Dinode) : Block := patch blk (i * DINODE_SIZE) d.bytes

@[simp] theorem getDinode_putDinode (blk : Block) (i : Nat) (d : Dinode) :
    getDinode (putDinode blk i d) i = d := by
  unfold getDinode putDinode
  have h := slice_patch_self blk (i * DINODE_SIZE) d.bytes
  rw [Dinode.length_bytes] at h
  rw [h, Dinode.ofBytes_bytes]

theorem getDinode_putDinode_ne {blk : Block} {i j : Nat} {d : Dinode} (h : j ≠ i) :
    getDinode (putDinode blk i d) j = getDinode blk j := by
  unfold getDinode putDinode
  rw [slice_patch_disjoint]
  rw [Dinode.length_bytes]
  simp only [DINODE_SIZE]
  omega

/-! ## 2. The state -/

/-- `struct superblock`: the fields the kernel uses after `readsb`. -/
structure Superblock where
  /-- size of file system image (blocks) -/
  size : Nat
  /-- number of data blocks -/
  nblocks : Nat
  ninodes : Nat
  /-- number of log blocks -/
  nlog : Nat
  logstart : Nat
  inodestart : Nat
  bmapstart : Nat
  deriving DecidableEq, Repr

/-- `struct buf`. -/
structure Buf where
  blockno : Option Nat
  /-- has data been read from disk? -/
  valid : Bool
  refcnt : Nat
  data : Block

/-- `struct dircache_entry`. -/
structure DircacheEntry where
  name : List UInt8
  inum : Nat
  /-- byte offset within directory file -/
  off : Nat
  deriving DecidableEq, Repr

/-- `struct dircache`: `entries` is `entries[0 .. nentries)`. -/
structure Dircache where
  valid : Bool
  sizeSnapshot : Nat
  /-- directory larger than cache captured -/
  truncated : Bool
  entries : List DircacheEntry
  deriving DecidableEq, Repr

/-- `struct inode`. -/
structure Inode where
  inum : Nat
  ref : Nat
  /-- inode has been read from disk? -/
  valid : Bool
  /-- `type` to `extents`: the copy of the disk inode -/
  din : Dinode
  cache : Dircache

/-- The state of the file system. -/
structure Fs where
  sb : Superblock
  /-- what is on the disk, by block number -/
  disk : Nat → Block
  writes : List (Nat × Block)
  /-- `bcache`: the buffers from `head.next`, the most recently used, to `head.prev` -/
  bcache : List Buf
  log : Log
  /-- `itable.inode[0 .. NINODE)` -/
  itable : Nat → Inode
  /-- `bio_checksum_errors` -/
  checksumErrors : Nat

/-- Memory at boot (`binit`, `iinit`, and `initlog` before `recover_from_log`), with what is on
    the disk. -/
@[irreducible] def Fs.boot (sb : Superblock) (disk : Nat → Block) : Fs where
  sb := sb
  disk := disk
  writes := []
  bcache := List.replicate NBUF ⟨none, false, 0, fun _ => 0⟩
  log := ⟨sb.logstart, 0, false, []⟩
  itable := fun _ => ⟨0, 0, false, Dinode.zero, ⟨false, 0, false, []⟩⟩
  checksumErrors := 0

section Boot

variable (sb : Superblock) (disk : Nat → Block)

@[simp] theorem boot_sb : (Fs.boot sb disk).sb = sb := by simp only [Fs.boot]

@[simp] theorem boot_disk : (Fs.boot sb disk).disk = disk := by simp only [Fs.boot]

@[simp] theorem boot_log : (Fs.boot sb disk).log = ⟨sb.logstart, 0, false, []⟩ := by
  simp only [Fs.boot]

theorem boot_bcache :
    (Fs.boot sb disk).bcache = List.replicate NBUF ⟨none, false, 0, fun _ => 0⟩ := by
  simp only [Fs.boot]

end Boot

/-- A kernel routine over the file system's state. -/
abbrev FsM (α : Type) : Type := Routine Panic Fs α

end HaiOS
