/-
  File:      HaiOS/Sysfile/Home.lean
  Subject:   THE FIRST PROCESS (kernel/proc.c: userinit). After boot the only reference to an inode is
             `p->cwd = namei("/")`.

  * `Ks.boot`, `homeWorld` -- the state after boot, and the world it shows;
  * `Usable` -- an image with a root and without orphans; then the state after boot is idle and calm.
-/
import HaiOS.Sysfile.Kernel

namespace HaiOS.Sysfile

open Lib

/-- After boot: `p->cwd = namei("/")` has taken the first slot. -/
def Ks.boot (sb : Superblock) (disk : Nat → Block) : Ks := ⟨(iget ROOTINO (Fs.boot sb disk)).last, []⟩

/-- The reference of the first process. -/
def rootHandle : Handle := ⟨0, ROOTINO⟩

/-- What it shows. -/
def homeWorld (sb : Superblock) (disk : Nat → Block) : World :=
  ⟨dinodes (Fs.boot sb disk), file (Fs.boot sb disk), {rootHandle}, ∅⟩

/-- **A file system that can be used**: the files are sound, directories consist of entries, the root
    is allocated, and every allocated inode has links. -/
structure Usable (sb : Superblock) (disk : Nat → Block) : Prop where
  image : Arrays.Image sb disk
  dirs : Cache.DirsOn sb disk
  rootIn : ROOTINO < sb.ninodes
  root : (dinodes (Fs.boot sb disk) ROOTINO).type ≠ 0
  linked : ∀ i, (dinodes (Fs.boot sb disk) i).type ≠ 0 → (dinodes (Fs.boot sb disk) i).nlink ≠ 0

section Boot

variable {sb : Superblock} {disk : Nat → Block}

theorem Usable.idle (h : Usable sb disk) : Idle sb (homeWorld sb disk) (Ks.boot sb disk) := by
  have hslot := igetSlot_boot sb disk ROOTINO
  have hfull : igetSlot (Fs.boot sb disk).itable ROOTINO = none → False := fun h0 => by
    rw [hslot] at h0
    cases h0
  obtain ⟨ip, s, hrun, ht, hs⟩ := (iget_sees (P := fun _ _ => False) (Cache.boot_sees h.image) h.rootIn
    hfull).sat.exists_ok
  have hip : ip = 0 := by
    have hq := (iget_runs (G := All) (F := .unlogged) (P := fun _ _ => False) (fun _ _ => trivial)
      hfull).sat.of_ok hrun
    exact Option.some.inj (hq.2.1.symm.trans hslot)
  subst hip
  have hlog : s.log = (Fs.boot sb disk).log := by
    obtain ⟨new, hlh, hnew⟩ := ht.lh
    have hnil : new = [] := List.eq_nil_iff_forall_not_mem.mpr fun b hb => hnew b hb
    rw [ht.log, hlh, hnil, List.append_nil]
  have hfs : (Ks.boot sb disk).fs = s := by
    unfold Ks.boot
    rw [hrun]
    rfl
  refine ⟨?_, rfl, ?_⟩
  · rw [hfs]
    exact hs
  · rw [hfs, hlog, boot_log]
    exact ⟨rfl, rfl⟩

theorem Usable.calm (h : Usable sb disk) : Calm sb (homeWorld sb disk) := by
  refine ⟨h.dirs, fun i ht h0 => absurd h0 (h.linked i ht), fun g hg => ?_, h.rootIn⟩
  rw [Multiset.mem_singleton.mp hg]
  exact h.root

end Boot

/-! ## A small image -/

def rootEntries : List UInt8 := (newDirent [46] ROOTINO).bytes ++ (newDirent [46, 46] ROOTINO).bytes

def rootDir : Dinode :=
  { Dinode.fresh T_DIR with nlink := 1, size := 32, checksum := adler32 rootEntries,
                            extents := Extents.one 35 1 }

/-- A small disk with an empty root. -/
def homeDisk : Nat → Block :=
  image smallSb oneBlock (oneInode rootDir) fun _ => patch (fun _ => 0) 0 rootEntries

theorem dinodes_homeDisk : dinodes (Fs.boot smallSb homeDisk) = oneInode rootDir := dinodes_one ..

theorem dirents_homeDisk : Aligned (file (Fs.boot smallSb homeDisk) ROOTINO) ∧
    dirents (file (Fs.boot smallSb homeDisk) ROOTINO) =
      [newDirent [46] ROOTINO, newDirent [46, 46] ROOTINO] := by
  decide +kernel

theorem homeDisk_root {i : Nat} (ht : (dinodes (Fs.boot smallSb homeDisk) i).type ≠ 0) : i = ROOTINO :=
  oneInode_only (d := rootDir) (by rwa [← dinodes_homeDisk])

theorem usable_homeDisk : Usable smallSb homeDisk := by
  have hroot : dinodes (Fs.boot smallSb homeDisk) ROOTINO = rootDir := by
    rw [dinodes_homeDisk]
    rfl
  have hone : ∀ i, (dinodes (Fs.boot smallSb homeDisk) i).type = T_DIR → i = ROOTINO := fun i ht =>
    homeDisk_root (by rw [ht]; decide)
  refine ⟨Arrays.image_one (by decide) rfl ⟨by decide, by decide, by decide⟩ _,
    ⟨fun i ht => ?_, fun i ht => ?_⟩, by decide, ?_, fun i ht => ?_⟩
  · rw [hone i ht]
    exact dirents_homeDisk.1
  · rw [hone i ht, dirents_homeDisk.2]
    decide
  · rw [hroot]
    decide
  · rw [homeDisk_root ht, hroot]
    decide

end HaiOS.Sysfile
