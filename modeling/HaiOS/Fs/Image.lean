/-
  File:      HaiOS/Fs/Image.lean
  Subject:   DISK IMAGES. The state after boot, consistent images, and the image with a given
             bitmap, given inodes and given data blocks.
-/
import HaiOS.Fs.Inv

namespace HaiOS

open Lib

/-! ## 1. After boot -/

section Boot

variable {sb : Superblock} {disk : Nat → Block}

@[simp] theorem view_boot (sb : Superblock) (disk : Nat → Block) : view (Fs.boot sb disk) = disk :=
  funext fun c => by
    have h := (boot_cached (fun _ => True) sb disk).clean c trivial rfl
    rwa [boot_disk] at h

theorem ready_boot (G : Nat → Prop) (sb : Superblock) (disk : Nat → Block) :
    Ready G (Fs.boot sb disk) := by
  have hc := boot_cached G sb disk
  rw [← pinOf_nil] at hc
  refine ⟨?_, ?_, ?_⟩ <;> rw [boot_log]
  · exact hc
  · exact List.nodup_nil
  · exact Nat.zero_le _

/-- **A consistent image**: the regions are in order, a bit is set exactly for the metadata blocks
    and for the blocks of files, and these are owned once. -/
structure Consistent (sb : Superblock) (disk : Nat → Block) : Prop where
  layout : Layout sb
  owned : Owned (Reserved sb) (bits (Fs.boot sb disk)) (owner (Fs.boot sb disk))

theorem boot_itable_ref (sb : Superblock) (disk : Nat → Block) (ip : Nat) :
    ((Fs.boot sb disk).itable ip).ref = 0 := by
  simp only [Fs.boot]

/-- The first inode goes to the first slot. -/
theorem igetSlot_boot (sb : Superblock) (disk : Nat → Block) (inum : Nat) :
    igetSlot (Fs.boot sb disk).itable inum = some 0 := by
  have hf : findSlot (Fs.boot sb disk).itable inum = none :=
    List.find?_eq_none.mpr fun i _ => by simp [boot_itable_ref]
  have he : emptySlot (Fs.boot sb disk).itable = some 0 := by
    unfold emptySlot
    rw [List.find?_eq_some_iff_getElem]
    exact ⟨by simp [boot_itable_ref], 0, by decide, by simp, fun j hj => by omega⟩
  rw [igetSlot, hf, he]
  rfl

theorem Consistent.boot {G : Nat → Prop} (h : Consistent sb disk) (hG : MetaIn G sb) :
    FsInv G (Fs.boot sb disk) := by
  refine ⟨⟨?_, ?_, fun c hc => ?_, ready_boot G sb disk⟩, ?_, ?_, ?_, ?_, ?_⟩
  · rw [boot_sb]
    exact h.layout
  · rw [boot_sb]
    exact hG
  · rw [boot_sb] at hc
    exact (h.owned.exact c).mpr (Or.inl (Or.inl hc))
  · rw [boot_log, boot_sb]
  · rw [boot_log]
  · rw [boot_log]
    exact fun b hb => by cases hb
  · rw [boot_sb]
    exact h.owned
  · refine ⟨fun ip hr => ?_, fun ip hr => ?_, fun ip jp hr => ?_, fun ip hr => ?_⟩ <;>
      rw [boot_itable_ref] at hr <;> exact absurd hr (Nat.lt_irrefl 0)

end Boot

/-! ## 2. Building an image -/

/-- Set the bits of `used` among the `n` from `a` on. -/
def setUsed (used : Nat → Bool) (a : Nat) : Nat → Block
  | 0 => fun _ => 0
  | n + 1 => if used (a + n) then setBit (setUsed used a n) (a + n) else setUsed used a n

theorem getBit_setUsed (used : Nat → Bool) (a n j : Nat) :
    getBit (setUsed used a n) j = (decide (a ≤ j ∧ j < a + n) && used j) := by
  induction n with
  | zero =>
    have hno : ¬ (a ≤ j ∧ j < a + 0) := by omega
    rw [decide_eq_false hno]
    simp [setUsed, getBit]
  | succ n ih =>
    have hstep : (a ≤ j ∧ j < a + (n + 1)) ↔ j = a + n ∨ (a ≤ j ∧ j < a + n) := by omega
    simp only [setUsed]
    by_cases hu : used (a + n) = true
    · rw [if_pos hu, getBit_setBit, ih]
      by_cases hj : j = a + n
      · subst hj
        simp [hu]
      · simp [hj, hstep]
    · rw [if_neg hu, ih]
      by_cases hj : j = a + n
      · subst hj
        simp [hu]
      · simp [hj, hstep]

/-- A bitmap block with the given bits, byte by byte. -/
def bitmapBlock (used : Nat → Bool) : Block := fun k => setUsed used (8 * k) 8 k

theorem getBit_bitmapBlock (used : Nat → Bool) (j : Nat) : getBit (bitmapBlock used) j = used j := by
  have h : getBit (bitmapBlock used) j = getBit (setUsed used (8 * (j / 8)) 8) j := rfl
  have hj : 8 * (j / 8) ≤ j ∧ j < 8 * (j / 8) + 8 := by omega
  rw [h, getBit_setUsed, decide_eq_true hj, Bool.true_and]

/-- A block of inodes. -/
def dinodeBlock (dins : Nat → Dinode) : Block := fun k =>
  (dins (k / DINODE_SIZE)).bytes.getD (k % DINODE_SIZE) 0

theorem getDinode_dinodeBlock (dins : Nat → Dinode) (i : Nat) :
    getDinode (dinodeBlock dins) i = dins i := by
  have hs : slice (dinodeBlock dins) (i * DINODE_SIZE) DINODE_SIZE = (dins i).bytes := by
    apply List.ext_getElem
    · rw [length_slice, Dinode.length_bytes]
    · intro k h1 h2
      rw [length_slice] at h1
      have e1 : (i * DINODE_SIZE + k) / DINODE_SIZE = i := by
        simp only [DINODE_SIZE] at *
        omega
      have e2 : (i * DINODE_SIZE + k) % DINODE_SIZE = k := by
        simp only [DINODE_SIZE] at *
        omega
      simp only [getElem_slice, dinodeBlock]
      rw [e1, e2, List.getD_eq_getElem?_getD, List.getElem?_eq_getElem h2]
      rfl
  unfold getDinode
  rw [hs, Dinode.ofBytes_bytes]

/-- **The image with the bitmap `used`, the inodes `dins` and the data blocks `data`.** -/
def image (sb : Superblock) (used : Nat → Bool) (dins : Nat → Dinode) (data : Nat → Block) :
    Nat → Block := fun c =>
  if sb.inodestart ≤ c ∧ c < sb.bmapstart then dinodeBlock fun i => dins ((c - sb.inodestart) * IPB + i)
  else if sb.bmapstart ≤ c ∧ c < sb.dataStart then
    bitmapBlock fun i => used ((c - sb.bmapstart) * BPB + i)
  else data c

section Image

variable {sb : Superblock} (hL : Layout sb) (used : Nat → Bool) (dins : Nat → Dinode)
  (data : Nat → Block)
include hL

theorem bits_image (hout : ∀ b, sb.size ≤ b → used b = true) :
    bits (Fs.boot sb (image sb used dins data)) = used := by
  funext b
  unfold bits
  rw [boot_sb]
  split
  · rename_i hb
    obtain ⟨h1, h2⟩ := bblock_bounds hL hb
    rw [view_boot, image, if_neg (by omega), if_pos ⟨h1, h2⟩, getBit_bitmapBlock]
    have he : (bblock sb b - sb.bmapstart) * BPB + b % BPB = b := by
      unfold bblock
      rw [Nat.add_sub_cancel]
      exact Nat.div_add_mod' b BPB
    rw [he]
  · rename_i hb
    exact (hout b (by omega)).symm

theorem dinodes_image (hout : ∀ i, sb.ninodes ≤ i → dins i = Dinode.zero) :
    dinodes (Fs.boot sb (image sb used dins data)) = dins := by
  funext i
  unfold dinodes
  rw [boot_sb]
  split
  · rename_i hi
    obtain ⟨h1, h2⟩ := iblock_bounds hL hi
    rw [view_boot, image, if_pos ⟨h1, h2⟩, getDinode_dinodeBlock]
    congr 1
    unfold iblock
    rw [Nat.add_sub_cancel]
    exact Nat.div_add_mod' i IPB
  · rename_i hi
    exact (hout i (by omega)).symm

/-- The image is consistent when `used` and `dins` are. -/
theorem consistent_image (hu : ∀ b, sb.size ≤ b → used b = true)
    (hd : ∀ i, sb.ninodes ≤ i → dins i = Dinode.zero)
    (ho : Owned (Reserved sb) used fun i =>
      if (dins i).type = 0 then [] else blocksOf (dins i).extents.1) :
    Consistent sb (image sb used dins data) := by
  refine ⟨hL, ?_⟩
  have hown : owner (Fs.boot sb (image sb used dins data)) = fun i =>
      if (dins i).type = 0 then [] else blocksOf (dins i).extents.1 := by
    funext i
    unfold owner
    rw [dinodes_image hL used dins data hd]
  rw [bits_image hL used dins data hu, hown]
  exact ho

end Image

/-! ## 3. A small disk -/

/-- 64 blocks: boot block, super block, 31 log blocks, one block of inodes, one of the bitmap, and
    29 data blocks from block 35 on. -/
def smallSb : Superblock := ⟨64, 29, 8, 31, 2, 33, 34⟩

theorem smallSb_layout : Layout smallSb := ⟨by decide, by decide, by decide, by decide⟩

/-- Extents with one range. -/
def Extents.one (start len : UInt32) : Extents := ⟨⟨start, len⟩ :: List.replicate 13 ⟨0, 0⟩, rfl⟩

/-- One inode, number 1. -/
def oneInode (d : Dinode) (i : Nat) : Dinode := if i = 1 then d else Dinode.zero

theorem oneInode_only {d : Dinode} {i : Nat} (ht : (oneInode d i).type ≠ 0) : i = 1 := by
  by_contra hne
  rw [oneInode, if_neg hne] at ht
  exact ht rfl

/-- The first data block is in use, beside the metadata. -/
def oneBlock (b : Nat) : Bool := decide (b < 36 ∨ 64 ≤ b)

theorem bits_one (dins : Nat → Dinode) (data : Nat → Block) :
    bits (Fs.boot smallSb (image smallSb oneBlock dins data)) = oneBlock :=
  bits_image smallSb_layout oneBlock dins data fun _ hb => decide_eq_true (Or.inr hb)

theorem dinodes_one (used : Nat → Bool) (d : Dinode) (data : Nat → Block) :
    dinodes (Fs.boot smallSb (image smallSb used (oneInode d) data)) = oneInode d :=
  dinodes_image smallSb_layout used (oneInode d) data fun i hi => by
    have h8 : 8 ≤ i := hi
    exact if_neg (by omega)

/-- A small disk on which one file has one block. -/
theorem consistent_small {f : Nat → Dinode} (hd : ∀ i, 8 ≤ i → f i = Dinode.zero)
    (ht : (f 1).type ≠ 0) (he : (f 1).extents = Extents.one 35 1)
    (h0 : ∀ i, i ≠ 1 → blocksOf (f i).extents.1 = []) (data : Nat → Block) :
    Consistent smallSb (image smallSb oneBlock f data) := by
  have hown : ∀ i, (if (f i).type = 0 then [] else blocksOf (f i).extents.1) =
      if i = 1 then [35] else [] := by
    intro i
    by_cases hi : i = 1
    · rw [if_pos hi, hi, if_neg ht, he]
      decide
    · rw [if_neg hi, h0 i hi, ite_self]
  refine consistent_image smallSb_layout _ _ data (fun b hb => ?_) hd ?_
  · exact decide_eq_true (Or.inr hb)
  · simp only [hown]
    have hres : ∀ b, Reserved smallSb b ↔ b < 35 ∨ 64 ≤ b := fun b => Iff.rfl
    refine ⟨fun i => ?_, fun i j hij b hb => ?_, fun i b hb => ?_, fun b => ?_⟩
    · split <;> simp
    · split at hb
      · rw [if_neg (by omega)]
        simp
      · cases hb
    · split at hb
      · rw [List.mem_singleton.mp hb, hres]
        omega
      · cases hb
    · rw [hres]
      constructor
      · intro hu
        have := of_decide_eq_true hu
        by_cases h35 : b = 35
        · exact Or.inr ⟨1, by simp [h35]⟩
        · exact Or.inl (by omega)
      · intro h
        refine decide_eq_true ?_
        rcases h with h | ⟨i, hi⟩
        · omega
        · split at hi
          · have := List.mem_singleton.mp hi
            omega
          · cases hi

theorem consistent_one {d : Dinode} (ht : d.type ≠ 0) (he : d.extents = Extents.one 35 1)
    (data : Nat → Block) : Consistent smallSb (image smallSb oneBlock (oneInode d) data) :=
  consistent_small (f := oneInode d) (fun _ hi => if_neg (by omega)) ht he
    (fun _ hi => by rw [oneInode, if_neg hi]; decide) data

end HaiOS
