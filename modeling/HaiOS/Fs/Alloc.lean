/-
  File:      HaiOS/Fs/Alloc.lean
  Subject:   THE BLOCK ALLOCATOR (kernel/fs.c: bzero, balloc_prefer, balloc, bfree).

  * `Layout` -- the regions of the disk, in their order;
  * `bits`, `dinodes` -- the free bitmap and the inode table on the disk, as the kernel sees
    them. Every routine above the buffer cache is specified by what it does to these two and
    to the data blocks;
  * `Took r` -- block `r` was free, its bit is set and its contents are zero.
-/
import HaiOS.Fs.Bio

namespace HaiOS

open Lib Function

/-! ## 1. The layout of the disk -/

/-- `IBLOCK(i, sb)`. -/
def iblock (sb : Superblock) (i : Nat) : Nat := i / IPB + sb.inodestart

/-- `BBLOCK(b, sb)`. -/
def bblock (sb : Superblock) (b : Nat) : Nat := b / BPB + sb.bmapstart

/-- The first data block. -/
def Superblock.dataStart (sb : Superblock) : Nat := sb.size - sb.nblocks

/-- **boot block, super block, log, inode blocks, free bit map, data blocks.** -/
structure Layout (sb : Superblock) : Prop where
  log : sb.logstart + LOGBLOCKS < sb.inodestart
  inodes : sb.inodestart + (sb.ninodes + IPB - 1) / IPB ≤ sb.bmapstart
  bmap : sb.bmapstart + (sb.size + BPB - 1) / BPB ≤ sb.dataStart
  small : sb.size < 2 ^ 31

variable {sb : Superblock}

theorem Layout.bmap_le (h : Layout sb) : sb.bmapstart ≤ sb.dataStart :=
  le_trans (Nat.le_add_right _ _) h.bmap

theorem Layout.inode_le (h : Layout sb) : sb.inodestart ≤ sb.bmapstart :=
  le_trans (Nat.le_add_right _ _) h.inodes

theorem iblock_bounds (h : Layout sb) {i : Nat} (hi : i < sb.ninodes) :
    sb.inodestart ≤ iblock sb i ∧ iblock sb i < sb.bmapstart := by
  have h1 := h.inodes
  unfold iblock
  rw [IPB_eq] at h1 ⊢
  omega

variable {b size n bi r : Nat}

theorem bblock_bounds (h : Layout sb) (hb : b < sb.size) :
    sb.bmapstart ≤ bblock sb b ∧ bblock sb b < sb.dataStart := by
  have h1 := h.bmap
  unfold bblock
  rw [BPB_eq] at h1 ⊢
  omega

/-- The free bitmap; a block outside the file system counts as used. -/
def bits (s : Fs) (b : Nat) : Bool :=
  if b < s.sb.size then getBit (view s (bblock s.sb b)) (b % BPB) else true

/-- The inode table on the disk. -/
def dinodes (s : Fs) (i : Nat) : Dinode :=
  if i < s.sb.ninodes then getDinode (view s (iblock s.sb i)) (i % IPB) else Dinode.zero

/-- `G` has all blocks before the data blocks. -/
def MetaIn (G : Nat → Prop) (sb : Superblock) : Prop := ∀ b < sb.dataStart, G b

section Congr

variable {G : Nat → Prop} {s s' : Fs}

theorem bits_congr (hsb : s'.sb = s.sb)
    (hv : ∀ b < s.sb.size, view s' (bblock s.sb b) = view s (bblock s.sb b)) :
    bits s' = bits s := by
  funext b
  unfold bits
  rw [hsb]
  split
  · rename_i hb
    rw [hv b hb]
  · rfl

theorem dinodes_congr (hsb : s'.sb = s.sb)
    (hv : ∀ i < s.sb.ninodes, view s' (iblock s.sb i) = view s (iblock s.sb i)) :
    dinodes s' = dinodes s := by
  funext i
  unfold dinodes
  rw [hsb]
  split
  · rename_i hi
    rw [hv i hi]
  · rfl

/-- Changes outside the bitmap blocks leave the bitmap. -/
theorem bits_of_view (hL : Layout s.sb) (hsb : s'.sb = s.sb)
    (hv : ∀ c, s.sb.bmapstart ≤ c → c < s.sb.dataStart → view s' c = view s c) :
    bits s' = bits s :=
  bits_congr hsb fun _ hb => hv _ (bblock_bounds hL hb).1 (bblock_bounds hL hb).2

/-- Changes outside the inode blocks leave the inodes. -/
theorem dinodes_of_view (hL : Layout s.sb) (hsb : s'.sb = s.sb)
    (hv : ∀ c, s.sb.inodestart ≤ c → c < s.sb.bmapstart → view s' c = view s c) :
    dinodes s' = dinodes s :=
  dinodes_congr hsb fun _ hi => hv _ (iblock_bounds hL hi).1 (iblock_bounds hL hi).2

theorem Touch.bits_eq {F : Frame} (h : Touch G F s s') (hL : Layout s.sb) (hG : MetaIn G s.sb)
    (hF : ∀ b, s.sb.bmapstart ≤ b → b < s.sb.dataStart → ¬ F.blocks b) : bits s' = bits s :=
  bits_of_view hL h.sb fun c h1 h2 => h.view c (hG c h2) (hF c h1 h2)

theorem Touch.dinodes_eq {F : Frame} (h : Touch G F s s') (hL : Layout s.sb) (hG : MetaIn G s.sb)
    (hF : ∀ b, s.sb.inodestart ≤ b → b < s.sb.bmapstart → ¬ F.blocks b) :
    dinodes s' = dinodes s :=
  dinodes_of_view hL h.sb fun c h1 h2 =>
    h.view c (hG c (lt_of_lt_of_le h2 hL.bmap_le)) (hF c h1 h2)

/-- A new bitmap block: the bit of block `b` is `v`, the others stay. -/
theorem bits_update (hL : Layout s.sb) (hG : MetaIn G s.sb) (hsb : s'.sb = s.sb) {b : Nat}
    (hb : b < s.sb.size) (blk : Block) {v : Bool}
    (hv : ∀ c, G c → view s' c = update (view s) (bblock s.sb b) blk c)
    (hblk : ∀ j, getBit blk j = if j = b % BPB then v else getBit (view s (bblock s.sb b)) j) :
    bits s' = update (bits s) b v := by
  funext c
  unfold bits
  rw [hsb]
  by_cases hc : c < s.sb.size
  · rw [if_pos hc, hv _ (hG _ (bblock_bounds hL hc).2)]
    by_cases hcb : c = b
    · subst hcb
      rw [update_self, update_self, hblk, if_pos rfl]
    · rw [update_of_ne hcb, if_pos hc]
      by_cases hblock : bblock s.sb c = bblock s.sb b
      · -- another bit of the same bitmap block
        have hne : c % BPB ≠ b % BPB := by
          unfold bblock at hblock
          rw [BPB_eq] at hblock ⊢
          omega
        rw [hblock, update_self, hblk, if_neg hne]
      · rw [update_of_ne hblock]
  · have hcb : c ≠ b := fun e => hc (e ▸ hb)
    rw [update_of_ne hcb, if_neg hc, if_neg hc]

/-- A new inode block: inode `i` is `d`, the others stay. -/
theorem dinodes_update (hL : Layout s.sb) (hG : MetaIn G s.sb) (hsb : s'.sb = s.sb) {i : Nat}
    (hi : i < s.sb.ninodes) {d : Dinode}
    (hv : ∀ c, G c → view s' c = update (view s) (iblock s.sb i)
      (putDinode (view s (iblock s.sb i)) (i % IPB) d) c) :
    dinodes s' = update (dinodes s) i d := by
  funext j
  unfold dinodes
  rw [hsb]
  by_cases hj : j < s.sb.ninodes
  · rw [if_pos hj, hv _ (hG _ (lt_of_lt_of_le (iblock_bounds hL hj).2 hL.bmap_le))]
    by_cases hji : j = i
    · subst hji
      rw [update_self, update_self, getDinode_putDinode]
    · rw [update_of_ne hji, if_pos hj]
      by_cases hblock : iblock s.sb j = iblock s.sb i
      · have hne : j % IPB ≠ i % IPB := by
          unfold iblock at hblock
          rw [IPB_eq] at hblock ⊢
          omega
        rw [hblock, update_self, getDinode_putDinode_ne hne]
      · rw [update_of_ne hblock]
  · have hji : j ≠ i := fun e => hj (e ▸ hi)
    rw [update_of_ne hji, if_neg hj, if_neg hj]

end Congr

/-! ## 2. The routines -/

/-- Zero a block. -/
def bzero (b : Nat) : FsM Unit := do
  let _ ← bread b
  logUpdate b fun _ => 0

/-- Prefer to allocate a specific block if it's free; otherwise return 0. -/
def ballocPrefer (b : Nat) : FsM Nat := do
  let sb ← Routine.gets (·.sb)
  if sb.size ≤ b then pure 0
  else do
    let d ← bread (bblock sb b)
    if getBit d (b % BPB) then do
      brelse (bblock sb b)
      pure 0
    else do
      logUpdate (bblock sb b) (setBit d (b % BPB))
      bzero b
      pure b

/-- The inner loop of `balloc`: the first clear bit among `n` from `bi` on. -/
def freeBit (blk : Block) : Nat → Nat → Option Nat
  | 0, _ => none
  | n + 1, bi => if getBit blk bi then freeBit blk n (bi + 1) else some bi

/-- The outer loop of `balloc` from `b` on. -/
def ballocLoop (sb : Superblock) : Nat → Nat → FsM Nat
  | 0, _ => pure 0
  | n + 1, b =>
    if b < sb.size then do
      let d ← bread (bblock sb b)
      match freeBit d (min BPB (sb.size - b)) 0 with
      | some bi => do
        logUpdate (bblock sb b) (setBit d bi)
        bzero (b + bi)
        pure (b + bi)
      | none => do
        brelse (bblock sb b)
        ballocLoop sb n (b + BPB)
    else pure 0

/-- Allocate a zeroed disk block; 0 if out of disk space. -/
def balloc : FsM Nat := do
  let sb ← Routine.gets (·.sb)
  ballocLoop sb (sb.size / BPB + 1) 0

/-- Free a disk block. -/
def bfree (b : Nat) : FsM Unit := do
  let sb ← Routine.gets (·.sb)
  let d ← bread (bblock sb b)
  if getBit d (b % BPB) then logUpdate (bblock sb b) (clearBit d (b % BPB))
  else Routine.stop .freeingFreeBlock

/-- `if(last_len > 0) nb = balloc_prefer(ip->dev, last_start + last_len);` -/
def preferNear (last : Nat × Nat) : FsM Nat :=
  if 0 < last.2 then ballocPrefer (last.1 + last.2) else pure 0

/-- `bmap`'s choice: the block after the last extent `(last_start, last_len)` if it is free, any
    block otherwise. -/
def allocNear (last : Nat × Nat) : FsM Nat := do
  let nb ← preferNear last
  if nb = 0 then balloc else pure nb

/-! ## 3. Which block is taken -/

/-- The lowest free block. -/
def lowestFree (size : Nat) (used : Nat → Bool) : Option Nat :=
  (List.range size).find? fun b => !used b

theorem lowestFree_some {used : Nat → Bool} :
    lowestFree size used = some b ↔ b < size ∧ used b = false ∧ ∀ c < b, used c = true := by
  unfold lowestFree
  rw [List.find?_range_eq_some]
  constructor
  · rintro ⟨h1, h2, h3⟩
    exact ⟨by simpa using h2, by simpa using h1, fun c hc => by simpa using h3 c hc⟩
  · rintro ⟨h1, h2, h3⟩
    exact ⟨by simpa using h2, by simpa using h1, fun c hc => by simpa using h3 c hc⟩

theorem lowestFree_none {used : Nat → Bool} :
    lowestFree size used = none ↔ ∀ b < size, used b = true := by
  unfold lowestFree
  rw [List.find?_eq_none]
  simp

/-- The block `bmap` allocates next. -/
def nextBlock (size : Nat) (used : Nat → Bool) (last : Nat × Nat) : Option Nat :=
  if 0 < last.2 ∧ used (last.1 + last.2) = false then some (last.1 + last.2)
  else lowestFree size used

theorem freeBit_some {blk : Block} (h : freeBit blk n bi = some r) :
    bi ≤ r ∧ r < bi + n ∧ getBit blk r = false ∧ ∀ j, bi ≤ j → j < r → getBit blk j = true := by
  induction n generalizing bi with
  | zero => cases h
  | succ n ih =>
    simp only [freeBit] at h
    split at h
    · rename_i hbit
      obtain ⟨h1, h2, h3, h4⟩ := ih h
      refine ⟨by omega, by omega, h3, fun j hj hjr => ?_⟩
      by_cases hjb : j = bi
      · rw [hjb]
        exact hbit
      · exact h4 j (by omega) hjr
    · rename_i hbit
      obtain rfl := Option.some.inj h
      exact ⟨le_refl _, by omega, by simpa using hbit, fun j h1 h2 => by omega⟩

theorem freeBit_none {blk : Block} (h : freeBit blk n bi = none) :
    ∀ j, bi ≤ j → j < bi + n → getBit blk j = true := by
  induction n generalizing bi with
  | zero => intro j h1 h2; omega
  | succ n ih =>
    simp only [freeBit] at h
    split at h
    · rename_i hbit
      intro j h1 h2
      by_cases hjb : j = bi
      · rw [hjb]
        exact hbit
      · exact ih h j (by omega) (by omega)
    · cases h

/-- **Block `r` was free and has been allocated**: its bit is set, its contents are zero. -/
structure Took (G : Nat → Prop) (r : Nat) (s s' : Fs) : Prop where
  lt : r < s.sb.size
  free : bits s r = false
  bits : bits s' = update (bits s) r true
  dinodes : dinodes s' = dinodes s
  zero : G r → view s' r = fun _ => 0
  itable : s'.itable = s.itable
  ready : Ready G s'

theorem Took.after {G : Nat → Prop} {s s1 s' : Fs} (h : Took G r s1 s') (ht : Touch G .nothing s s1)
    (hL : Layout s.sb) (hG : MetaIn G s.sb) : Took G r s s' := by
  have hb := ht.bits_eq hL hG fun _ _ _ hf => hf
  have hd := ht.dinodes_eq hL hG fun _ _ _ hf => hf
  have hi := ht.itable_eq fun _ hf => hf
  exact ⟨ht.sb ▸ h.lt, hb ▸ h.free, hb ▸ h.bits, hd ▸ h.dinodes, h.zero, hi ▸ h.itable, h.ready⟩

/-- What an allocation does that should take `o`. -/
def Allocs (G : Nat → Prop) (s : Fs) (o : Option Nat) (r : Nat) (s' : Fs) : Prop :=
  match o with
  | none => r = 0 ∧ Touch G .nothing s s' ∧ Ready G s'
  | some b => r = b ∧ Took G b s s'

theorem Allocs.after {G : Nat → Prop} {o : Option Nat} {s s1 s' : Fs} (h : Allocs G s1 o r s')
    (ht : Touch G .nothing s s1) (hL : Layout s.sb) (hG : MetaIn G s.sb) : Allocs G s o r s' := by
  cases o with
  | none => exact ⟨h.1, ht.trans h.2.1, h.2.2⟩
  | some b => exact ⟨h.1, h.2.after ht hL hG⟩

/-- The bitmap block of `r` and `r` itself. -/
def Frame.took (sb : Superblock) (r : Nat) : Frame := ⟨fun c => c = bblock sb r ∨ c = r, fun _ => False, False⟩

theorem Frame.took_le {F : Frame} (h1 : F.blocks (bblock sb r)) (h2 : F.blocks r) :
    (Frame.took sb r).Le F :=
  ⟨fun c hc => by rcases hc with rfl | rfl <;> assumption, fun _ h => h.elim, fun h => h.elim⟩

section Rules

variable {G : Nat → Prop} {F : Frame} {P : Panic → Fs → Prop} {s : Fs} {b : Nat}
  (hP : ∀ p s, Exhausted p s → P p s) (hL : Layout s.sb) (hG : MetaIn G s.sb)
include hP hL hG

/-- Mark a free data block in its bitmap block, which is held, and zero it. -/
theorem take_runs {s1 : Fs} {d : Block} {bi : Nat} (hb : b < s.sb.size) (hbi : bi = b % BPB)
    (hdata : s.sb.dataStart ≤ b) (hfree : bits s b = false) (ht : Touch G .nothing s s1)
    (hh : Holding G (bblock s.sb b) s1) (hd : d = view s (bblock s.sb b)) :
    ((do
      logUpdate (bblock s.sb b) (setBit d bi)
      bzero b
      pure b : FsM Nat) s1).Runs (Touch G (.took s.sb b)) P s1 fun r s' => r = b ∧ Took G b s s' := by
  subst hbi hd
  have hsb1 : s1.sb = s.sb := ht.sb
  have hbb := bblock_bounds hL hb
  refine touch_bind (Frame.block_le (Or.inl rfl)) (logUpdate_runs hP hh) fun _ s2 ht2 hq2 => ?_
  obtain ⟨hv2, -, hr2⟩ := hq2
  refine touch_bind (Frame.block_le (Or.inr rfl)) (poke_runs hP hr2 fun _ => fun _ => 0)
    fun _ s3 ht3 hq3 => ?_
  obtain ⟨hv3, -, hr3⟩ := hq3
  refine touch_pure ⟨rfl, hb, hfree, ?_, ?_, ?_, ?_, hr3⟩
  · -- the bitmap after the first write; the second one is to a data block
    have e2 : bits s2 = update (bits s) b true := by
      refine bits_update hL hG (ht2.sb.trans hsb1) hb (setBit (view s (bblock s.sb b)) (b % BPB))
        (fun c hc => ?_) fun j => ?_
      · rw [hv2, ht.update_view hc]
      · rw [getBit_setBit]
        by_cases hj : j = b % BPB <;> simp [hj]
    rw [← e2]
    have hL2 : Layout s2.sb := by rw [ht2.sb, hsb1]; exact hL
    refine ht3.bits_eq hL2 (by rw [ht2.sb, hsb1]; exact hG) fun c _ hc e => ?_
    rw [ht2.sb, hsb1] at hc
    have e' : c = b := e
    omega
  · have hle := hL.bmap_le
    have h12 := (ht.mono (Frame.nothing_le (.took s.sb b))).trans
      ((ht2.mono (Frame.block_le (Or.inl rfl))).trans (ht3.mono (Frame.block_le (Or.inr rfl))))
    refine h12.dinodes_eq hL hG fun c _ hc e => ?_
    rcases e with e | e <;> omega
  · intro hGb
    rw [hv3 b hGb, update_self]
  · rw [ht3.itable_eq fun _ hf => hf, ht2.itable_eq fun _ hf => hf, ht.itable_eq fun _ hf => hf]

variable (hmeta : ∀ c < s.sb.dataStart, bits s c = true)
include hmeta

omit hP hL hG in
theorem data_of_free (hfree : bits s b = false) : s.sb.dataStart ≤ b := by
  by_contra hlt
  rw [hmeta b (by omega)] at hfree
  cases hfree

/-- **`balloc_prefer`** takes block `b` if and only if it is free. -/
theorem ballocPrefer_runs (h : Ready G s)
    (hF : bits s b = false → F.blocks (bblock s.sb b) ∧ F.blocks b) :
    (ballocPrefer b s).Runs (Touch G F) P s fun r s' =>
      (r = 0 ∧ bits s b = true ∧ Touch G .nothing s s' ∧ Ready G s') ∨
      (r = b ∧ Took G b s s') := by
  unfold ballocPrefer
  rw [Routine.gets_bind]
  refine runs_ite (fun hge => ?_) fun hlt => ?_
  · exact touch_pure (Or.inl ⟨rfl, by simp [bits, hge], Touch.refl s, h⟩)
  have hlt' : b < s.sb.size := by omega
  refine touch_bind (Frame.nothing_le F) (bread_ready (starved_of hP) h) fun d s1 ht hq => ?_
  obtain ⟨rfl, -, hh⟩ := hq
  have hbit : bits s b = getBit (view s (bblock s.sb b)) (b % BPB) := if_pos hlt'
  refine runs_ite (fun hset => ?_) fun hclear => ?_
  · refine touch_bind (Frame.nothing_le F) (brelse_runs hh) fun _ s2 ht2 hq2 => ?_
    exact touch_pure (Or.inl ⟨rfl, hbit.trans hset, ht.trans ht2, hq2.2⟩)
  · have hfree : bits s b = false := by rw [hbit]; simpa using hclear
    obtain ⟨hF1, hF2⟩ := hF hfree
    refine ((take_runs hP hL hG hlt' rfl (data_of_free hmeta hfree) hfree ht hh
      rfl).imp fun r s' _ hq => Or.inr hq).mono (fun s' ht' => ht'.mono (Frame.took_le hF1 hF2))
      fun _ _ hp => hp

omit hL hG hmeta in
/-- The loop of `balloc`, when the blocks before `b` are in use. -/
theorem ballocLoop_runs {sb : Superblock} {n : Nat} (hsb : s.sb = sb) (hL : Layout sb)
    (hG : MetaIn G sb) (hmeta : ∀ c < sb.dataStart, bits s c = true) (h : Ready G s)
    (hb : b % BPB = 0) (hn : sb.size < b + n * BPB) (hused : ∀ c < b, bits s c = true)
    (hF : ∀ r, lowestFree sb.size (bits s) = some r → F.blocks (bblock sb r) ∧ F.blocks r) :
    (ballocLoop sb n b s).Runs (Touch G F) P s (Allocs G s (lowestFree sb.size (bits s))) := by
  -- past the last block everything is in use
  have hend : sb.size ≤ b → lowestFree sb.size (bits s) = none := fun hle =>
    lowestFree_none.mpr fun c hc => hused c (by omega)
  induction n generalizing b s with
  | zero =>
    rw [hend (by omega)]
    exact touch_pure ⟨rfl, Touch.refl s, h⟩
  | succ n ih =>
    subst hsb
    simp only [ballocLoop]
    refine runs_ite (fun hlt => ?_) fun hge => ?_
    · refine touch_bind (Frame.nothing_le F) (bread_ready (starved_of hP) h) fun d s1 ht hq => ?_
      obtain ⟨rfl, -, hh⟩ := hq
      -- the bits of this bitmap block
      have hblock : ∀ j < BPB, bblock s.sb (b + j) = bblock s.sb b ∧ (b + j) % BPB = j := by
        intro j hj
        unfold bblock
        rw [BPB_eq] at hb hj ⊢
        omega
      have hbit : ∀ j < BPB, b + j < s.sb.size →
          bits s (b + j) = getBit (view s (bblock s.sb b)) j := by
        intro j hj hlt'
        unfold bits
        rw [if_pos hlt', (hblock j hj).1, (hblock j hj).2]
      cases hfb : freeBit (view s (bblock s.sb b)) (min BPB (s.sb.size - b)) 0 with
      | some bi =>
        obtain ⟨-, hbn, hclear, hlow⟩ := freeBit_some hfb
        have hbi1 : bi < BPB := by omega
        have hbi2 : b + bi < s.sb.size := by omega
        have hfree : bits s (b + bi) = false := (hbit bi hbi1 hbi2).trans hclear
        have hlow' : ∀ c < b + bi, bits s c = true := by
          intro c hc
          by_cases hcb : c < b
          · exact hused c hcb
          · obtain ⟨j, rfl⟩ := Nat.exists_eq_add_of_le (Nat.le_of_not_lt hcb)
            rw [hbit j (by omega) (by omega)]
            exact hlow j (by omega) (by omega)
        have hlf := lowestFree_some.mpr ⟨hbi2, hfree, hlow'⟩
        obtain ⟨hF1, hF2⟩ := hF _ hlf
        rw [hlf, ← (hblock bi hbi1).1]
        rw [← (hblock bi hbi1).1] at hh
        exact (take_runs hP hL hG hbi2 (hblock bi hbi1).2.symm
          (data_of_free hmeta hfree) hfree ht hh rfl).mono
          (fun s' ht' => ht'.mono (Frame.took_le hF1 hF2)) fun _ _ hp => hp
      | none =>
        have hall := freeBit_none hfb
        refine touch_bind (Frame.nothing_le F) (brelse_runs hh) fun _ s2 ht2 hq2 => ?_
        have ht' := ht.trans ht2
        have hbits : bits s2 = bits s := ht'.bits_eq hL hG fun _ _ _ hf => hf
        have hused' : ∀ c < b + BPB, bits s2 c = true := by
          intro c hc
          rw [hbits]
          by_cases hcb : c < b
          · exact hused c hcb
          · obtain ⟨j, rfl⟩ := Nat.exists_eq_add_of_le (Nat.le_of_not_lt hcb)
            by_cases hlt' : b + j < s.sb.size
            · rw [hbit j (by omega) hlt']
              exact hall j (by omega) (by omega)
            · simp [bits, hlt']
        refine (ih (b := b + BPB) ht'.sb (by rw [hbits]; exact hmeta) hq2.2
          (by rw [BPB_eq] at hb ⊢; omega) (by rw [BPB_eq] at hn ⊢; omega) hused'
          (by rw [hbits]; exact hF) (fun hle => lowestFree_none.mpr fun c hc =>
            hused' c (by omega))).imp fun r s' _ hq => ?_
        rw [hbits] at hq
        exact hq.after ht' hL hG
    · rw [hend (by omega)]
      exact touch_pure ⟨rfl, Touch.refl s, h⟩

/-- **`balloc`** takes the lowest free block. -/
theorem balloc_runs (h : Ready G s)
    (hF : ∀ r, lowestFree s.sb.size (bits s) = some r → F.blocks (bblock s.sb r) ∧ F.blocks r) :
    (balloc s).Runs (Touch G F) P s (Allocs G s (lowestFree s.sb.size (bits s))) := by
  unfold balloc
  rw [Routine.gets_bind]
  refine ballocLoop_runs hP rfl hL hG hmeta h rfl ?_ (fun c hc => absurd hc (by omega)) hF
  rw [BPB_eq]
  omega

omit hP hG in
theorem ne_zero_of_free (hfree : bits s b = false) : b ≠ 0 := by
  have h1 := data_of_free hmeta hfree
  have h2 := hL.log
  have h3 := hL.inode_le
  have h4 := hL.bmap_le
  omega

/-- **The block `bmap` allocates.** -/
theorem allocNear_runs {last : Nat × Nat} (h : Ready G s)
    (hF : ∀ r, nextBlock s.sb.size (bits s) last = some r →
      F.blocks (bblock s.sb r) ∧ F.blocks r) :
    (allocNear last s).Runs (Touch G F) P s
      (Allocs G s (nextBlock s.sb.size (bits s) last)) := by
  unfold allocNear
  by_cases hnear : 0 < last.2 ∧ bits s (last.1 + last.2) = false
  · -- the block after the last extent is free
    have hnext : nextBlock s.sb.size (bits s) last = some (last.1 + last.2) := if_pos hnear
    rw [hnext]
    have hpre : preferNear last = ballocPrefer (last.1 + last.2) := if_pos hnear.1
    rw [hpre]
    refine Outcome.Runs.bind Touch.trans (ballocPrefer_runs hP hL hG hmeta h
      fun _ => hF _ hnext) fun r s1 ht1 hq => ?_
    rcases hq with ⟨-, hused, -⟩ | ⟨rfl, hT⟩
    · rw [hnear.2] at hused
      cases hused
    · exact runs_ite (fun h0 => absurd h0 (ne_zero_of_free hL hmeta hnear.2))
        fun _ => touch_pure ⟨rfl, hT⟩
  · have hnext : nextBlock s.sb.size (bits s) last = lowestFree s.sb.size (bits s) := if_neg hnear
    rw [hnext] at hF ⊢
    -- `balloc_prefer` is not called, or does nothing
    have hquiet : (preferNear last s).Runs (Touch G .nothing) P s fun r s' =>
        r = 0 ∧ Ready G s' := by
      refine runs_ite (fun hpos => ?_) fun _ => touch_pure ⟨rfl, h⟩
      have hset : bits s (last.1 + last.2) = true := by
        by_contra hc
        exact hnear ⟨hpos, by simpa using hc⟩
      refine (ballocPrefer_runs hP hL hG hmeta h fun hf => ?_).imp fun r s' _ hq => ?_
      · rw [hset] at hf
        cases hf
      · rcases hq with ⟨h0, -, -, hr⟩ | ⟨-, hT⟩
        · exact ⟨h0, hr⟩
        · rw [hT.free] at hset
          cases hset
    refine touch_bind (Frame.nothing_le F) hquiet fun r s1 ht1 hq => ?_
    obtain ⟨rfl, hr1⟩ := hq
    have hb1 : bits s1 = bits s := ht1.bits_eq hL hG fun _ _ _ hf => hf
    refine runs_ite (fun _ => ?_) fun h0 => absurd rfl h0
    have hrun := balloc_runs (F := F) hP (s := s1) (by rw [ht1.sb]; exact hL)
      (by rw [ht1.sb]; exact hG) (by rw [ht1.sb, hb1]; exact hmeta) hr1
      (by rw [ht1.sb, hb1]; exact hF)
    rw [ht1.sb, hb1] at hrun
    exact hrun.imp fun r s' _ hq => hq.after ht1 hL hG

omit hmeta in
/-- **`bfree`** of a block in use clears its bit; it panics on a free one. -/
theorem bfree_runs (h : Ready G s) (hb : b < s.sb.size)
    (hfree : bits s b = false → ∀ s', P .freeingFreeBlock s') :
    (bfree b s).Runs (Touch G (.block (bblock s.sb b))) P s fun _ s' =>
      bits s' = update (bits s) b false ∧ Ready G s' := by
  unfold bfree
  rw [Routine.gets_bind]
  refine touch_bind (Frame.nothing_le _) (bread_ready (starved_of hP) h) fun d s1 ht hq => ?_
  obtain ⟨rfl, -, hh⟩ := hq
  have hbit : bits s b = getBit (view s (bblock s.sb b)) (b % BPB) := if_pos hb
  refine runs_ite (fun hset => ?_) fun hclear => ?_
  · refine (logUpdate_runs hP hh).imp fun _ s2 ht2 hq2 => ⟨?_, hq2.2.2⟩
    refine bits_update hL hG (ht2.sb.trans ht.sb) hb
      (clearBit (view s (bblock s.sb b)) (b % BPB)) (fun c hc => ?_) fun j => ?_
    · rw [hq2.1, ht.update_view hc]
    · rw [getBit_clearBit]
      by_cases hj : j = b % BPB <;> simp [hj]
  · have hf : bits s b = false := by rw [hbit]; simpa using hclear
    exact runs_stop Touch.refl (hfree hf s1)

end Rules

end HaiOS
