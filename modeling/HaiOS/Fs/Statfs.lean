/-
  File:      HaiOS/Fs/Statfs.lean
  Subject:   WHAT fs_statfs REPORTS AS FREE, against what the allocators give out (kernel/fs.c:
             fs_statfs, balloc, balloc_prefer, bfree, ialloc).

  Here the loops have the counters of the source, for any superblock. `fs_statfs` counts in `uint`:
  past 2^32 its counter is 0 again and the loop never ends. `balloc` and `ialloc` count in `int` and
  compare with a `uint`: from 2^31 on the counter is negative, and so is the quotient in `BBLOCK` and
  `IBLOCK`, so that they look at other blocks than `fs_statfs`. The blocks are those the buffer cache
  shows.

  * `strides`, `Draws` -- such a loop, and consecutive calls of an allocator, with their rules;
  * `accounts` -- the free blocks reported are those `balloc` gives out, one by one, when the bitmap
    has itself and block 0 marked as used; `accounts_not` -- when it has not, and above 2^31 blocks;
  * `inodesAccount_iff` -- the free inodes reported are those `ialloc` gives out only if inode 0 is
    not free: the report counts it, `ialloc` begins at 1 (`one_too_many`);
  * `balloc_device`, `ialloc_device` -- the routines of Fs/Alloc and Fs/Inode, on the cache and the
    log, take the same blocks and inodes.
-/
import HaiOS.Fs.Inode
import HaiOS.Fs.Image
import Mathlib.Data.UInt

namespace HaiOS.Statfs

open Lib Function

/-! ## 1. Loops in strides -/

section Strides

variable {σ : Type} {limit step : Nat} {body : Nat → σ → σ} {f : σ → Nat → σ}

/-- `for(b = ..; b < limit; b += step)`, where `n` values of `b` are left before the counter is at its
    end. -/
def strides (limit step : Nat) (body : Nat → σ → σ) : Nat → Nat → σ → Option σ
  | 0, _, _ => none
  | n + 1, b, x =>
    if b < limit then strides limit step body n (b + step) (body b x) else some x

/-- **The loop does one round for each number below the limit**, if each stride does and the counter
    gets past the limit. -/
theorem strides_eq (hbody : ∀ b x, b % step = 0 →
      body b x = (List.range' b (min step (limit - b))).foldl f x)
    (n b : Nat) (x : σ) (hb : b % step = 0) (hn : limit ≤ b + n * step) :
    strides limit step body (n + 1) b x = some ((List.range' b (limit - b)).foldl f x) := by
  induction n generalizing b x with
  | zero =>
    rw [strides, if_neg (by omega), Nat.sub_eq_zero_of_le (by omega)]
    rfl
  | succ n ih =>
    rw [strides]
    split
    · rw [ih _ _ (by rw [Nat.add_mod_right]; exact hb) (by rw [Nat.succ_mul] at hn; omega),
        hbody b x hb, ← List.foldl_append]
      by_cases hlast : step ≤ limit - b
      · rw [Nat.min_eq_left hlast, show limit - b = step + (limit - (b + step)) by omega,
          ← List.range'_append, Nat.one_mul]
      · rw [Nat.min_eq_right (by omega), Nat.sub_eq_zero_of_le (show limit ≤ b + step by omega)]
        rw [List.range'_zero, List.append_nil]
    · rw [Nat.sub_eq_zero_of_le (by omega)]
      rfl

/-- The counter does not get there. -/
theorem strides_none (n b : Nat) (x : σ) (hn : b + n * step < limit) :
    strides limit step body (n + 1) b x = none := by
  induction n generalizing b x with
  | zero =>
    rw [strides, if_pos (by omega)]
    rfl
  | succ n ih =>
    rw [Nat.succ_mul] at hn
    rw [strides, if_pos (by omega), ih _ _ (by omega)]

end Strides

/-- Counting is a loop. -/
theorem foldl_count (p : Nat → Bool) (l : List Nat) (n : Nat) :
    l.foldl (fun n i => if p i then n + 1 else n) n = n + (l.filter p).length := by
  induction l generalizing n with
  | nil => rfl
  | cons i l ih =>
    rw [List.foldl_cons, ih, List.filter_cons]
    split
    · rw [List.length_cons]
      omega
    · rfl

/-! ## 2. Consecutive calls -/

section Draws

variable {D F : Type} {alloc : D → Except F (Nat × D)} {d d' : D} {bs : List Nat}

/-- The calls from `d` on return `bs`, all of them successfully, and leave `d'`. -/
inductive Draws (alloc : D → Except F (Nat × D)) : D → List Nat → D → Prop where
  | done {d : D} : Draws alloc d [] d
  | call {d d₁ d' : D} {b : Nat} {bs : List Nat} (h : alloc d = .ok (b, d₁)) (hb : b ≠ 0)
      (hrest : Draws alloc d₁ bs d') : Draws alloc d (b :: bs) d'

variable {free : D → List Nat}

/-- An allocator that gives out the first free item can be called until nothing is free. -/
theorem draws_all {I : D → Prop} (hstep : ∀ d b l, I d → free d = b :: l →
      ∃ d', alloc d = .ok (b, d') ∧ b ≠ 0 ∧ I d' ∧ free d' = l) (hI : I d) :
    ∃ d', Draws alloc d (free d) d' ∧ I d' ∧ free d' = [] := by
  generalize hl : free d = l
  induction l generalizing d with
  | nil => exact ⟨d, .done, hI, hl⟩
  | cons b l ih =>
    obtain ⟨d₁, hcall, hb, hI₁, hfree⟩ := hstep d b l hI hl
    obtain ⟨d', hdraws, hI', hend⟩ := ih hI₁ hfree
    exact ⟨d', .call hcall hb hdraws, hI', hend⟩

/-- What was given out was free, in this order. -/
theorem Draws.free_eq (h : Draws alloc d bs d') (free : D → List Nat)
    (hstep : ∀ d b d', alloc d = .ok (b, d') → b ≠ 0 → free d = b :: free d') :
    free d = bs ++ free d' := by
  induction h with
  | done => rfl
  | call hcall hb _ ih => rw [hstep _ _ _ hcall hb, ih, List.cons_append]

end Draws

/-! ## 3. The functions -/

/-- The superblock, as far as they read it, the blocks, and the inodes in memory. -/
structure Device where
  size : UInt32
  ninodes : UInt32
  inodestart : UInt32
  bmapstart : UInt32
  block : UInt32 → Block
  itable : Nat → Inode

inductive Fault where
  /-- the counter is 0 again, and nothing has changed -/
  | endless
  /-- "freeing free block" -/
  | freeingFreeBlock
  /-- "iget: no inodes" -/
  | igetNoInodes

namespace Device

/-- `BBLOCK(b, sb)`. -/
def bblock (d : Device) (b : Nat) : UInt32 := UInt32.ofNat (b / BPB) + d.bmapstart

/-- `IBLOCK(i, sb)`. -/
def iblock (d : Device) (i : Nat) : UInt32 := UInt32.ofNat (i / IPB) + d.inodestart

/-- `BBLOCK(b, sb)` where `b` is an `int`, as is `BPB`. -/
def bblockInt (d : Device) (b : Nat) : UInt32 :=
  (Int32.ofNat b / Int32.ofNat BPB).toUInt32 + d.bmapstart

/-- `IBLOCK(i, sb)` where `i` is an `int`; `IPB` is a `size_t`. -/
def iblockInt (d : Device) (i : Nat) : UInt32 :=
  ((Int32.ofNat i).toInt64.toUInt64 / UInt64.ofNat IPB).toUInt32 + d.inodestart

/-- A new content of a block. -/
def set (d : Device) (b : UInt32) (blk : Block) : Device :=
  { d with block := update d.block b blk }

/-- The bit of block `b` in the bitmap. -/
def bit (d : Device) (b : Nat) : Bool := getBit (d.block (d.bblock b)) (b % BPB)

/-- The type of inode `i` in the inode table. -/
def dinodeType (d : Device) (i : Nat) : Int16 := (getDinode (d.block (d.iblock i)) (i % IPB)).type

end Device

/-- The fields of `struct hai_statfs` that count. -/
structure Report where
  sizeBlocks : Nat
  freeBlocks : Nat
  usedBlocks : Nat
  inodeCount : Nat
  freeInodes : Nat
  usedInodes : Nat

/-- The inner loop over the bits of a bitmap block: `n` of them from `bi` on. -/
def clearBits (blk : Block) : Nat → Nat → Nat → Nat
  | 0, _, freeb => freeb
  | n + 1, bi, freeb => clearBits blk n (bi + 1) (if getBit blk bi then freeb else freeb + 1)

/-- The inner loop over the inodes of an inode block. -/
def countTypes (blk : Block) : Nat → Nat → Nat × Nat → Nat × Nat
  | 0, _, x => x
  | n + 1, ii, (freei, usedi) =>
    countTypes blk n (ii + 1)
      (if (getDinode blk ii).type = 0 then (freei + 1, usedi) else (freei, usedi + 1))

/-- `fs_statfs`; `none` if one of its loops never ends. -/
def fsStatfs (d : Device) : Option Report := do
  let size := d.size.toNat
  let ninodes := d.ninodes.toNat
  let freeb ← strides size BPB (fun b => clearBits (d.block (d.bblock b)) (min BPB (size - b)) 0)
    (2 ^ 32 / BPB) 0 0
  let (freei, usedi) ← strides ninodes IPB
    (fun inum => countTypes (d.block (d.iblock inum)) (min IPB (ninodes - inum)) 0)
    (2 ^ 32 / IPB) 0 (0, 0)
  pure ⟨size, freeb, size - freeb, ninodes, freei, usedi⟩

/-- Set the bit of block `b`, in the block `bm` of the bitmap, and zero it. -/
def Device.takeAt (d : Device) (bm : UInt32) (b : Nat) : Device :=
  (d.set bm (setBit (d.block bm) (b % BPB))).set (UInt32.ofNat b) fun _ => 0

def Device.take (d : Device) (b : Nat) : Device := d.takeAt (d.bblock b) b

/-- `balloc_prefer`. -/
def ballocPrefer (b : UInt32) (d : Device) : Except Fault (Nat × Device) :=
  if d.size ≤ b then .ok (0, d)
  else if d.bit b.toNat then .ok (0, d)
  else .ok (b.toNat, d.take b.toNat)

/-- The outer loop of `balloc` from `b` on, with `n` values left before the counter is 0 again. -/
def ballocLoop (d : Device) : Nat → Nat → Except Fault (Nat × Device)
  | 0, _ => .error .endless
  | n + 1, b =>
    if b < d.size.toNat then
      match freeBit (d.block (d.bblockInt b)) (min BPB (d.size.toNat - b)) 0 with
      | some bi => .ok (b + bi, d.takeAt (d.bblockInt b) (b + bi))
      | none => ballocLoop d n (b + BPB)
    else .ok (0, d)

/-- `balloc`. -/
def balloc (d : Device) : Except Fault (Nat × Device) := ballocLoop d (2 ^ 32 / BPB) 0

/-- `bfree`. -/
def bfree (b : UInt32) (d : Device) : Except Fault Device :=
  let blk := d.block (d.bblock b.toNat)
  if getBit blk (b.toNat % BPB) then .ok (d.set (d.bblock b.toNat) (clearBit blk (b.toNat % BPB)))
  else .error .freeingFreeBlock

/-- The type that `ialloc` finds for inode `inum`. -/
def Device.seen (d : Device) (inum : Nat) : Int16 :=
  (getDinode (d.block (d.iblockInt inum)) (inum % IPB)).type

/-- Inode `inum` is allocated, in the block `b` of the table. -/
def Device.markAt (d : Device) (b : UInt32) (inum : Nat) (type : Int16) : Device :=
  d.set b (putDinode (d.block b) (inum % IPB) (Dinode.fresh type))

/-- `iget`. -/
def iget (inum : Nat) (d : Device) : Except Fault Device :=
  match igetSlot d.itable inum with
  | some ip => .ok { d with itable := update d.itable ip ((d.itable ip).got inum) }
  | none => .error .igetNoInodes

/-- The loop of `ialloc` over `n` inodes from `inum` on: the number of the inode, or 0. -/
def iallocLoop (type : Int16) (d : Device) : Nat → Nat → Except Fault (Nat × Device)
  | 0, _ => .ok (0, d)
  | n + 1, inum =>
    if d.seen inum = 0 then do
      let d ← iget inum (d.markAt (d.iblockInt inum) inum type)
      .ok (inum, d)
    else iallocLoop type d n (inum + 1)

/-- `ialloc`. -/
def ialloc (type : Int16) (d : Device) : Except Fault (Nat × Device) :=
  iallocLoop type d (d.ninodes.toNat - 1) 1

/-! ## 4. The report -/

section Report

variable {d : Device}

/-- The free blocks. -/
def freeBlocks (d : Device) : List Nat := (List.range d.size.toNat).filter fun b => !d.bit b

/-- The free inodes from `a` on. -/
def freeInodes (d : Device) (a : Nat) : List Nat :=
  (List.range' a (d.ninodes.toNat - a)).filter fun i => d.dinodeType i == 0

theorem clearBits_eq (blk : Block) (n bi freeb : Nat) : clearBits blk n bi freeb =
    (List.range' bi n).foldl (fun n i => if !getBit blk i then n + 1 else n) freeb := by
  induction n generalizing bi freeb with
  | zero => rfl
  | succ n ih =>
    rw [clearBits, ih, List.range'_succ, List.foldl_cons]
    cases getBit blk bi <;> rfl

theorem countTypes_eq (blk : Block) (n ii : Nat) (x : Nat × Nat) : countTypes blk n ii x =
    (List.range' ii n).foldl (fun x i =>
      if (getDinode blk i).type = 0 then (x.1 + 1, x.2) else (x.1, x.2 + 1)) x := by
  induction n generalizing ii x with
  | zero => rfl
  | succ n ih =>
    obtain ⟨freei, usedi⟩ := x
    rw [countTypes, ih, List.range'_succ, List.foldl_cons]

/-- The counters of free and used items. -/
theorem foldl_split (p : Nat → Prop) [DecidablePred p] (l : List Nat) (x : Nat × Nat) :
    l.foldl (fun x i => if p i then (x.1 + 1, x.2) else (x.1, x.2 + 1)) x =
      (x.1 + (l.filter (p ·)).length, x.2 + (l.length - (l.filter (p ·)).length)) := by
  induction l generalizing x with
  | nil => rfl
  | cons i l ih =>
    have hle := List.length_filter_le (p ·) l
    rw [List.foldl_cons, ih, List.filter_cons]
    by_cases hp : p i
    · simp only [hp, decide_true, if_true, List.length_cons]
      refine Prod.ext (by dsimp only; omega) (by dsimp only; omega)
    · simp only [hp, decide_false, Bool.false_eq_true, if_false, List.length_cons]
      refine Prod.ext (by dsimp only) (by dsimp only; omega)

theorem foldl_shift {σ : Type} (f : σ → Nat → σ) (b n : Nat) (x : σ) :
    (List.range' b n).foldl f x = (List.range' 0 n).foldl (fun x i => f x (b + i)) x := by
  rw [show List.range' b n = (List.range' 0 n).map (b + ·) by
    rw [List.map_add_range', Nat.add_zero], List.foldl_map]

/-- The blocks before a stride fill whole bitmap blocks. -/
theorem bit_stride {b i : Nat} (hb : b % BPB = 0) (hi : i < BPB) :
    d.bit (b + i) = getBit (d.block (d.bblock b)) i := by
  rw [Device.bit, Device.bblock, Device.bblock]
  rw [BPB_eq] at hb hi ⊢
  rw [show (b + i) / 8192 = b / 8192 by omega, show (b + i) % 8192 = i by omega]

theorem dinodeType_stride {b i : Nat} (hb : b % IPB = 0) (hi : i < IPB) :
    d.dinodeType (b + i) = (getDinode (d.block (d.iblock b)) i).type := by
  rw [Device.dinodeType, Device.iblock, Device.iblock]
  rw [IPB_eq] at hb hi ⊢
  rw [show (b + i) / 8 = b / 8 by omega, show (b + i) % 8 = i by omega]

/-- **The report**, when its loops end. -/
theorem fsStatfs_eq (hsize : d.size.toNat ≤ 2 ^ 32 - BPB) (hn : d.ninodes.toNat ≤ 2 ^ 32 - IPB) :
    fsStatfs d = some ⟨d.size.toNat, (freeBlocks d).length,
      d.size.toNat - (freeBlocks d).length, d.ninodes.toNat, (freeInodes d 0).length,
      d.ninodes.toNat - (freeInodes d 0).length⟩ := by
  have hblocks : strides d.size.toNat BPB
      (fun b => clearBits (d.block (d.bblock b)) (min BPB (d.size.toNat - b)) 0)
      (2 ^ 32 / BPB) 0 0 = some (freeBlocks d).length := by
    rw [show 2 ^ 32 / BPB = 2 ^ 32 / BPB - 1 + 1 from rfl,
      strides_eq (f := fun n i => if !d.bit i then n + 1 else n) ?_ _ _ _ rfl, Nat.sub_zero,
      ← List.range_eq_range', foldl_count, Nat.zero_add, freeBlocks]
    · rw [BPB_eq] at hsize ⊢
      omega
    · intro b x hb
      rw [clearBits_eq, foldl_shift _ b]
      refine List.foldl_ext _ _ _ fun n i hi => ?_
      rw [List.mem_range'_1] at hi
      rw [bit_stride hb (by omega)]
  have hinodes : strides d.ninodes.toNat IPB
      (fun inum => countTypes (d.block (d.iblock inum)) (min IPB (d.ninodes.toNat - inum)) 0)
      (2 ^ 32 / IPB) 0 (0, 0) = some ((freeInodes d 0).length,
        d.ninodes.toNat - (freeInodes d 0).length) := by
    rw [show 2 ^ 32 / IPB = 2 ^ 32 / IPB - 1 + 1 from rfl, strides_eq (f := fun x i =>
        if d.dinodeType i = 0 then (x.1 + 1, x.2) else (x.1, x.2 + 1)) ?_ _ _ _ rfl,
      foldl_split, Nat.zero_add, Nat.zero_add, List.length_range']
    · rfl
    · rw [IPB_eq] at hn ⊢
      omega
    · intro b x hb
      rw [countTypes_eq, foldl_shift _ b]
      refine List.foldl_ext _ _ _ fun x i hi => ?_
      rw [List.mem_range'_1] at hi
      rw [dinodeType_stride hb (by omega)]
  rw [fsStatfs]
  simp only [hblocks, hinodes, Option.bind_eq_bind, Option.bind_some, Option.pure_def]

/-- A scan never ends. -/
theorem fsStatfs_none (h : 2 ^ 32 - BPB < d.size.toNat ∨ 2 ^ 32 - IPB < d.ninodes.toNat) :
    fsStatfs d = none := by
  have hnone {σ : Type} {limit step : Nat} {body : Nat → σ → σ} (x : σ) (hs : 2 ^ 32 / step ≠ 0)
      (hlt : (2 ^ 32 / step - 1) * step < limit) :
      strides limit step body (2 ^ 32 / step) 0 x = none := by
    rw [← Nat.succ_pred_eq_of_ne_zero hs]
    exact strides_none _ 0 x (by rw [Nat.zero_add]; exact hlt)
  rw [fsStatfs]
  by_cases hb : 2 ^ 32 - BPB < d.size.toNat
  · rw [hnone 0 (by decide) (by rw [BPB_eq] at *; omega)]
    rfl
  · dsimp only
    rw [hnone (0, 0) (by decide) (by rw [IPB_eq] at *; omega)]
    generalize strides d.size.toNat BPB _ _ _ _ = o
    cases o <;> rfl

end Report

/-! ## 5. The block allocator -/

section Blocks

variable {d d' : Device} {b c : Nat}

theorem mem_freeBlocks : b ∈ freeBlocks d ↔ b < d.size.toNat ∧ d.bit b = false := by
  rw [freeBlocks, List.mem_filter, List.mem_range, Bool.not_eq_true']

/-- Below 2^31 the `int` is what the `uint` would be. -/
theorem bblockInt_eq (hb : b < 2 ^ 31) : d.bblockInt b = d.bblock b := by
  have hdiv : Int32.ofNat b / Int32.ofNat BPB = Int32.ofNat (b / BPB) := by
    have hlt : b / BPB < 2 ^ 31 := Nat.lt_of_le_of_lt (Nat.div_le_self ..) hb
    rw [← Int32.toInt_inj, Int32.toInt_div, Int32.toInt_ofNat_of_lt hb,
      Int32.toInt_ofNat_of_lt (by decide), Int32.toInt_ofNat_of_lt hlt, ← Int.ofNat_tdiv]
    generalize b / BPB = q at hlt
    exact Int.bmod_eq_of_le (by omega) (by omega)
  rw [Device.bblockInt, Device.bblock, hdiv, Int32.toUInt32_ofNat']

/-- **`balloc` takes the lowest free block** of up to 2^31. -/
theorem ballocLoop_eq (n b : Nat) (hb : b % BPB = 0) (hn : d.size.toNat ≤ b + n * BPB)
    (hsmall : d.size.toNat ≤ 2 ^ 31) (hused : ∀ c < b, d.bit c = true) : ballocLoop d (n + 1) b =
      match lowestFree d.size.toNat d.bit with
      | some r => .ok (r, d.take r)
      | none => .ok (0, d) := by
  have hend : d.size.toNat ≤ b → lowestFree d.size.toNat d.bit = none := fun hle =>
    lowestFree_none.mpr fun c hc => hused c (by omega)
  induction n generalizing b with
  | zero => rw [ballocLoop, if_neg (by omega), hend (by omega)]
  | succ n ih =>
    rw [ballocLoop]
    split
    · rename_i hlt
      rw [bblockInt_eq (by omega)]
      split
      · rename_i bi hbi
        obtain ⟨-, hbn, hclear, hlow⟩ := freeBit_some hbi
        have hr : lowestFree d.size.toNat d.bit = some (b + bi) := by
          refine lowestFree_some.mpr ⟨by omega, ?_, fun c hc => ?_⟩
          · rw [bit_stride hb (by omega)]
            exact hclear
          · by_cases hcb : c < b
            · exact hused c hcb
            · obtain ⟨j, rfl⟩ := Nat.exists_eq_add_of_le (Nat.le_of_not_lt hcb)
              rw [bit_stride hb (by omega)]
              exact hlow j (by omega) (by omega)
        have hblk : d.bblock (b + bi) = d.bblock b := by
          rw [Device.bblock, Device.bblock]
          rw [BPB_eq] at *
          rw [show (b + bi) / 8192 = b / 8192 by omega]
        rw [hr]
        show _ = Except.ok (b + bi, d.takeAt (d.bblock (b + bi)) (b + bi))
        rw [hblk]
      · rename_i hbi
        have hused' : ∀ c < b + BPB, c < d.size.toNat → d.bit c = true := by
          intro c hc hcs
          by_cases hcb : c < b
          · exact hused c hcb
          · obtain ⟨j, rfl⟩ := Nat.exists_eq_add_of_le (Nat.le_of_not_lt hcb)
            rw [bit_stride hb (by omega)]
            exact freeBit_none hbi j (by omega) (by omega)
        by_cases hlast : d.size.toNat ≤ b + BPB
        · -- the next value is past the end
          have hnone : lowestFree d.size.toNat d.bit = none :=
            lowestFree_none.mpr fun c hc => hused' c (by omega) hc
          rw [ballocLoop, if_neg (by omega), hnone]
        · rw [Nat.succ_mul] at hn
          refine ih (b + BPB) (by rw [Nat.add_mod_right]; exact hb) (by omega)
            (fun c hc => hused' c hc (by omega)) (fun hle => ?_)
          exact absurd hle hlast
    · rw [hend (by omega)]

theorem lowestFree_eq : lowestFree d.size.toNat d.bit = (freeBlocks d).head? := by
  rw [lowestFree, freeBlocks, List.head?_filter]

theorem balloc_eq (hsize : d.size.toNat ≤ 2 ^ 31) : balloc d =
    match (freeBlocks d).head? with
    | some r => .ok (r, d.take r)
    | none => .ok (0, d) := by
  rw [balloc, show 2 ^ 32 / BPB = 2 ^ 32 / BPB - 1 + 1 from rfl,
    ballocLoop_eq _ 0 rfl (by rw [BPB_eq]; omega) hsize nofun, lowestFree_eq]

/-- The loop passes over blocks in use. -/
theorem ballocLoop_used (n k b : Nat) (hb : b % BPB = 0) (hk : b + k * BPB ≤ 2 ^ 31)
    (hs : b + k * BPB ≤ d.size.toNat) (hused : ∀ c < 2 ^ 31, d.bit c = true) :
    ballocLoop d (n + k) b = ballocLoop d n (b + k * BPB) := by
  induction k generalizing b with
  | zero => rw [Nat.zero_mul, Nat.add_zero, Nat.add_zero]
  | succ k ih =>
    rw [Nat.succ_mul] at hk hs ⊢
    have hpos : 0 < BPB := by decide
    have hfull : freeBit (d.block (d.bblock b)) (min BPB (d.size.toNat - b)) 0 = none := by
      by_contra hne
      obtain ⟨bi, hbi⟩ := Option.ne_none_iff_exists'.mp hne
      obtain ⟨-, hbn, hclear, -⟩ := freeBit_some hbi
      have := hused (b + bi) (by omega)
      rw [bit_stride hb (by omega), hclear] at this
      cases this
    rw [← Nat.add_assoc, ballocLoop, if_pos (by omega), bblockInt_eq (by omega), hfull]
    refine (ih (b + BPB) (by rw [Nat.add_mod_right]; exact hb) (by omega) (by omega)).trans ?_
    rw [Nat.add_assoc b, Nat.add_comm BPB]

/-- The bitmap has its own blocks marked as used. -/
def MarksItself (d : Device) : Prop :=
  ∀ c < d.size.toNat, (d.bblock c).toNat < d.size.toNat → d.bit (d.bblock c).toNat = true

theorem bblock_inj (hb : b < 2 ^ 32) (hc : c < 2 ^ 32) (h : d.bblock b = d.bblock c) :
    b / BPB = c / BPB := by
  have := congrArg UInt32.toNat h
  rw [Device.bblock, Device.bblock, UInt32.toNat_add, UInt32.toNat_add, UInt32.toNat_ofNat',
    UInt32.toNat_ofNat'] at this
  rw [BPB_eq] at this ⊢
  omega

/-- One bit of the bitmap is written. -/
theorem bit_set {blk : Block} {v : Bool} (hb : b < 2 ^ 32) (hc : c < 2 ^ 32)
    (h : ∀ k, getBit blk k = if k = b % BPB then v else getBit (d.block (d.bblock b)) k) :
    (d.set (d.bblock b) blk).bit c = if c = b then v else d.bit c := by
  show getBit (update d.block (d.bblock b) blk (d.bblock c)) (c % BPB) = _
  by_cases hblock : d.bblock c = d.bblock b
  · have hdiv := bblock_inj hc hb hblock
    have hmod : c % BPB = b % BPB ↔ c = b := by
      rw [BPB_eq] at hdiv ⊢
      omega
    rw [hblock, update_self, h, if_congr hmod rfl rfl, Device.bit, hblock]
  · rw [update_of_ne hblock, if_neg fun e => hblock (by rw [e])]
    rfl

/-- **The bitmap after an allocation**: the bit of the block is set, and no other one changes. -/
theorem bit_take (hd : MarksItself d) (hb : b ∈ freeBlocks d) (hc : c < d.size.toNat) :
    (d.take b).bit c = if c = b then true else d.bit c := by
  obtain ⟨hbs, hfree⟩ := mem_freeBlocks.mp hb
  have hlt := d.size.toNat_lt
  -- the zeroed block is no block of the bitmap
  have hne : d.bblock c ≠ UInt32.ofNat b := by
    intro e
    have hself := hd c hc
    rw [e, UInt32.toNat_ofNat', Nat.mod_eq_of_lt (by omega), hfree] at hself
    cases hself hbs
  have htake : (d.take b).bit c =
      (d.set (d.bblock b) (setBit (d.block (d.bblock b)) (b % BPB))).bit c :=
    congrArg (getBit · (c % BPB)) (update_of_ne hne _ _)
  rw [htake, bit_set (by omega) (by omega) fun k => ?_]
  rw [getBit_setBit]
  by_cases k = b % BPB <;> simp [*]

/-- The free blocks, when block `b` has been taken. -/
theorem freeBlocks_erase (hs : d'.size = d.size) (hb : b ∈ freeBlocks d)
    (h : ∀ c < d.size.toNat, d'.bit c = if c = b then true else d.bit c) :
    freeBlocks d' = (freeBlocks d).erase b ∧
      (freeBlocks d').length + 1 = (freeBlocks d).length := by
  have hnodup : (freeBlocks d).Nodup := List.nodup_range.filter _
  have herase : freeBlocks d' = (freeBlocks d).erase b := by
    rw [hnodup.erase_eq_filter, freeBlocks, freeBlocks, List.filter_filter, hs]
    refine List.filter_congr fun c hc => ?_
    rw [h c (List.mem_range.mp hc)]
    by_cases hcb : c = b <;> simp [hcb]
  refine ⟨herase, ?_⟩
  rw [herase, List.length_erase_of_mem hb]
  have := List.length_pos_of_mem hb
  omega

theorem freeBlocks_take (hd : MarksItself d) (hb : b ∈ freeBlocks d) :
    freeBlocks (d.take b) = (freeBlocks d).erase b ∧
      (freeBlocks (d.take b)).length + 1 = (freeBlocks d).length :=
  freeBlocks_erase rfl hb fun _ => bit_take hd hb

theorem MarksItself.take (hd : MarksItself d) (hb : b ∈ freeBlocks d) : MarksItself (d.take b) := by
  intro c hc hcs
  have hbit : (d.take b).bit (d.bblock c).toNat = _ := bit_take hd hb hcs
  exact hbit.trans (by rw [hd c hc hcs, ite_self])

theorem length_freeBlocks_le : (freeBlocks d).length ≤ d.size.toNat := by
  have := List.length_filter_le (fun b => !d.bit b) (List.range d.size.toNat)
  rwa [List.length_range] at this

/-- **The accounts of the blocks**: the report `r` and the allocator agree. -/
structure Accounts (d : Device) (r : Report) : Prop where
  total : r.usedBlocks + r.freeBlocks = r.sizeBlocks
  draws : ∃ bs d', Draws balloc d bs d' ∧ balloc d' = .ok (0, d') ∧ bs.length = r.freeBlocks ∧
    bs.Pairwise (· < ·) ∧ ∀ b ∈ bs, b < d.size.toNat ∧ d.bit b = false
  balloc : ∀ b d', balloc d = .ok (b, d') → b ≠ 0 →
    ∃ r', fsStatfs d' = some r' ∧ r'.freeBlocks + 1 = r.freeBlocks
  prefer : ∀ p b d', ballocPrefer p d = .ok (b, d') → b ≠ 0 →
    ∃ r', fsStatfs d' = some r' ∧ r'.freeBlocks + 1 = r.freeBlocks
  bfree : ∀ b d', b < d.size → bfree b d = .ok d' →
    ∃ r', fsStatfs d' = some r' ∧ r'.freeBlocks = r.freeBlocks + 1

/-- One free block more. -/
theorem length_freeBlocks_bfree {b : UInt32} (hb : b < d.size) (h : bfree b d = .ok d') :
    (freeBlocks d').length = (freeBlocks d).length + 1 ∧ d'.size = d.size ∧
      d'.ninodes = d.ninodes := by
  have hlt := d.size.toNat_lt
  have hbs : b.toNat < d.size.toNat := hb
  unfold bfree at h
  dsimp only at h
  split at h
  · rename_i hset
    obtain rfl := Except.ok.inj h
    generalize he : d.set (d.bblock b.toNat) _ = e
    have hbit : ∀ c < d.size.toNat, e.bit c = if c = b.toNat then false else d.bit c := by
      intro c hc
      rw [← he, bit_set (by omega) (by omega) fun k => ?_]
      rw [getBit_clearBit]
      by_cases k = b.toNat % BPB <;> simp [*]
    have hsize : e.size = d.size := by rw [← he]; rfl
    -- taking the block again gives back the free blocks there were
    refine ⟨(freeBlocks_erase (d := e) hsize.symm (mem_freeBlocks.mpr ⟨by rw [hsize]; exact hbs, ?_⟩)
      fun c hc => ?_).2.symm, hsize, by rw [← he]; rfl⟩
    · rw [hbit _ hbs, if_pos rfl]
    · rw [hbit c (hsize ▸ hc)]
      split
      · rename_i e
        rw [e]
        exact hset
      · rfl
  · cases h

/-- **The free blocks reported are those `balloc` gives out**, when the bitmap has itself and block 0
    marked as used and there are at most 2^31 blocks. -/
theorem accounts (d : Device) (h0 : d.bit 0 = true) (hd : MarksItself d)
    (hsize : d.size.toNat ≤ 2 ^ 31) (hn : d.ninodes.toNat ≤ 2 ^ 32 - IPB) :
    ∃ r, fsStatfs d = some r ∧ Accounts d r := by
  have hsize' : d.size.toNat ≤ 2 ^ 32 - BPB := Nat.le_trans hsize (by decide)
  have hne : ∀ b ∈ freeBlocks d, b ≠ 0 := by
    rintro b hb rfl
    rw [(mem_freeBlocks.mp hb).2] at h0
    cases h0
  have htook : ∀ b ∈ freeBlocks d, ∃ r', fsStatfs (d.take b) = some r' ∧
      r'.freeBlocks + 1 = (freeBlocks d).length := fun b hb =>
    ⟨_, fsStatfs_eq (d := d.take b) hsize' hn, (freeBlocks_take hd hb).2⟩
  refine ⟨_, fsStatfs_eq hsize' hn, Nat.sub_add_cancel length_freeBlocks_le, ?_, ?_, ?_, ?_⟩
  · -- every call takes the head of the list of free blocks
    have hstep : ∀ (e : Device) b l, (MarksItself e ∧ e.size = d.size ∧
        ∀ b ∈ freeBlocks e, b ≠ 0) → freeBlocks e = b :: l → ∃ e', balloc e = .ok (b, e') ∧ b ≠ 0 ∧
        (MarksItself e' ∧ e'.size = d.size ∧ ∀ b ∈ freeBlocks e', b ≠ 0) ∧ freeBlocks e' = l := by
      intro e b l ⟨he, hes, hpos⟩ hl
      have hmem : b ∈ freeBlocks e := hl ▸ List.mem_cons_self
      have hl' : freeBlocks (e.take b) = l := by rw [(freeBlocks_take he hmem).1, hl, List.erase_cons_head]
      refine ⟨e.take b, ?_, hpos b hmem, ⟨he.take hmem, hes, fun c hc => ?_⟩, hl'⟩
      · rw [balloc_eq (by rw [hes]; exact hsize), hl]
        rfl
      · rw [hl'] at hc
        exact hpos c (hl ▸ List.mem_cons_of_mem _ hc)
    obtain ⟨d', hdraws, ⟨-, hs', -⟩, hend⟩ := draws_all hstep ⟨hd, rfl, hne⟩
    refine ⟨freeBlocks d, d', hdraws, ?_, rfl, ?_, fun b hb => mem_freeBlocks.mp hb⟩
    · rw [balloc_eq (by rw [hs']; exact hsize), hend]
      rfl
    · exact List.pairwise_lt_range.filter _
  · intro b d' hcall hb
    rw [balloc_eq hsize] at hcall
    split at hcall
    · rename_i r hr
      cases hcall
      exact htook _ (List.mem_of_head? hr)
    · cases hcall
      exact absurd rfl hb
  · intro p b d' hcall hb
    unfold ballocPrefer at hcall
    split at hcall
    · cases hcall
      exact absurd rfl hb
    · rename_i hlt
      split at hcall
      · cases hcall
        exact absurd rfl hb
      · rename_i hfree
        cases hcall
        refine htook _ (mem_freeBlocks.mpr ⟨UInt32.not_le.mp hlt, by simpa using hfree⟩)
  · intro b d' hb hcall
    obtain ⟨hlen, hs, hi⟩ := length_freeBlocks_bfree hb hcall
    exact ⟨_, fsStatfs_eq (by rw [hs]; exact hsize') (by rw [hi]; exact hn), hlen⟩

/-- No inode in memory. -/
def noInodes : Nat → Inode := fun _ => ⟨0, 0, false, Dinode.zero, ⟨false, 0, false, []⟩⟩

/-- A disk of eight blocks with the bitmap in the third one; the last three are free. -/
def eight : Device := ⟨8, 0, 2, 2, fun _ _ => 0x1f, noInodes⟩

theorem accounts_eight : ∃ r, fsStatfs eight = some r ∧ r.freeBlocks = 3 ∧ Accounts eight r := by
  have hself : MarksItself eight := by
    unfold MarksItself
    decide
  obtain ⟨r, hr, h⟩ := accounts eight (by decide) hself (by decide) (by decide)
  refine ⟨r, hr, ?_, h⟩
  rw [fsStatfs_eq (by decide) (by decide)] at hr
  cases hr
  decide

/-- Two blocks; the second one has the bitmap, which marks only the first one. -/
def unmarked : Device := ⟨2, 0, 1, 1, fun _ _ => 1, noInodes⟩

/-- A disk of 2^31 + 1 blocks with a bitmap that has all of them in use; block 2 is no block of the
    bitmap and has zeros. -/
def huge : Device := ⟨2 ^ 31 + 1, 0, 1, 2 ^ 18 + 2, fun b _ => if b = 2 then 0 else 0xff, noInodes⟩

theorem bit_huge {c : Nat} (hc : c < 2 ^ 32) : huge.bit c = true := by
  have hbyte : ∀ k < 8, (0xff : UInt8) &&& bitMask k != 0 := by decide
  have hne : huge.bblock c ≠ 2 := by
    intro e
    have := congrArg UInt32.toNat e
    rw [Device.bblock, UInt32.toNat_add, UInt32.toNat_ofNat', BPB_eq] at this
    have e1 : huge.bmapstart.toNat = 2 ^ 18 + 2 := by decide
    have e2 : (2 : UInt32).toNat = 2 := rfl
    omega
  have hblk : ∀ x, x ≠ 2 → huge.block x = fun _ => 0xff := fun x hx => funext fun _ => if_neg hx
  rw [Device.bit, hblk _ hne]
  exact hbyte _ (Nat.mod_lt _ (by decide))

/-- For the last block `balloc` looks at block 2. -/
theorem balloc_huge : balloc huge = .ok (2 ^ 31, huge.takeAt 2 (2 ^ 31)) := by
  have hsize : huge.size.toNat = 2 ^ 31 + 1 := by decide
  have hblk : huge.bblockInt (2 ^ 31) = 2 := by decide
  have hfree : freeBit (huge.block 2) 1 0 = some 0 := by decide
  have hused := ballocLoop_used (d := huge) (2 ^ 18 - 1 + 1) (2 ^ 18) 0 rfl (by rw [BPB_eq]; omega)
    (by rw [BPB_eq]; omega) fun c hc => bit_huge (by omega)
  have hlast : ballocLoop huge (2 ^ 18 - 1 + 1) (2 ^ 31) = .ok (2 ^ 31 + 0, huge.takeAt 2 (2 ^ 31 + 0)) := by
    rw [ballocLoop, if_pos (by omega), hblk, hsize,
      show min BPB (2 ^ 31 + 1 - 2 ^ 31) = 1 by rw [BPB_eq]; omega, hfree]
  rw [show 0 + 2 ^ 18 * BPB = 2 ^ 31 by rw [BPB_eq]; omega, hlast] at hused
  rw [balloc, show 2 ^ 32 / BPB = 2 ^ 18 - 1 + 1 + 2 ^ 18 by rw [BPB_eq]; omega]
  exact hused

/-- **The accounts do not agree** where the bitmap has its own block marked as free, which `balloc`
    then takes and zeroes; nor on a disk of 2^31 + 1 blocks, for the last of which `balloc` looks at
    another block than `fs_statfs`. -/
theorem accounts_not :
    (unmarked.bit 0 = true ∧ ¬ ∃ r, fsStatfs unmarked = some r ∧ Accounts unmarked r) ∧
      huge.bit 0 = true ∧ MarksItself huge ∧ ¬ ∃ r, fsStatfs huge = some r ∧ Accounts huge r := by
  refine ⟨⟨by decide, ?_⟩, bit_huge (by decide), fun _ _ h => bit_huge (UInt32.toNat_lt _), ?_⟩
  · rintro ⟨r, hr, h⟩
    rw [fsStatfs_eq (by decide) (by decide)] at hr
    obtain rfl := Option.some.inj hr
    have hfree : freeBlocks unmarked = [1] := by decide
    have hcall : balloc unmarked = .ok (1, unmarked.take 1) := by
      rw [balloc_eq (by decide), hfree]
      rfl
    obtain ⟨r', hr', hone⟩ := h.balloc 1 _ hcall (by decide)
    rw [fsStatfs_eq (by decide) (by decide)] at hr'
    obtain rfl := Option.some.inj hr'
    have hwiped : freeBlocks (unmarked.take 1) = [0, 1] := by decide
    rw [hwiped, hfree] at hone
    cases hone
  · rintro ⟨r, hr, h⟩
    rw [fsStatfs_eq (by decide) (by decide)] at hr
    obtain rfl := Option.some.inj hr
    have hfree : freeBlocks huge = [] := by
      refine List.filter_eq_nil_iff.mpr fun b hb => ?_
      rw [bit_huge (Nat.lt_trans (List.mem_range.mp hb) (UInt32.toNat_lt _))]
      exact Bool.false_ne_true
    obtain ⟨r', -, hone⟩ := h.balloc (2 ^ 31) _ balloc_huge (by decide)
    rw [hfree] at hone
    cases hone

end Blocks

/-! ## 6. The inode allocator -/

section Inodes

variable {d d' : Device} {type : Int16} {i j a : Nat} {t : Nat → Inode} {l : List Nat}

/-- Where `ialloc` looks for inode `i`, as a place in the table; from 2^31 on it is 2^29 blocks before
    the place of the inode, modulo 2^32. -/
def seat (i : Nat) : Nat := if i < 2 ^ 31 then i else i + (2 ^ 35 - 2 ^ 32)

theorem iblockInt_eq (hi : i < 2 ^ 32) : d.iblockInt i = d.iblock (seat i) := by
  have h : (Int32.ofNat i).toInt64.toUInt64.toNat = if i < 2 ^ 31 then i else i + (2 ^ 64 - 2 ^ 32) := by
    show ((BitVec.ofNat 32 i).signExtend 64).toNat = _
    rw [BitVec.toNat_signExtend, BitVec.toNat_setWidth, BitVec.toNat_ofNat, BitVec.msb_eq_decide,
      BitVec.toNat_ofNat]
    simp only [decide_eq_true_eq]
    split <;> split <;> omega
  rw [Device.iblockInt, Device.iblock]
  congr 1
  rw [← UInt32.toNat_inj, UInt64.toNat_toUInt32, UInt64.toNat_div, h, UInt32.toNat_ofNat', seat,
    show (UInt64.ofNat IPB).toNat = 8 by decide, IPB_eq]
  split <;> omega

theorem seat_bounds (hi : i < 2 ^ 32) : seat i < 2 ^ 35 ∧ seat i % IPB = i % IPB := by
  rw [IPB_eq, seat]
  split <;> omega

theorem seat_inj (hi : i < 2 ^ 32) (hj : j < 2 ^ 32) : seat i = seat j ↔ i = j := by
  unfold seat
  split <;> split <;> omega

theorem seen_eq (hi : i < 2 ^ 32) : d.seen i = d.dinodeType (seat i) := by
  rw [Device.seen, Device.dinodeType, iblockInt_eq hi, (seat_bounds hi).2]

/-- **Allocating an inode changes what `ialloc` finds for it**, and for no other. -/
theorem seen_markAt (hi : i < 2 ^ 32) (hj : j < 2 ^ 32) :
    (d.markAt (d.iblockInt i) i type).seen j = if j = i then type else d.seen j := by
  have hmark : (d.markAt (d.iblockInt i) i type).seen j =
      (getDinode (update d.block (d.iblockInt i) _ (d.iblockInt j)) (j % IPB)).type := rfl
  rw [hmark]
  by_cases hblock : d.iblockInt j = d.iblockInt i
  · have hdiv : seat j / IPB = seat i / IPB := by
      have h1 := seat_bounds hi
      have h2 := seat_bounds hj
      rw [iblockInt_eq hi, iblockInt_eq hj] at hblock
      have := congrArg UInt32.toNat hblock
      rw [Device.iblock, Device.iblock, UInt32.toNat_add, UInt32.toNat_add, UInt32.toNat_ofNat',
        UInt32.toNat_ofNat'] at this
      rw [IPB_eq] at *
      omega
    rw [hblock, update_self]
    by_cases hji : j = i
    · rw [hji, getDinode_putDinode, if_pos rfl]
      rfl
    · have hmod : j % IPB ≠ i % IPB := by
        have hne := mt (seat_inj hj hi).mp hji
        rw [← (seat_bounds hi).2, ← (seat_bounds hj).2]
        rw [IPB_eq] at *
        omega
      rw [getDinode_putDinode_ne hmod, if_neg hji, Device.seen, hblock]
  · rw [update_of_ne hblock, if_neg (fun e => hblock (by rw [e]))]
    rfl

/-- The inodes that `ialloc` finds free. -/
def openInodes (d : Device) : List Nat :=
  (List.range' 1 (d.ninodes.toNat - 1)).filter fun i => d.seen i == 0

theorem mem_openInodes : i ∈ openInodes d ↔ (1 ≤ i ∧ i < d.ninodes.toNat) ∧ d.seen i = 0 := by
  rw [openInodes, List.mem_filter, List.mem_range'_1, beq_iff_eq]
  constructor <;> rintro ⟨h, ht⟩ <;> exact ⟨by omega, ht⟩

theorem mem_freeInodes :
    i ∈ freeInodes d a ↔ (a ≤ i ∧ i < d.ninodes.toNat) ∧ d.dinodeType i = 0 := by
  rw [freeInodes, List.mem_filter, List.mem_range'_1, beq_iff_eq]
  constructor <;> rintro ⟨h, ht⟩ <;> exact ⟨by omega, ht⟩

theorem nodup_openInodes : (openInodes d).Nodup := (List.nodup_range' 1).filter _

theorem nodup_freeInodes : (freeInodes d a).Nodup := (List.nodup_range' 1).filter _

/-- Inode `i` is allocated and in slot `ip`. -/
def Device.alloc (d : Device) (type : Int16) (i ip : Nat) : Device :=
  { d.markAt (d.iblockInt i) i type with itable := update d.itable ip ((d.itable ip).got i) }

/-- What `ialloc` does when it has found inode `i`. -/
def Device.found (d : Device) (type : Int16) (i : Nat) : Except Fault (Nat × Device) :=
  match igetSlot d.itable i with
  | some ip => .ok (i, d.alloc type i ip)
  | none => .error .igetNoInodes

/-- **`ialloc` takes the lowest inode that it finds free**, if there is a slot for it. -/
theorem ialloc_eq (type : Int16) (d : Device) : ialloc type d =
    match (openInodes d).head? with
    | some i => d.found type i
    | none => .ok (0, d) := by
  suffices h : ∀ n a, iallocLoop type d n a =
      match ((List.range' a n).filter fun i => d.seen i == 0).head? with
      | some i => d.found type i
      | none => .ok (0, d) from h _ _
  intro n
  induction n with
  | zero => exact fun _ => rfl
  | succ n ih =>
    intro a
    rw [iallocLoop, List.range'_succ]
    by_cases hs : d.seen a = 0
    · rw [if_pos hs, List.filter_cons_of_pos (by rw [hs]; rfl)]
      show _ = d.found type a
      unfold iget Device.found
      rw [show igetSlot (d.markAt (d.iblockInt a) a type).itable a = igetSlot d.itable a from rfl]
      cases igetSlot d.itable a <;> rfl
    · rw [if_neg hs, ih, List.filter_cons_of_neg (by simpa using hs)]

theorem ialloc_cases (h : ialloc type d = .ok (i, d')) :
    (∃ l ip, openInodes d = i :: l ∧ igetSlot d.itable i = some ip ∧ d' = d.alloc type i ip) ∨
      (i = 0 ∧ openInodes d = [] ∧ d' = d) := by
  rw [ialloc_eq] at h
  cases hl : openInodes d with
  | nil =>
    rw [hl] at h
    cases h
    exact .inr ⟨rfl, rfl, rfl⟩
  | cons k l =>
    have h : d.found type k = .ok (i, d') := by rw [hl] at h; exact h
    unfold Device.found at h
    cases hs : igetSlot d.itable k with
    | none =>
      rw [hs] at h
      cases h
    | some ip =>
      rw [hs] at h
      cases h
      exact .inl ⟨l, ip, rfl, hs, rfl⟩

/-- The slots that are free. -/
def vacant (t : Nat → Inode) : Finset Nat := (Finset.range NINODE).filter fun ip => (t ip).ref = 0

/-- The inodes of `l` that are not in memory have a slot each. -/
def Room (t : Nat → Inode) (l : List Nat) : Prop :=
  (l.filter fun i => (findSlot t i).isNone).length ≤ (vacant t).card

/-- What the search for the inodes of `l` finds does not change. -/
theorem absent_update (ip : Nat) (x : Inode)
    (h : ∀ j ∈ l, 0 < x.ref ∧ x.inum = j ↔ 0 < (t ip).ref ∧ (t ip).inum = j) :
    (l.filter fun j => (findSlot (update t ip x) j).isNone) =
      l.filter fun j => (findSlot t j).isNone := by
  refine List.filter_congr fun j hj => ?_
  unfold findSlot
  congr 2
  funext k
  by_cases hk : k = ip
  · rw [hk, update_self]
    exact decide_eq_decide.mpr (h j hj)
  · rw [update_of_ne hk]

/-- A call of `iget` takes a slot exactly when the inode is not in memory. -/
theorem room_cons (hi : i ∉ l) : Room t (i :: l) ↔
    ∃ ip, igetSlot t i = some ip ∧ Room (update t ip ((t ip).got i)) l := by
  unfold Room
  cases hf : findSlot t i with
  | some ip =>
    obtain ⟨-, hpos, -⟩ := findSlot_some hf
    have hslot : igetSlot t i = some ip := by rw [igetSlot, hf]; rfl
    have hgot : (t ip).got i = (t ip).dup := if_pos hpos
    have hsame := absent_update (t := t) (l := l) ip (t ip).dup fun j _ =>
      ⟨fun e => ⟨hpos, e.2⟩, fun e => ⟨Nat.succ_pos _, e.2⟩⟩
    have hvac : vacant (update t ip (t ip).dup) = vacant t := by
      refine Finset.filter_congr fun k _ => ?_
      by_cases hk : k = ip
      · rw [hk, update_self]
        exact ⟨fun h => absurd h (Nat.succ_ne_zero _), fun h => absurd h (by omega)⟩
      · rw [update_of_ne hk]
    rw [List.filter_cons_of_neg (by rw [hf]; exact Bool.false_ne_true)]
    simp only [hslot, Option.some.injEq, exists_eq_left', hgot, hvac, hsame]
  | none =>
    rw [List.filter_cons_of_pos (by rw [hf]; rfl), List.length_cons, igetSlot, hf, Option.none_or]
    cases he : emptySlot t with
    | none =>
      have hvac : vacant t = ∅ := by
        refine Finset.filter_eq_empty_iff.mpr fun k hk => ?_
        simpa using List.find?_eq_none.mp he k (List.mem_range.mpr (Finset.mem_range.mp hk))
      simp [hvac]
    | some ip =>
      obtain ⟨hlt, hzero⟩ := emptySlot_some he
      have hgot : (t ip).got i = (t ip).fresh i := if_neg (by omega)
      have hsame := absent_update (t := t) (l := l) ip ((t ip).fresh i) fun j hj =>
        ⟨fun e => absurd hj ((show i = j from e.2) ▸ hi), fun e => absurd e.1 (by omega)⟩
      have hvac : vacant (update t ip ((t ip).fresh i)) = (vacant t).erase ip := by
        ext k
        rw [Finset.mem_erase, vacant, vacant, Finset.mem_filter, Finset.mem_filter]
        by_cases hk : k = ip
        · rw [hk, update_self]
          exact ⟨fun h => absurd h.2 Nat.one_ne_zero, fun h => absurd rfl h.1⟩
        · rw [update_of_ne hk]
          exact ⟨fun h => ⟨hk, h⟩, fun h => h.2⟩
      have hmem : ip ∈ vacant t := Finset.mem_filter.mpr ⟨Finset.mem_range.mpr hlt, hzero⟩
      have hcard := Finset.card_pos.mpr ⟨ip, hmem⟩
      simp only [Option.some.injEq, exists_eq_left', hgot, hvac, hsame, Finset.card_erase_of_mem hmem]
      omega

theorem openInodes_alloc (ip : Nat) (ht : type ≠ 0) (hl : openInodes d = i :: l) :
    openInodes (d.alloc type i ip) = l := by
  have hlt := d.ninodes.toNat_lt
  have hi := (mem_openInodes.mp (hl ▸ List.mem_cons_self : i ∈ openInodes d)).1
  have herase : openInodes (d.alloc type i ip) = (openInodes d).erase i := by
    rw [nodup_openInodes.erase_eq_filter, openInodes, openInodes, List.filter_filter]
    refine List.filter_congr fun j hj => ?_
    have hj := List.mem_range'_1.mp hj
    have e : (d.alloc type i ip).ninodes = d.ninodes := rfl
    rw [e] at hj
    have hseen : (d.alloc type i ip).seen j = _ := seen_markAt (d := d) (by omega) (by omega)
    rw [hseen]
    by_cases hji : j = i <;> simp [hji, ht]
  rw [herase, hl, List.erase_cons_head]

theorem openInodes_draws (ht : type ≠ 0) (h : Draws (ialloc type) d l d') :
    openInodes d = l ++ openInodes d' :=
  h.free_eq openInodes fun _ _ _ hcall hi => by
    rcases ialloc_cases hcall with ⟨l, ip, hl, -, rfl⟩ | ⟨h0, -⟩
    · rw [hl, openInodes_alloc _ ht hl]
    · exact absurd h0 hi

/-- **All of them are given out exactly when there is room for them.** -/
theorem draws_room (ht : type ≠ 0) (hl : openInodes d = l) :
    (∃ d', Draws (ialloc type) d l d' ∧ openInodes d' = []) ↔ Room d.itable l := by
  induction l generalizing d with
  | nil => exact ⟨fun _ => Nat.zero_le _, fun _ => ⟨d, .done, hl⟩⟩
  | cons i l ih =>
    have hnodup := nodup_openInodes (d := d)
    rw [hl] at hnodup
    have hpos := (mem_openInodes.mp (hl ▸ List.mem_cons_self : i ∈ openInodes d)).1.1
    rw [room_cons (List.nodup_cons.mp hnodup).1]
    constructor
    · rintro ⟨d', hdraws, hend⟩
      cases hdraws with
      | call hcall _ hrest =>
        rcases ialloc_cases hcall with ⟨l', ip, hl', hs, rfl⟩ | ⟨h0, -⟩
        · exact ⟨ip, hs, (ih (openInodes_alloc ip ht hl)).mp ⟨d', hrest, hend⟩⟩
        · omega
    · rintro ⟨ip, hs, hroom⟩
      obtain ⟨d', hdraws, hend⟩ := (ih (openInodes_alloc ip ht hl)).mpr hroom
      refine ⟨d', .call ?_ (by omega) hdraws, hend⟩
      rw [ialloc_eq, hl]
      show d.found type i = _
      rw [Device.found, hs]

/-- **The accounts of the inodes**: the report and the allocator agree. -/
structure InodesAccount (type : Int16) (d : Device) (r : Report) : Prop where
  total : r.usedInodes + r.freeInodes = r.inodeCount
  draws : ∃ is d', Draws (ialloc type) d is d' ∧ ialloc type d' = .ok (0, d') ∧
    is.length = r.freeInodes ∧ is.Nodup ∧ ∀ i ∈ is, i < d.ninodes.toNat ∧ d.dinodeType i = 0

/-- Inode 0 is the one that the report counts and `ialloc` passes over. -/
theorem length_freeInodes : (freeInodes d 1).length ≤ (freeInodes d 0).length ∧
    ((freeInodes d 0).length = (freeInodes d 1).length ↔ d.ninodes = 0 ∨ d.dinodeType 0 ≠ 0) := by
  by_cases h0 : d.ninodes = 0
  · have hn : ∀ a, freeInodes d a = [] := fun a => by
      rw [freeInodes, h0, show (0 : UInt32).toNat - a = 0 from Nat.zero_sub a]
      rfl
    rw [hn, hn]
    exact ⟨le_rfl, fun _ => .inl h0, fun _ => rfl⟩
  · have hpos : 0 < d.ninodes.toNat := Nat.pos_of_ne_zero fun e => h0 (UInt32.toNat_inj.mp e)
    rw [freeInodes, freeInodes, show d.ninodes.toNat - 0 = d.ninodes.toNat - 1 + 1 by omega,
      List.range'_succ, List.filter_cons]
    by_cases hz : d.dinodeType 0 = 0
    · simp [h0, hz]
    · simp [hz]

/-- **The free inodes reported are those `ialloc` gives out** if and only if inode 0 is not free (or
    there is none), `ialloc` looks at the right places, each inode has a slot in memory, and the report
    is given. -/
theorem inodesAccount_iff (d : Device) (type : Int16) (ht : type ≠ 0) :
    (∃ r, fsStatfs d = some r ∧ InodesAccount type d r) ↔
      (d.ninodes = 0 ∨ d.dinodeType 0 ≠ 0) ∧
      (∀ i, 2 ^ 31 ≤ i → i < d.ninodes.toNat → (d.seen i = 0 ↔ d.dinodeType i = 0)) ∧
      Room d.itable (freeInodes d 1) ∧
      d.size.toNat ≤ 2 ^ 32 - BPB ∧ d.ninodes.toNat ≤ 2 ^ 32 - IPB := by
  obtain ⟨hle, hcount⟩ := length_freeInodes (d := d)
  constructor
  · rintro ⟨r, hr, -, is, d', hdraws, hend, hlen, -, hfree⟩
    have hends : d.size.toNat ≤ 2 ^ 32 - BPB ∧ d.ninodes.toNat ≤ 2 ^ 32 - IPB := by
      by_contra hno
      rw [fsStatfs_none (by omega)] at hr
      cases hr
    rw [fsStatfs_eq hends.1 hends.2] at hr
    obtain rfl := Option.some.inj hr
    have hnil : openInodes d' = [] := by
      rcases ialloc_cases hend with ⟨l, ip, hl, -⟩ | ⟨-, hnil, -⟩
      · have := (mem_openInodes.mp (hl ▸ List.mem_cons_self : 0 ∈ openInodes d')).1.1
        omega
      · exact hnil
    have his : openInodes d = is := by
      have := openInodes_draws ht hdraws
      rwa [hnil, List.append_nil] at this
    -- what is given out is free, and as much as there is
    have hsub : openInodes d ⊆ freeInodes d 1 := fun i hi =>
      mem_freeInodes.mpr ⟨(mem_openInodes.mp hi).1, (hfree i (his ▸ hi)).2⟩
    have hsubperm := nodup_openInodes.subperm hsub
    have hlen' := hsubperm.length_le
    dsimp only at hlen
    rw [his] at hlen'
    have hperm := hsubperm.perm_of_length_le (by rw [his]; omega)
    refine ⟨hcount.mp (by omega), fun i hi hin => ?_, ?_, hends⟩
    · have hmem := hperm.mem_iff (a := i)
      rw [mem_openInodes, mem_freeInodes] at hmem
      exact ⟨fun h => (hmem.mp ⟨⟨by omega, hin⟩, h⟩).2, fun h => (hmem.mpr ⟨⟨by omega, hin⟩, h⟩).2⟩
    · have hroom := (draws_room ht his).mp ⟨d', hdraws, hnil⟩
      rw [his] at hperm
      unfold Room at hroom ⊢
      rwa [← (hperm.filter _).length_eq]
  · rintro ⟨h0, hseen, hroom, hsize, hn⟩
    have hsame : openInodes d = freeInodes d 1 := by
      refine List.filter_congr fun i hi => ?_
      have hi := List.mem_range'_1.mp hi
      by_cases hlow : i < 2 ^ 31
      · rw [seen_eq (by omega), seat, if_pos hlow]
      · rw [Bool.eq_iff_iff, beq_iff_eq, beq_iff_eq]
        exact hseen i (by omega) (by omega)
    obtain ⟨d', hdraws, hnil⟩ := (draws_room ht hsame).mpr hroom
    refine ⟨_, fsStatfs_eq hsize hn, Nat.sub_add_cancel ?_, freeInodes d 1, d', hdraws, ?_,
      (hcount.mpr h0).symm, nodup_freeInodes, fun i hi => ?_⟩
    · have := List.length_filter_le (fun i => d.dinodeType i == 0)
        (List.range' 0 (d.ninodes.toNat - 0))
      rwa [List.length_range'] at this
    · rw [ialloc_eq, hnil]
      rfl
    · exact ⟨(mem_freeInodes.mp hi).1.2, (mem_freeInodes.mp hi).2⟩

/-- Four inodes, of which inode 0 alone is in use. -/
def four : Device := ⟨4, 4, 3, 2, fun _ o => if o = 0 then 1 else 0, noInodes⟩

theorem inodesAccount_four : T_FILE ≠ 0 ∧
    ∃ r, fsStatfs four = some r ∧ r.freeInodes = 3 ∧ InodesAccount T_FILE four r := by
  have hn : four.ninodes.toNat = 4 := rfl
  obtain ⟨r, hr, h⟩ := (inodesAccount_iff four T_FILE (by decide)).mpr
    ⟨.inr (by decide), fun i h1 h2 => by omega, by unfold Room vacant; decide, by decide, by decide⟩
  refine ⟨by decide, r, hr, ?_, h⟩
  rw [fsStatfs_eq (by decide) (by decide)] at hr
  cases hr
  decide

/-- Two inodes, both free, as no image has inode 0 allocated. -/
def fresh : Device := ⟨4, 2, 3, 2, fun _ _ => 0, noInodes⟩

/-- **One too many**: the report has two free inodes, `ialloc` gives out inode 1 and no other. -/
theorem one_too_many : ¬ ∃ r, fsStatfs fresh = some r ∧ InodesAccount T_FILE fresh r := by
  rintro ⟨r, hr, -, is, d', hdraws, -, hlen, hnodup, hfree⟩
  rw [fsStatfs_eq (by decide) (by decide)] at hr
  obtain rfl := Option.some.inj hr
  have hopen := openInodes_draws (by decide) hdraws
  have hlen' := congrArg List.length hopen
  rw [List.length_append, hlen] at hlen'
  have h1 : (openInodes fresh).length = 1 := by decide
  have h2 : (freeInodes fresh 0).length = 2 := by decide
  dsimp only at hlen'
  omega

end Inodes

/-! ## 7. The routines on the cache and the log -/

section Refines

variable {G : Nat → Prop} {F : Frame} {P : Panic → Fs → Prop} {s s' : Fs} {b c i : Nat}

/-- The file system, as these functions read it. -/
def device (s : Fs) : Device :=
  ⟨UInt32.ofNat s.sb.size, UInt32.ofNat s.sb.ninodes, UInt32.ofNat s.sb.inodestart,
    UInt32.ofNat s.sb.bmapstart, fun b => view s b.toNat, s.itable⟩

theorem size_device (hL : Layout s.sb) : (device s).size.toNat = s.sb.size :=
  UInt32.toNat_ofNat_of_lt' (Nat.lt_trans hL.small (by decide))

theorem bblock_device (hL : Layout s.sb) (hc : c < s.sb.size) :
    ((device s).bblock c).toNat = bblock s.sb c := by
  have h1 := bblock_bounds hL hc
  have h2 := hL.small
  unfold bblock Superblock.dataStart at *
  show (UInt32.ofNat (c / BPB) + UInt32.ofNat s.sb.bmapstart).toNat = _
  rw [UInt32.toNat_add, UInt32.toNat_ofNat', UInt32.toNat_ofNat']
  omega

theorem bit_device (hL : Layout s.sb) (hc : c < s.sb.size) : (device s).bit c = bits s c := by
  rw [bits, if_pos hc, ← bblock_device hL hc]
  rfl

/-- The bitmap of a file system has itself marked as used. -/
theorem marksItself_device (hok : FsOk G s) : MarksItself (device s) := by
  intro c hc hcs
  rw [size_device hok.layout] at hc hcs
  rw [bit_device hok.layout hcs, bblock_device hok.layout hc]
  exact hok.reserved _ (bblock_bounds hok.layout hc).2

variable (hP : ∀ p s, Exhausted p s → P p s) (hok : FsOk G s)
include hP hok

/-- **`balloc` of Fs/Alloc takes the same block**, and leaves the same bitmap. -/
theorem balloc_device
    (hF : ∀ r, lowestFree s.sb.size (bits s) = some r → F.blocks (bblock s.sb r) ∧ F.blocks r) :
    (HaiOS.balloc s).Runs (Touch G F) P s fun r s' =>
      ∃ d', balloc (device s) = .ok (r, d') ∧ ∀ c < s.sb.size, d'.bit c = bits s' c := by
  have hL := hok.layout
  have hsize := size_device hL
  have hbits : lowestFree s.sb.size (device s).bit = lowestFree s.sb.size (bits s) := by
    rw [lowestFree, lowestFree, ← List.head?_filter, ← List.head?_filter]
    refine congrArg List.head? (List.filter_congr fun c hc => ?_)
    rw [bit_device hL (List.mem_range.mp hc)]
  have heq := balloc_eq (d := device s) (by rw [hsize]; exact hL.small.le)
  rw [← lowestFree_eq, hsize, hbits] at heq
  refine (balloc_runs hP hL hok.metaIn hok.reserved hok.ready hF).imp fun r s' _ hq => ?_
  cases hlow : lowestFree s.sb.size (bits s) with
  | none =>
    rw [hlow] at heq hq
    obtain ⟨rfl, ht, -⟩ := hq
    refine ⟨_, heq, fun c hc => ?_⟩
    rw [bit_device hL hc, ht.bits_eq hL hok.metaIn fun _ _ _ h => h]
  | some b =>
    rw [hlow] at heq hq
    obtain ⟨rfl, hq⟩ := hq
    have hmem : r ∈ freeBlocks (device s) :=
      mem_freeBlocks.mpr ⟨by rw [hsize]; exact hq.lt, by rw [bit_device hL hq.lt]; exact hq.free⟩
    refine ⟨_, heq, fun c hc => ?_⟩
    rw [bit_take (marksItself_device hok) hmem (by rw [hsize]; exact hc), hq.bits, update_apply,
      bit_device hL hc]

/-- **`ialloc` of Fs/Inode takes the same inode** of up to 2^31, and the same slot. -/
theorem ialloc_device {type : Int16} (hn : s.sb.ninodes ≤ 2 ^ 31)
    (hF : ∀ i, freeInum s = some i →
      F.blocks (iblock s.sb i) ∧ ∀ ip, igetSlot s.itable i = some ip → F.slots ip)
    (hnone : ∀ s', P .igetNoInodes s') :
    (HaiOS.ialloc type s).Runs (Touch G F) P s fun r s' =>
      ∃ inum d', ialloc type (device s) = .ok (inum, d') ∧ d'.itable = s'.itable ∧
        (r = none ↔ inum = 0) ∧ ∀ i < s.sb.ninodes, d'.seen i = (dinodes s' i).type := by
  have hL := hok.layout
  have hcount : (device s).ninodes.toNat = s.sb.ninodes := UInt32.toNat_ofNat_of_lt' (Nat.lt_of_le_of_lt hn (by decide))
  have hseen : ∀ i < s.sb.ninodes, (device s).seen i = (dinodes s i).type := by
    intro i hi
    have h1 := iblock_bounds hL hi
    have h2 := hL.small
    have h3 := hL.bmap_le
    have hblk : ((device s).iblock i).toNat = iblock s.sb i := by
      unfold iblock Superblock.dataStart at *
      show (UInt32.ofNat (i / IPB) + UInt32.ofNat s.sb.inodestart).toNat = _
      rw [UInt32.toNat_add, UInt32.toNat_ofNat', UInt32.toNat_ofNat']
      omega
    rw [seen_eq (by omega), seat, if_pos (by omega), dinodes, if_pos hi, ← hblk]
    rfl
  have hfree : (openInodes (device s)).head? = freeInum s := by
    rw [openInodes, freeInum, ← List.head?_filter, hcount]
    refine congrArg List.head? (List.filter_congr fun i hi => ?_)
    rw [hseen i (by have := List.mem_range'_1.mp hi; omega)]
    rfl
  have heq := ialloc_eq type (device s)
  rw [hfree] at heq
  refine (ialloc_runs hP hok hF hnone).imp fun r s' _ hq => ?_
  cases hfr : freeInum s with
  | none =>
    rw [hfr] at heq hq
    obtain ⟨rfl, ht, -⟩ := hq
    refine ⟨0, _, heq, (ht.itable_eq fun _ h => h).symm, ⟨fun _ => rfl, fun _ => rfl⟩, fun i hi => ?_⟩
    rw [hseen i hi, ht.dinodes_eq hL hok.metaIn fun _ _ _ h => h]
  | some inum =>
    obtain ⟨h1, hlt, -⟩ := freeInum_some hfr
    rw [hfr] at heq hq
    obtain ⟨ip, rfl, hs, hit, hd, -⟩ := hq
    have heq : ialloc type (device s) = (device s).found type inum := heq
    rw [Device.found, show igetSlot (device s).itable inum = some ip from hs] at heq
    refine ⟨inum, _, heq, hit.symm, ⟨fun h => absurd h (Option.some_ne_none ip), fun h => by omega⟩,
      fun i hi => ?_⟩
    have hmark : ((device s).alloc type inum ip).seen i = _ :=
      seen_markAt (d := device s) (by omega) (by omega)
    rw [hmark, hd, update_apply, hseen i hi]
    split <;> rfl

end Refines

end HaiOS.Statfs
