/-
  File:      HaiOS/Fs/Read.lean
  Subject:   READING A FILE AND ITS CHECKSUM (kernel/fs.c: adler32_update, inode_checksum,
             verify_inode_checksum, readi), and the rules for `readi` and `writei` as a whole.

  * `adler32Update_append` -- the checksum does not depend on how the data is cut into blocks;
  * `content` -- the bytes of a file; `Sound` -- its blocks cover its size, empty slots come last,
    and it is not longer than a file can be;
  * `inodeChecksum_runs`, `readi_runs` -- for a sound file neither changes anything, and they
    return what the contents say.
-/
import HaiOS.Fs.Content

namespace HaiOS

open Lib Function

/-! ## 1. Adler-32 -/

section Adler

theorem pack_low {a b : UInt32} (ha : a.toNat < 65536) : (b <<< 16 ||| a) &&& 0xffff = a := by
  apply UInt32.toNat_inj.mp
  have h1 : (0xffff : UInt32).toNat = 2 ^ 16 - 1 := rfl
  have h2 : (16 : UInt32).toNat = 16 := rfl
  rw [UInt32.toNat_and, UInt32.toNat_or, UInt32.toNat_shiftLeft, h1, h2,
    Nat.and_two_pow_sub_one_eq_mod, Nat.or_mod_two_pow]
  have h3 : b.toNat <<< (16 % 32) % 2 ^ 32 % 2 ^ 16 = 0 := by
    rw [Nat.shiftLeft_eq]
    show b.toNat * 2 ^ 16 % 2 ^ 32 % 2 ^ 16 = 0
    omega
  rw [h3, Nat.zero_or]
  exact Nat.mod_eq_of_lt ha

theorem pack_high {a b : UInt32} (ha : a.toNat < 65536) (hb : b.toNat < 65536) :
    ((b <<< 16 ||| a) >>> 16) &&& 0xffff = b := by
  apply UInt32.toNat_inj.mp
  have h1 : (0xffff : UInt32).toNat = 2 ^ 16 - 1 := rfl
  have h2 : (16 : UInt32).toNat = 16 := rfl
  rw [UInt32.toNat_and, UInt32.toNat_shiftRight, UInt32.toNat_or, UInt32.toNat_shiftLeft, h1, h2,
    Nat.and_two_pow_sub_one_eq_mod, Nat.shiftRight_or_distrib]
  have h3 : a.toNat >>> (16 % 32) = 0 := by
    rw [Nat.shiftRight_eq_div_pow]
    show a.toNat / 2 ^ 16 = 0
    omega
  have h4 : (b.toNat <<< (16 % 32) % 2 ^ 32) >>> (16 % 32) = b.toNat := by
    rw [Nat.shiftRight_eq_div_pow, Nat.shiftLeft_eq]
    show b.toNat * 2 ^ 16 % 2 ^ 32 / 2 ^ 16 = b.toNat
    omega
  rw [h3, h4, Nat.or_zero]
  exact Nat.mod_eq_of_lt hb

/-- The two halves stay below `2 ^ 16`. -/
theorem adler_halves (data : List UInt8) {p : UInt32 × UInt32} (h : p.1.toNat < 65536 ∧ p.2.toNat < 65536) :
    (data.foldl adlerStep p).1.toNat < 65536 ∧ (data.foldl adlerStep p).2.toNat < 65536 := by
  induction data generalizing p with
  | nil => exact h
  | cons x data ih =>
    refine ih ⟨?_, ?_⟩
    · have : ((p.1 + x.toUInt32) % 65521).toNat < 65521 := by
        rw [UInt32.toNat_mod]
        exact Nat.mod_lt _ (by decide)
      exact lt_trans this (by decide)
    · have : ((p.2 + (p.1 + x.toUInt32) % 65521) % 65521).toNat < 65521 := by
        rw [UInt32.toNat_mod]
        exact Nat.mod_lt _ (by decide)
      exact lt_trans this (by decide)

theorem and_ffff_lt (a : UInt32) : (a &&& 0xffff).toNat < 65536 := by
  have h1 : (0xffff : UInt32).toNat = 2 ^ 16 - 1 := rfl
  rw [UInt32.toNat_and, h1, Nat.and_two_pow_sub_one_eq_mod]
  exact Nat.mod_lt _ (by decide)

/-- **Block after block is the same as all at once.** -/
theorem adler32Update_append (a : UInt32) (xs ys : List UInt8) :
    adler32Update (adler32Update a xs) ys = adler32Update a (xs ++ ys) := by
  unfold adler32Update
  obtain ⟨h1, h2⟩ := adler_halves xs (p := (a &&& 0xffff, (a >>> 16) &&& 0xffff))
    ⟨and_ffff_lt a, and_ffff_lt _⟩
  simp only [pack_low h1, pack_high h1 h2, List.foldl_append]

theorem adler32_append (xs ys : List UInt8) :
    adler32Update (adler32 xs) ys = adler32 (xs ++ ys) :=
  adler32Update_append 1 xs ys

theorem adler32_nil : adler32 [] = 1 := by decide

end Adler

/-! ## 2. Sound files -/

/-- The bytes of the file with the inode `d`. -/
def content (s : Fs) (d : Dinode) : List UInt8 :=
  slice (fileBytes (view s) (blocksOf d.extents.1)) 0 d.size.toNat

/-- **The blocks of the file cover its size, its empty slots come last, and it is not longer than
    a file can be.** -/
structure Sound (d : Dinode) : Prop where
  covered : d.size.toNat ≤ BSIZE * (blocksOf d.extents.1).length
  packed : Packed d.extents.1
  small : d.size.toNat ≤ MAXFILE * BSIZE

theorem length_content (s : Fs) (d : Dinode) : (content s d).length = d.size.toNat :=
  length_slice ..

/-- The value of `inode_checksum` for the file. -/
def sumOf (s : Fs) (d : Dinode) : UInt32 := if d.checked then adler32 (content s d) else 1

/-- The number of blocks, as long as rounding the size up does not wrap around. -/
theorem checksumBlocks_eq {size : UInt32} (h : size.toNat + BSIZE ≤ 2 ^ 32) :
    checksumBlocks size = (size.toNat + BSIZE - 1) / BSIZE := by
  unfold checksumBlocks
  have h1 : (1024 : UInt32).toNat = 1024 := rfl
  have h2 : (1 : UInt32).toNat = 1 := rfl
  have h3 : (size + 1024 - 1).toNat = size.toNat + 1023 := by
    rw [UInt32.toNat_sub, UInt32.toNat_add, h1, h2]
    simp only [BSIZE] at h
    omega
  rw [UInt32.toNat_div, h3, h1]
  rfl

theorem Sound.rounds {d : Dinode} (h : Sound d) : d.size.toNat + BSIZE ≤ 2 ^ 32 := by
  have := h.small
  simp only [MAXFILE, BSIZE] at *
  omega

section Rules

variable {G : Nat → Prop} {F : Frame} {P : Panic → Fs → Prop} {s : Fs} {ip bn b : Nat}
  (hP : ∀ p s, Starved p s → P p s)

theorem bmap_hit (h : (blocksOf (s.itable ip).din.extents.1)[bn]? = some b) :
    bmap ip bn s = .ok b s := by
  simp only [bmap, inode, Routine.gets_bind]
  rw [bmapScan_eq _ _ _ _ (Nat.zero_le bn), Nat.sub_zero, h]
  rfl

/-- The blocks of a file are not block 0, the value `bmap` returns on a full disk. -/
theorem Holds.ne_zero (hok : FsOk G s) (hx : Holds s (s.itable ip))
    (hb : b ∈ blocksOf (s.itable ip).din.extents.1) : b ≠ 0 := by
  have h1 := hok.layout.log
  have h2 := hok.layout.inode_le
  have h3 := hok.layout.bmap_le
  have h4 := (hx.data b hb).1
  omega

theorem Holds.of_touch {s' : Fs} {x : Inode} (hx : Holds s x) (hok : FsOk G s) (ht : Touch G F s s')
    (hF : ∀ b, ¬ F.blocks b) : Holds s' x := by
  have hb := ht.bits_eq hok.layout hok.metaIn fun b _ _ => hF b
  exact ⟨by rw [ht.sb]; exact hx.inum, hx.nodup, by rw [hb]; exact hx.used, by
    rw [ht.sb]
    exact hx.data⟩

include hP

section

variable (hok : FsOk G s) (hx : Holds s (s.itable ip))
include hok hx

/-- The rule of `bmap`, `bread`, `brelse` for a block the file has. -/
theorem readBlock_runs {α : Type} {f : Block → FsM α} {z : FsM α} {Q : α → Fs → Prop}
    (h : (blocksOf (s.itable ip).din.extents.1)[bn]? = some b)
    (hf : ∀ s', Touch G .nothing s s' → FsOk G s' → (f (view s b) s').Runs (Touch G F) P s' Q) :
    ((bmap ip bn >>= fun addr => if addr = 0 then z else
      bread addr >>= fun d => brelse addr >>= fun _ => f d) s).Runs (Touch G F) P s Q := by
  rw [Routine.bind_ok (bmap_hit h)]
  refine runs_ite (fun h0 => absurd h0 (hx.ne_zero hok (List.mem_of_getElem? h))) fun _ => ?_
  refine peek_runs hP hok.ready fun s' ht _ hr => hf s' ht ?_
  exact (hok.still ht (fun _ hf => hf) hr).2.2

/-- The loop of `inode_checksum`, with the checksum of `pre` so far. -/
theorem checksumLoop_runs {n size blocks : Nat} {pre : List UInt8} (hn : bn + n = blocks)
    (hcov : blocks ≤ (blocksOf (s.itable ip).din.extents.1).length) (hsize : size ≤ blocks * BSIZE)
    (hlast : blocks * BSIZE < size + BSIZE) :
    (checksumLoop ip size blocks n bn (adler32 pre) s).Runs (Touch G .nothing) P s fun r s' =>
      Ready G s' ∧ ((∀ b, G b) → r = adler32 (pre ++
        slice (fileBytes (view s) (blocksOf (s.itable ip).din.extents.1)) (bn * BSIZE)
          (size - bn * BSIZE))) := by
  induction n generalizing s bn pre with
  | zero =>
    refine touch_pure ⟨hok.ready, fun _ => ?_⟩
    have h0 : size - bn * BSIZE = 0 := by
      simp only [BSIZE] at *
      omega
    simp [h0]
  | succ n ih =>
    simp only [checksumLoop]
    have hlt : bn < (blocksOf (s.itable ip).din.extents.1).length := by omega
    refine readBlock_runs hP hok hx (List.getElem?_eq_getElem hlt) fun s1 ht hok1 => ?_
    have hit : s1.itable = s.itable := ht.itable_eq fun _ hf => hf
    generalize hchunk : (if bn = blocks - 1 then size - bn * BSIZE else BSIZE) = chunk
    have hc : chunk ≤ BSIZE ∧ size - bn * BSIZE = chunk + (size - (bn + 1) * BSIZE) ∧
        (size - (bn + 1) * BSIZE ≠ 0 → chunk = BSIZE) := by
      subst hchunk
      simp only [BSIZE] at *
      split <;> omega
    have hx1 : Holds s1 (s1.itable ip) := by
      rw [hit]
      exact hx.of_touch hok ht fun _ hf => hf
    rw [adler32_append]
    refine (@ih s1 (bn + 1) hok1 hx1 _ (by omega) (by rw [hit]; exact hcov)).imp
      fun r s' _ hq => ⟨hq.1, fun hG => ?_⟩
    have hv : view s1 = view s := funext fun c => ht.view c (hG c) fun h => h
    have hoff : bn * BSIZE / BSIZE = bn := Nat.mul_div_cancel bn (by decide)
    have hmod : bn * BSIZE % BSIZE = 0 := Nat.mul_mod_left bn BSIZE
    have hblk := slice_fileBytes (v := view s) (m := chunk)
      (by rw [hoff]; exact List.getElem?_eq_getElem hlt) (by rw [hmod]; omega)
    rw [hmod] at hblk
    have hrest : slice (fileBytes (view s) (blocksOf (s.itable ip).din.extents.1))
        (bn * BSIZE + chunk) (size - (bn + 1) * BSIZE) =
        slice (fileBytes (view s) (blocksOf (s.itable ip).din.extents.1))
        ((bn + 1) * BSIZE) (size - (bn + 1) * BSIZE) := by
      by_cases h0 : size - (bn + 1) * BSIZE = 0
      · rw [h0, slice_zero, slice_zero]
      · rw [hc.2.2 h0, Nat.succ_mul]
    rw [hq.2 hG, hv, hit, hc.2.1, slice_add, List.append_assoc, hblk, hrest]

/-- **`inode_checksum`** of a file whose blocks cover its size is the checksum of its contents. -/
theorem inodeChecksum_covered (hcov : (s.itable ip).din.size.toNat ≤
      BSIZE * (blocksOf (s.itable ip).din.extents.1).length)
    (hsize : (s.itable ip).din.size.toNat + BSIZE ≤ 2 ^ 32) :
    (inodeChecksum ip s).Runs (Touch G .nothing) P s fun r s' =>
      Ready G s' ∧ ((∀ b, G b) → r = sumOf s (s.itable ip).din) := by
  simp only [inodeChecksum, inode, Routine.gets_bind]
  refine runs_ite (fun hc => ?_) fun hc => touch_pure ⟨hok.ready, fun _ => (if_neg hc).symm⟩
  have hb := checksumBlocks_eq hsize
  rw [← adler32_nil]
  refine (checksumLoop_runs hP hok hx (Nat.zero_add _) ?_ ?_ ?_).imp
    fun r s' _ hq => ⟨hq.1, fun hG => ?_⟩
  · rw [hb]
    simp only [BSIZE] at *
    omega
  · rw [hb]
    simp only [BSIZE] at *
    omega
  · rw [hb]
    simp only [BSIZE] at *
    omega
  · rw [hq.2 hG, sumOf, if_pos hc]
    simp [content]

theorem inodeChecksum_runs (hs : Sound (s.itable ip).din) :
    (inodeChecksum ip s).Runs (Touch G .nothing) P s fun r s' =>
      Ready G s' ∧ ((∀ b, G b) → r = sumOf s (s.itable ip).din) :=
  inodeChecksum_covered hP hok hx hs.covered hs.rounds

/-- The loop of `readi`, for bytes the file has. -/
theorem readiLoop_runs {bad : Option Nat} {n fuel tot off : Nat} {out : List UInt8}
    (hfuel : n - tot ≤ fuel) (htot : tot ≤ n)
    (hcov : off + (n - tot) ≤ BSIZE * (blocksOf (s.itable ip).din.extents.1).length) :
    (readiLoop ip bad n fuel tot off out s).Runs (Touch G .nothing) P s fun r s' =>
      Ready G s' ∧ ((∀ b, G b) → (∀ k, bad = some k → n ≤ k) →
        r = (UInt32.ofNat n, out ++
          slice (fileBytes (view s) (blocksOf (s.itable ip).din.extents.1)) off (n - tot))) := by
  have hend : tot = n → ((pure (UInt32.ofNat tot, out) : FsM (UInt32 × List UInt8)) s).Runs
      (Touch G .nothing) P s fun r s' =>
      Ready G s' ∧ ((∀ b, G b) → (∀ k, bad = some k → n ≤ k) →
        r = (UInt32.ofNat n, out ++
          slice (fileBytes (view s) (blocksOf (s.itable ip).din.extents.1)) off (n - tot))) := by
    rintro rfl
    exact touch_pure ⟨hok.ready, fun _ _ => by simp⟩
  induction fuel generalizing s tot off out with
  | zero => exact hend (by omega)
  | succ fuel ih =>
    simp only [readiLoop]
    refine runs_ite (fun hlt => ?_) fun _ => hend (by omega)
    clear hend
    have hbn : off / BSIZE < (blocksOf (s.itable ip).din.extents.1).length := by
      simp only [BSIZE] at *
      omega
    refine readBlock_runs hP hok hx (List.getElem?_eq_getElem hbn) fun s1 ht hok1 => ?_
    have hit : s1.itable = s.itable := ht.itable_eq fun _ hf => hf
    generalize hmeq : min (n - tot) (BSIZE - off % BSIZE) = m
    have hm : off % BSIZE + m ≤ BSIZE ∧ 0 < m ∧ tot + m ≤ n := by
      simp only [BSIZE] at *
      omega
    refine runs_ite (fun hf => ?_) fun hf => ?_
    · obtain ⟨k, hk, hkm⟩ := faults_true hf
      refine touch_pure ⟨hok1.ready, fun _ hno => ?_⟩
      have := hno k hk
      omega
    · have hx1 : Holds s1 (s1.itable ip) := by
        rw [hit]
        exact hx.of_touch hok ht fun _ hf => hf
      refine (@ih s1 hok1 hx1 (tot + m) (off + m) _ (by omega) hm.2.2
        (by rw [hit]; omega) ?_).imp fun r s' _ hq => ⟨hq.1, fun hG hno => ?_⟩
      · intro e
        rw [e]
        exact touch_pure ⟨hok1.ready, fun _ _ => by simp⟩
      · have hv : view s1 = view s := funext fun c => ht.view c (hG c) fun h => h
        have hblk := slice_fileBytes (v := view s) (List.getElem?_eq_getElem hbn) hm.1
        have hsplit : n - tot = m + (n - (tot + m)) := by omega
        rw [hq.2 hG hno, hv, hit, hsplit, slice_add, hblk, List.append_assoc]

end

/-- Only the error counter may change. -/
def Frame.errors : Frame := ⟨fun _ => False, fun _ => False, True⟩

omit hP in
theorem touch_countError (s : Fs) :
    Touch G .errors s { s with checksumErrors := s.checksumErrors + 1 } :=
  ⟨rfl, rfl, rfl, rfl, ⟨[], by simp, by simp⟩, fun h => h, fun _ _ => Or.inl rfl,
    fun _ _ => rfl,
    fun h => absurd trivial h⟩

/-- **The checksum of the inode is the one of its contents.** -/
def Summed (s : Fs) (d : Dinode) : Prop := d.checked → d.checksum = adler32 (content s d)

theorem verifyInodeChecksum_runs (hok : FsOk G s) (hx : Holds s (s.itable ip))
    (hs : Sound (s.itable ip).din) :
    (verifyInodeChecksum ip s).Runs (Touch G .errors) P s fun _ s' =>
      Ready G s' ∧ ((∀ b, G b) → Summed s (s.itable ip).din →
        s'.checksumErrors = s.checksumErrors) := by
  simp only [verifyInodeChecksum, inode, Routine.gets_bind]
  refine runs_ite (fun hc => ?_) fun hc => touch_pure ⟨hok.ready, fun _ _ => rfl⟩
  refine touch_bind (Frame.nothing_le _) (inodeChecksum_runs hP hok hx hs) fun r s1 ht hq => ?_
  have hit : s1.itable = s.itable := ht.itable_eq fun _ hf => hf
  have herr : s1.checksumErrors = s.checksumErrors := ht.errs fun h => h
  rw [Routine.gets_bind, hit]
  refine runs_ite (fun _ => touch_pure ⟨hq.1, fun _ _ => herr⟩) fun hne => ?_
  refine ⟨touch_countError s1, ⟨⟨hq.1.cached.bufs, hq.1.cached.clean⟩, hq.1.nodup, hq.1.len⟩,
    fun hG hsum => ?_⟩
  exact absurd ((hq.2 hG).trans ((if_pos hc).trans (hsum hc).symm)) hne

omit hP in
/-- Where a read ends. -/
theorem readLen_add {size off n : UInt32} (h1 : ¬ size < off) (h2 : ¬ off + n < off) :
    off.toNat + (readLen size off n).toNat = min (off + n).toNat size.toNat := by
  have h1' : off.toNat ≤ size.toNat := UInt32.le_iff_toNat_le.mp (UInt32.not_lt.mp h1)
  have h2' : off.toNat ≤ (off + n).toNat := UInt32.le_iff_toNat_le.mp (UInt32.not_lt.mp h2)
  have hadd : (off + n).toNat = off.toNat + n.toNat := by
    rw [UInt32.toNat_add] at h2' ⊢
    have := off.toNat_lt
    have := n.toNat_lt
    omega
  unfold readLen
  split
  · rename_i h3
    have h3' : size.toNat < (off + n).toNat := UInt32.lt_iff_toNat_lt.mp h3
    rw [UInt32.toNat_sub_of_le _ _ (UInt32.not_lt.mp h1)]
    omega
  · rename_i h3
    have h3' : (off + n).toNat ≤ size.toNat := UInt32.le_iff_toNat_le.mp (UInt32.not_lt.mp h3)
    omega

/-- The number of bytes a read of `n` bytes at `off` returns. -/
def readCount (size off n : UInt32) : Nat :=
  if size < off ∨ off + n < off then 0 else (readLen size off n).toNat

/-- **`readi`** of a sound file returns its bytes and finds no error in its checksum. -/
theorem readi_runs {bad : Option Nat} {off n : UInt32} (hok : FsOk G s)
    (hx : Holds s (s.itable ip)) (hs : Sound (s.itable ip).din) :
    (readi ip bad off n s).Runs (Touch G .errors) P s fun r s' =>
      Ready G s' ∧
      ((∀ b, G b) → (∀ k, bad = some k → readCount (s.itable ip).din.size off n ≤ k) →
        r = ((UInt32.ofNat (readCount (s.itable ip).din.size off n)).toInt32,
          ((content s (s.itable ip).din).drop off.toNat).take
            (readCount (s.itable ip).din.size off n))) ∧
      ((∀ b, G b) → Summed s (s.itable ip).din → s'.checksumErrors = s.checksumErrors) := by
  simp only [readi, inode, Routine.gets_bind]
  refine runs_ite (fun h => ?_) fun h => ?_
  · refine touch_pure ⟨hok.ready, fun _ _ => ?_, fun _ _ => rfl⟩
    simp only [readCount, if_pos h]
    rfl
  have hadd := readLen_add (fun h1 => h (Or.inl h1)) fun h2 => h (Or.inr h2)
  have hcount : readCount (s.itable ip).din.size off n =
      (readLen (s.itable ip).din.size off n).toNat := if_neg h
  rw [hcount]
  generalize (readLen (s.itable ip).din.size off n).toNat = m at hadd ⊢
  have hle : off.toNat + m ≤ (s.itable ip).din.size.toNat := by omega
  have hcov := hs.covered
  refine touch_bind (Frame.nothing_le _) (readiLoop_runs hP hok hx (by omega) (Nat.zero_le m)
    (by omega)) fun r s1 ht hq => ?_
  have hit : s1.itable = s.itable := ht.itable_eq fun _ hf => hf
  have herr : s1.checksumErrors = s.checksumErrors := ht.errs fun h => h
  have hval : (∀ b, G b) → (∀ k, bad = some k → m ≤ k) →
      (r.1.toInt32, r.2) = ((UInt32.ofNat m).toInt32,
        ((content s (s.itable ip).din).drop off.toNat).take m) := by
    intro hG hno
    rw [hq.2 hG hno]
    simp only [content, List.nil_append, Nat.sub_zero]
    rw [slice_drop _ _ _ _ (by omega), slice_take _ _ _ _ (by omega), Nat.zero_add]
  rw [Routine.gets_bind]
  refine runs_ite (fun _ => ?_) fun _ => touch_pure ⟨hq.1, hval, fun _ _ => herr⟩
  have hok1 := (hok.still ht (fun _ hf => hf) hq.1).2.2
  refine touch_bind (Frame.Le.refl _) (verifyInodeChecksum_runs hP hok1 (by
    rw [hit]
    exact hx.of_touch hok ht fun _ hf => hf) (by rw [hit]; exact hs)) fun _ s2 ht2 hq2 => ?_
  refine touch_pure ⟨hq2.1, hval, fun hG hsum => ?_⟩
  rw [hq2.2 hG ?_, herr]
  have hv : view s1 = view s := funext fun c => ht.view c (hG c) fun h => h
  rw [hit]
  unfold Summed content
  rw [hv]
  exact hsum

end Rules

/-! ## 3. Files that may not be sound

`bmap` allocates when the blocks of a file do not cover its size, in `inode_checksum` too. -/

section Any

variable {G : Nat → Prop} {F : Frame} {P : Panic → Fs → Prop} {s : Fs} {ip bn b : Nat}

/-- Free blocks may be allocated, for the inode in slot `ip`. -/
structure AnyFrame (F : Frame) (s : Fs) (ip : Nat) : Prop where
  slot : F.slots ip
  free : ∀ c, bits s c = false → F.blocks (bblock s.sb c) ∧ F.blocks c

theorem AnyFrame.of_extended {new : List Nat} {es : Extents} {s' : Fs} (h : AnyFrame F s ip)
    (hext : Extended G ip new es s s') : AnyFrame F s' ip := by
  refine ⟨h.slot, fun c hc => ?_⟩
  rw [hext.bits] at hc
  rw [hext.sb]
  exact h.free c (mark_eq_false.mp hc).1

theorem AnyFrame.grow {m : Nat} {es : Extents} (h : AnyFrame F s ip) :
    ∀ c ∈ (grow s.sb.size m (bits s) es).new, F.blocks (bblock s.sb c) ∧ F.blocks c :=
  fun c hc => h.free c ((grow_fresh (bits_outside s) m).2 c hc).1

variable (hP : ∀ p s, Exhausted p s → P p s)
include hP

variable (hok : FsOk G s) (hx : Holds s (s.itable ip))
include hok hx

theorem checksumLoop_any {n size blocks : Nat} {adler : UInt32}
    (hF : AnyFrame F s ip) (hover : ∀ s', P .bmapExtentOverflow s') :
    (checksumLoop ip size blocks n bn adler s).Runs (Touch G F) P s fun _ s' =>
      ∃ new es, Extended G ip new es s s' := by
  induction n generalizing s bn adler with
  | zero => exact touch_pure ⟨[], _, Extended.nil hok⟩
  | succ n ih =>
    simp only [checksumLoop]
    have hlt : ∀ c ∈ blocksOf (s.itable ip).din.extents.1, c < s.sb.size :=
      fun c hc => (hx.data c hc).2
    refine touch_bind (Frame.Le.refl F) (bmap_runs hP hok hlt rfl hF.slot hF.grow
      fun _ => hover) fun addr s1 ht1 hq1 => ?_
    obtain ⟨-, -, hno, hgrown⟩ := hq1
    have hext := hgrown.extended hok hlt rfl hno
    refine runs_ite (fun _ => touch_pure ⟨_, _, hext⟩) fun _ => ?_
    refine peek_runs (starved_of hP) hext.ok.ready fun s2 ht2 _ hr2 => ?_
    have hext2 := hext.quiet ht2 (fun _ h => h.elim) (fun _ h => h) hr2
    refine (@ih s2 (bn + 1) hext2.ok (hext2.holds hok hx) _
      (hF.of_extended hext2)).imp fun r s' _ hq => ?_
    obtain ⟨new, es, h⟩ := hq
    exact ⟨_, es, hext2.trans h⟩

/-- `writei`'s new checksum, for any file. -/
theorem rechecksum_any (hF : AnyFrame F s ip) (hover : ∀ s', P .bmapExtentOverflow s') :
    (rechecksum ip s).Runs (Touch G F) P s fun _ s' =>
      ∃ new es c s1, Extended G ip new es s s1 ∧ s' = s1.setSlot ip ((s1.itable ip).withSum c) := by
  simp only [rechecksum, inodeChecksum, inode, Routine.gets_bind]
  refine runs_ite (fun hc => ?_) fun _ => touch_pure ⟨[], _, (s.itable ip).din.checksum, s,
    Extended.nil hok, ?_⟩
  · refine touch_bind (Frame.Le.refl F) (m := Routine.gets (·.itable ip) >>= _)
      (Q := fun _ s' => ∃ new es, Extended G ip new es s s') ?_ fun c s1 ht1 hq1 => ?_
    · rw [Routine.gets_bind, if_pos hc]
      exact checksumLoop_any hP hok hx hF hover
    · obtain ⟨new, es, hext⟩ := hq1
      refine ((setInode_runs _).imp fun _ s2 _ hq2 => ?_).mono
        (fun s' ht => ht.mono (Frame.slot_le hF.slot)) fun _ _ hp => hp
      exact ⟨new, es, c, s1, hext, hq2⟩
  · show s = { s with itable := _ }
    have : (s.itable ip).withSum (s.itable ip).din.checksum = s.itable ip := rfl
    rw [this, update_eq_self]

/-- `writei`'s new checksum, for a sound file. -/
theorem rechecksum_runs (hs : Sound (s.itable ip).din) :
    (rechecksum ip s).Runs (Touch G (.slot ip)) P s fun _ s' => ∃ c,
      s'.itable = update s.itable ip ((s.itable ip).withSum c) ∧ Ready G s' ∧
      ((∀ b, G b) → (s.itable ip).din.checked → c = adler32 (content s (s.itable ip).din)) ∧
      (¬ (s.itable ip).din.checked → c = (s.itable ip).din.checksum) := by
  simp only [rechecksum, inode, Routine.gets_bind]
  refine runs_ite (fun hc => ?_) fun hc => touch_pure ⟨(s.itable ip).din.checksum, ?_, hok.ready,
    fun _ h => absurd h hc, fun _ => rfl⟩
  · refine touch_bind (Frame.nothing_le _) (inodeChecksum_runs (starved_of hP) hok hx hs) fun c s1 ht1 hq1 => ?_
    refine (setInode_runs _).imp fun _ s2 _ hq2 => ?_
    have hit : s1.itable = s.itable := ht1.itable_eq fun _ hf => hf
    refine ⟨c, ?_, ?_, fun hG _ => (hq1.2 hG).trans (if_pos hc), fun h => absurd hc h⟩
    · rw [hq2, setSlot_itable, hit]
    · rw [hq2]
      exact ready_setSlot hq1.1 ip _
  · have : (s.itable ip).withSum (s.itable ip).din.checksum = s.itable ip := rfl
    rw [this, update_eq_self]

end Any

end HaiOS
