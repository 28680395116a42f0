/-
  File:      HaiOS/Fs/File.lean
  Subject:   FILE CONTENTS (kernel/fs.c: adler32_update, inode_checksum, verify_inode_checksum,
             itrunc, iput, readi, writei), and the rules for `itrunc` and `iput`.

  A copy to or from user memory can fail part way: `Src` and the argument `bad` of `readi` say
  at which byte.

  * `itrunc_runs` -- the blocks of the file are free, its size is 0;
  * `iput_runs` -- the last reference to an inode without links frees the inode.
-/
import HaiOS.Fs.Inode

namespace HaiOS

open Lib Function

/-! ## 1. The routines -/

/-- `a` and `b` of `adler32_update` after one more byte. -/
def adlerStep (p : UInt32 × UInt32) (x : UInt8) : UInt32 × UInt32 :=
  let a := (p.1 + x.toUInt32) % 65521
  (a, (p.2 + a) % 65521)

def adler32Update (adler : UInt32) (data : List UInt8) : UInt32 :=
  let p := data.foldl adlerStep (adler &&& 0xffff, (adler >>> 16) &&& 0xffff)
  (p.2 <<< 16) ||| p.1

/-- The checksum of a file with these contents. -/
def adler32 (data : List UInt8) : UInt32 := adler32Update 1 data

/-- Does the inode have a checksum? -/
def Dinode.checked (d : Dinode) : Prop := d.type = T_FILE ∨ d.type = T_DIR

instance (d : Dinode) : Decidable d.checked := inferInstanceAs (Decidable (_ ∨ _))

/-- The loop of `inode_checksum` over `n` blocks from `bn` on. -/
def checksumLoop (ip size blocks : Nat) : Nat → Nat → UInt32 → FsM UInt32
  | 0, _, adler => pure adler
  | n + 1, bn, adler => do
    let addr ← bmap ip bn
    if addr = 0 then pure adler
    else do
      let d ← bread addr
      brelse addr
      let chunk := if bn = blocks - 1 then size - bn * BSIZE else BSIZE
      checksumLoop ip size blocks n (bn + 1) (adler32Update adler (slice d 0 chunk))

/-- `(ip->size + BSIZE - 1) / BSIZE`. -/
def checksumBlocks (size : UInt32) : Nat := ((size + 1024 - 1) / 1024).toNat

def inodeChecksum (ip : Nat) : FsM UInt32 := do
  let x ← inode ip
  if x.din.checked then
    checksumLoop ip x.din.size.toNat (checksumBlocks x.din.size) (checksumBlocks x.din.size) 0 1
  else pure 1

def countError : FsM Unit :=
  Routine.update fun s => { s with checksumErrors := s.checksumErrors + 1 }

def verifyInodeChecksum (ip : Nat) : FsM Unit := do
  let x ← inode ip
  if x.din.checked then do
    let sum ← inodeChecksum ip
    let x ← inode ip
    if sum = x.din.checksum then pure () else countError
  else pure ()

/-- `for(...) bfree(...)`. -/
def bfreeAll : List Nat → FsM Unit
  | [] => pure ()
  | b :: l => do
    bfree b
    bfreeAll l

/-- `ip->extents[i]` becomes empty. -/
def Extents.clear (es : Extents) (i : Nat) : Extents := ⟨es.1.set i ⟨0, 0⟩, by simp [es.2]⟩

/-- The loop of `itrunc` over `n` slots from `i` on. -/
def itruncLoop (ip : Nat) : Nat → Nat → FsM Unit
  | 0, _ => pure ()
  | n + 1, i => do
    let x ← inode ip
    match x.din.extents.1[i]? with
    | none => pure ()
    | some e =>
      if e.len = 0 then itruncLoop ip n (i + 1)
      else do
        bfreeAll e.blocks
        setInode ip fun x => x.withExtents (x.din.extents.clear i)
        itruncLoop ip n (i + 1)

/-- The fields `itrunc` sets after its loop. -/
def Inode.emptied (x : Inode) : Inode :=
  { x with din := { x.din with size := 0, checksum := 1 }, cache := x.cache.reset }

/-- Truncate inode (discard contents). -/
def itrunc (ip : Nat) : FsM Unit := do
  itruncLoop ip NEXTENT 0
  setInode ip Inode.emptied
  iupdate ip

/-- The branch of `iput` for the last reference to an inode without links. -/
def ifree (ip : Nat) : FsM Unit := do
  itrunc ip
  setInode ip fun x => { x with din := { x.din with type := 0 } }
  iupdate ip
  setInode ip fun x => { x with valid := false }

/-- `ip->ref == 1 && ip->valid && ip->nlink == 0`. -/
def Inode.last (x : Inode) : Prop := x.ref = 1 ∧ x.valid = true ∧ x.din.nlink = 0

instance (x : Inode) : Decidable x.last := inferInstanceAs (Decidable (_ ∧ _))

/-- The first part of `iput`. -/
def ifreeLast (ip : Nat) : FsM Unit := do
  let x ← inode ip
  if x.last then ifree ip else pure ()

/-- `ip->ref--`. -/
def Inode.drop (x : Inode) : Inode := { x with ref := x.ref - 1 }

/-- Drop a reference to an in-memory inode. -/
def iput (ip : Nat) : FsM Unit := do
  ifreeLast ip
  setInode ip Inode.drop

/-- Common idiom: unlock, then put. -/
def iunlockput (ip : Nat) : FsM Unit := do
  iunlock ip
  iput ip

/-- Does a copy of the first `k` bytes fail, when the one at `bad` cannot be copied? -/
def faults (bad : Option Nat) (k : Nat) : Bool :=
  match bad with
  | none => false
  | some j => decide (j < k)

/-- The loop of `readi`: `tot` and the bytes copied to `dst`. -/
def readiLoop (ip : Nat) (bad : Option Nat) (n : Nat) :
    Nat → Nat → Nat → List UInt8 → FsM (UInt32 × List UInt8)
  | 0, tot, _, out => pure (UInt32.ofNat tot, out)
  | fuel + 1, tot, off, out =>
    if tot < n then do
      let addr ← bmap ip (off / BSIZE)
      if addr = 0 then pure (UInt32.ofNat tot, out)
      else do
        let d ← bread addr
        let m := min (n - tot) (BSIZE - off % BSIZE)
        brelse addr
        if faults bad (tot + m) then
          pure (-1, out ++ slice d (off % BSIZE) (bad.getD 0 - tot))
        else readiLoop ip bad n fuel (tot + m) (off + m) (out ++ slice d (off % BSIZE) m)
    else pure (UInt32.ofNat tot, out)

/-- `if(off + n > ip->size) n = ip->size - off;` -/
def readLen (size off n : UInt32) : UInt32 := if size < off + n then size - off else n

/-- Read data from inode: the value returned and the bytes copied to `dst`. -/
def readi (ip : Nat) (bad : Option Nat) (off n : UInt32) : FsM (Int32 × List UInt8) := do
  let x ← inode ip
  if x.din.size < off ∨ off + n < off then pure (0, [])
  else do
    let m := (readLen x.din.size off n).toNat
    let r ← readiLoop ip bad m m 0 off.toNat []
    let x ← inode ip
    if off = 0 ∧ r.1 = x.din.size then do
      verifyInodeChecksum ip
      pure (r.1.toInt32, r.2)
    else pure (r.1.toInt32, r.2)

/-- The source of a write: the bytes at `src`, and the first one that cannot be read, if any. -/
structure Src where
  bytes : Store
  bad : Option Nat

/-- The loop of `writei`: `tot` and `off` when it ends. -/
def writeiLoop (ip : Nat) (src : Src) (n : Nat) : Nat → Nat → Nat → FsM (Nat × Nat)
  | 0, tot, off => pure (tot, off)
  | fuel + 1, tot, off =>
    if tot < n then do
      let addr ← bmap ip (off / BSIZE)
      if addr = 0 then pure (tot, off)
      else do
        let d ← bread addr
        let m := min (n - tot) (BSIZE - off % BSIZE)
        if faults src.bad (tot + m) then do
          -- the bytes before the bad one are in the buffer
          abandon addr (patch d (off % BSIZE) (slice src.bytes tot (src.bad.getD 0 - tot)))
          pure (tot, off)
        else do
          logUpdate addr (patch d (off % BSIZE) (slice src.bytes tot m))
          writeiLoop ip src n fuel (tot + m) (off + m)
    else pure (tot, off)

/-- The fields `writei` sets after its loop, before the checksum. -/
def Inode.wrote (x : Inode) (off : Nat) : Inode :=
  { x with
    din := { x.din with size := if x.din.size.toNat < off then UInt32.ofNat off else x.din.size }
    cache := if x.din.type = T_DIR then x.cache.reset else x.cache }

/-- Assign to `ip->checksum`. -/
def Inode.withSum (x : Inode) (c : UInt32) : Inode := { x with din := { x.din with checksum := c } }

/-- `if(ip->type == T_FILE || ip->type == T_DIR) ip->checksum = inode_checksum(ip);` -/
def rechecksum (ip : Nat) : FsM Unit := do
  let x ← inode ip
  if x.din.checked then do
    let c ← inodeChecksum ip
    setInode ip fun x => x.withSum c
  else pure ()

/-- Write data to inode: the number of bytes successfully written, or -1. -/
def writei (ip : Nat) (src : Src) (off n : UInt32) : FsM Int32 := do
  let x ← inode ip
  if x.din.size < off ∨ off + n < off then pure (-1)
  else if MAXFILE * BSIZE < (off + n).toNat then pure (-1)
  else do
    let r ← writeiLoop ip src n.toNat n.toNat 0 off.toNat
    setInode ip fun x => x.wrote r.2
    rechecksum ip
    iupdate ip
    pure (UInt32.ofNat r.1).toInt32

/-! ## 2. Truncation -/

/-- The blocks of `l` are free again. -/
def unmark (used : Nat → Bool) (l : List Nat) : Nat → Bool := fun b => used b && !decide (b ∈ l)

@[simp] theorem unmark_nil (used : Nat → Bool) : unmark used [] = used := by
  funext b
  simp [unmark]

theorem unmark_unmark (used : Nat → Bool) (l l' : List Nat) :
    unmark (unmark used l) l' = unmark used (l ++ l') := by
  funext b
  simp [unmark, Bool.and_assoc]

theorem unmark_cons (used : Nat → Bool) (b : Nat) (l : List Nat) :
    unmark (update used b false) l = unmark used (b :: l) := by
  funext c
  by_cases h : c = b <;> simp [unmark, h]

/-- A slot after `itrunc`. -/
def Extent.cleared (e : Extent) : Extent := if e.len = 0 then e else ⟨0, 0⟩

@[simp] theorem Extent.cleared_len (e : Extent) : e.cleared.len = 0 := by
  unfold Extent.cleared
  split
  · assumption
  · rfl

/-- The slots after `itrunc` has gone through those from `i` on. -/
def clearFrom (i : Nat) (es : Extents) : Extents :=
  ⟨es.1.take i ++ (es.1.drop i).map Extent.cleared, by
    rw [List.length_append, List.length_map, List.length_take, List.length_drop, es.2]
    omega⟩

theorem clearFrom_end (es : Extents) {i : Nat} (h : NEXTENT ≤ i) : clearFrom i es = es := by
  apply Subtype.ext
  have hlen : es.1.length ≤ i := by rw [es.2]; exact h
  simp [clearFrom, List.take_of_length_le hlen, List.drop_eq_nil_of_le hlen]

section Clear

variable {es : Extents} {i : Nat} {e : Extent}

theorem clearFrom_empty (h : es.1[i]? = some e) (h0 : e.len = 0) :
    clearFrom i es = clearFrom (i + 1) es := by
  obtain ⟨hi, rfl⟩ := List.getElem?_eq_some_iff.mp h
  apply Subtype.ext
  have hc : (es.1[i]).cleared = es.1[i] := if_pos h0
  simp only [clearFrom]
  rw [List.drop_eq_getElem_cons hi, List.map_cons, hc, List.take_succ_eq_append_getElem hi,
    List.append_assoc]
  rfl

theorem clearFrom_full (h : es.1[i]? = some e) (h0 : e.len ≠ 0) :
    clearFrom i es = clearFrom (i + 1) (es.clear i) := by
  obtain ⟨hi, rfl⟩ := List.getElem?_eq_some_iff.mp h
  apply Subtype.ext
  have hc : (es.1[i]).cleared = ⟨0, 0⟩ := if_neg h0
  simp only [clearFrom, Extents.clear]
  rw [List.drop_eq_getElem_cons hi, List.map_cons, hc, List.drop_set_of_lt (Nat.lt_succ_self i),
    List.take_set, List.take_succ_eq_append_getElem hi, List.set_append_right _ _ (by
      rw [List.length_take]
      exact Nat.min_le_left _ _)]
  simp [Nat.min_eq_left (Nat.le_of_lt hi)]

theorem blocksOf_drop (h : es.1[i]? = some e) :
    blocksOf (es.1.drop i) = e.blocks ++ blocksOf (es.1.drop (i + 1)) := by
  obtain ⟨hi, rfl⟩ := List.getElem?_eq_some_iff.mp h
  rw [List.drop_eq_getElem_cons hi, blocksOf_cons]

end Clear

theorem cleared_empty (es : Extents) : ∀ e ∈ (clearFrom 0 es).1, e.len = 0 := by
  intro e he
  simp only [clearFrom, List.take_zero, List.drop_zero, List.nil_append] at he
  obtain ⟨x, -, rfl⟩ := List.mem_map.mp he
  exact x.cleared_len

theorem blocksOf_cleared (es : Extents) : blocksOf (clearFrom 0 es).1 = [] :=
  blocksOf_empty (cleared_empty es)

theorem packed_cleared (es : Extents) : Packed (clearFrom 0 es).1 :=
  List.pairwise_of_forall_mem_list fun _ _ e' he' _ => cleared_empty es e' he'

/-- The inode after `itrunc`. -/
def Inode.truncated (x : Inode) : Inode := (x.withExtents (clearFrom 0 x.din.extents)).emptied

/-- The inode after it has been freed. -/
def Inode.freed (x : Inode) : Inode :=
  { x.truncated with din := { x.truncated.din with type := 0 }, valid := false }

/-- **The blocks of inode `x` are different data blocks in use.** -/
structure Holds (s : Fs) (x : Inode) : Prop where
  inum : x.inum < s.sb.ninodes
  nodup : (blocksOf x.din.extents.1).Nodup
  used : ∀ b ∈ blocksOf x.din.extents.1, bits s b = true
  data : ∀ b ∈ blocksOf x.din.extents.1, s.sb.dataStart ≤ b ∧ b < s.sb.size

/-- The blocks of the inode are different blocks in use, wherever they lie. -/
structure Marked (s : Fs) (x : Inode) : Prop where
  inum : x.inum < s.sb.ninodes
  nodup : (blocksOf x.din.extents.1).Nodup
  used : ∀ b ∈ blocksOf x.din.extents.1, bits s b = true
  lt : ∀ b ∈ blocksOf x.din.extents.1, b < s.sb.size

theorem Holds.marked {s : Fs} {x : Inode} (h : Holds s x) : Marked s x :=
  ⟨h.inum, h.nodup, h.used, fun b hb => (h.data b hb).2⟩

section Rules

variable {G : Nat → Prop} {F : Frame} {P : Panic → Fs → Prop} {s : Fs} {ip : Nat} {l : List Nat}
  (hP : ∀ p s, Exhausted p s → P p s)
include hP

/-- Blocks in use, all different, are freed. -/
theorem bfreeAll_runs (hok : Mounted G s) (hn : l.Nodup) (hused : ∀ b ∈ l, bits s b = true)
    (hlt : ∀ b ∈ l, b < s.sb.size)
    (hF : ∀ b ∈ l, F.blocks (bblock s.sb b)) :
    (bfreeAll l s).Runs (Touch G F) P s fun _ s' =>
      bits s' = unmark (bits s) l ∧ dinodes s' = dinodes s ∧ s'.itable = s.itable ∧
      Mounted G s' := by
  induction l generalizing s with
  | nil => exact touch_pure ⟨(unmark_nil _).symm, rfl, rfl, hok⟩
  | cons b l ih =>
    obtain ⟨hb, hn'⟩ := List.nodup_cons.mp hn
    have hbd := hlt b List.mem_cons_self
    refine touch_bind (Frame.block_le (hF b List.mem_cons_self)) (bfree_runs hP hok.layout
      hok.metaIn hok.ready hbd fun hf => ?_) fun _ s1 ht hq => ?_
    · rw [hused b List.mem_cons_self] at hf
      cases hf
    obtain ⟨hb1, hr1⟩ := hq
    have hbb := bblock_bounds hok.layout hbd
    have hd1 : dinodes s1 = dinodes s := ht.dinodes_eq hok.layout hok.metaIn fun c _ h2 hf => by
      rw [show c = bblock s.sb b from hf] at h2
      omega
    have hok1 : Mounted G s1 := hok.next ht.sb hr1
    refine (ih (s := s1) hok1 hn' (fun c hc => ?_) (fun c hc => ?_) fun c hc => ?_).imp
      fun _ s' _ hq => ?_
    · rw [hb1, update_of_ne fun e => hb (by rw [← e]; exact hc)]
      exact hused c (List.mem_cons_of_mem _ hc)
    · rw [ht.sb]
      exact hlt c (List.mem_cons_of_mem _ hc)
    · rw [ht.sb]
      exact hF c (List.mem_cons_of_mem _ hc)
    · obtain ⟨h1, h2, h3, h4⟩ := hq
      refine ⟨by rw [h1, hb1, unmark_cons], h2.trans hd1, ?_, h4⟩
      rw [h3, ht.itable_eq fun _ hf => hf]

/-- The loop of `itrunc` frees the blocks of the slots from `i` on. -/
theorem itruncLoop_runs {n i : Nat} (hi : i + n = NEXTENT) (hok : Mounted G s)
    (hl : blocksOf ((s.itable ip).din.extents.1.drop i) = l) (hn : l.Nodup)
    (hused : ∀ b ∈ l, bits s b = true) (hltl : ∀ b ∈ l, b < s.sb.size)
    (hF : ∀ b ∈ l, F.blocks (bblock s.sb b)) (hslot : F.slots ip) :
    (itruncLoop ip n i s).Runs (Touch G F) P s fun _ s' =>
      bits s' = unmark (bits s) l ∧ dinodes s' = dinodes s ∧
      s'.itable = update s.itable ip
        ((s.itable ip).withExtents (clearFrom i (s.itable ip).din.extents)) ∧ Mounted G s' := by
  induction n generalizing s i l with
  | zero =>
    have hend : (s.itable ip).din.extents.1.drop i = [] :=
      List.drop_eq_nil_of_le (by rw [(s.itable ip).din.extents.2]; omega)
    rw [hend, blocksOf_nil] at hl
    subst hl
    refine touch_pure ⟨(unmark_nil _).symm, rfl, ?_, hok⟩
    rw [clearFrom_end _ (by omega)]
    exact (update_eq_self ip s.itable).symm
  | succ n ih =>
    simp only [itruncLoop, inode, Routine.gets_bind]
    have hlt : i < (s.itable ip).din.extents.1.length := by
      rw [(s.itable ip).din.extents.2]
      omega
    have he : (s.itable ip).din.extents.1[i]? = some (s.itable ip).din.extents.1[i] :=
      List.getElem?_eq_getElem hlt
    generalize (s.itable ip).din.extents.1[i] = e at he
    rw [blocksOf_drop he] at hl
    simp only [he]
    refine runs_ite (fun h0 => ?_) fun h0 => ?_
    · rw [Extent.blocks_eq_nil h0, List.nil_append] at hl
      rw [clearFrom_empty he h0]
      exact ih (by omega) hok hl hn hused hltl hF
    · subst hl
      obtain ⟨hn1, hn2, hdis⟩ := List.nodup_append.mp hn
      refine touch_bind (Frame.Le.refl F) (bfreeAll_runs hP hok hn1
        (fun b hb => hused b (List.mem_append_left _ hb))
        (fun b hb => hltl b (List.mem_append_left _ hb))
        fun b hb => hF b (List.mem_append_left _ hb)) fun _ s1 ht1 hq1 => ?_
      obtain ⟨hb1, hd1, ht1', hok1⟩ := hq1
      refine touch_bind (Frame.slot_le hslot) (setInode_runs _) fun _ s2 ht2 hq2 => ?_
      rw [ht1'] at hq2
      have hx : s2.itable ip =
          (s.itable ip).withExtents ((s.itable ip).din.extents.clear i) := by
        rw [hq2, setSlot_itable, update_self]
      have hsb : s2.sb = s.sb := by rw [hq2]; exact ht1.sb
      have hbits : bits s2 = unmark (bits s) e.blocks := by rw [hq2, bits_setSlot, hb1]
      have hrest : blocksOf ((s2.itable ip).din.extents.1.drop (i + 1)) =
          blocksOf ((s.itable ip).din.extents.1.drop (i + 1)) := by
        rw [hx]
        simp [Inode.withExtents, Extents.clear, List.drop_set_of_lt]
      have hok2 : Mounted G s2 := by
        rw [hq2]
        exact hok1.setSlot ip _
      refine (ih (s := s2) (i := i + 1) (by omega) hok2 hrest hn2 (fun b hb => ?_)
        (fun b hb => ?_) fun b hb => ?_).imp fun _ s' _ hq => ?_
      · have hne : b ∉ e.blocks := fun h => hdis b h b hb rfl
        rw [hbits]
        simp [unmark, hne, hused b (List.mem_append_right _ hb)]
      · rw [hsb]
        exact hltl b (List.mem_append_right _ hb)
      · rw [hsb]
        exact hF b (List.mem_append_right _ hb)
      · obtain ⟨h1, h2, h3, h4⟩ := hq
        refine ⟨by rw [h1, hbits, unmark_unmark], ?_, ?_, h4⟩
        · rw [h2, hq2, dinodes_setSlot, hd1]
        · rw [h3, hx, hq2, setSlot_itable, update_idem, clearFrom_full he h0, ht1']
          rfl

omit hP in
theorem FsOk.setSlot (hok : FsOk G s) (ip : Nat) (x : Inode) : FsOk G (s.setSlot ip x) :=
  ⟨hok.layout, hok.metaIn, hok.reserved, ready_setSlot hok.ready ip x⟩

omit hP in
/-- The blocks of the file have been freed. -/
theorem FsOk.freed {s' : Fs} (hok : FsOk G s) (hx : Holds s (s.itable ip)) (hsb : s'.sb = s.sb)
    (hb : bits s' = unmark (bits s) (blocksOf (s.itable ip).din.extents.1)) (hm : Mounted G s') :
    FsOk G s' := by
  refine hok.next hsb hm.ready fun c hc hu => ?_
  have hn : c ∉ blocksOf (s.itable ip).din.extents.1 := fun hm => by
    have := (hx.data c hm).1
    omega
  rw [hb]
  simp [unmark, hn, hu]

/-- The blocks of the inode in slot `ip` have been freed; the slot and its inode are `x` now. -/
def Emptied (s : Fs) (ip : Nat) (x : Inode) (s' : Fs) : Prop :=
  bits s' = unmark (bits s) (blocksOf (s.itable ip).din.extents.1) ∧
  dinodes s' = update (dinodes s) (s.itable ip).inum x.din ∧ s'.itable = update s.itable ip x

/-- The frame has what `itrunc` writes: the bits of the file's blocks, and its inode. -/
structure Frees (F : Frame) (s : Fs) (ip : Nat) : Prop where
  bitmap : ∀ b ∈ blocksOf (s.itable ip).din.extents.1, F.blocks (bblock s.sb b)
  inode : F.blocks (iblock s.sb (s.itable ip).inum)

/-- A reference to slot `ip` has been dropped. -/
def Dropped (s : Fs) (ip : Nat) (s' : Fs) : Prop :=
  ((s.itable ip).last → Emptied s ip (s.itable ip).freed.drop s') ∧
  (¬ (s.itable ip).last → s' = s.setSlot ip (s.itable ip).drop)

/-- `iupdate` after assignments to the fields of `ip`. -/
theorem iupdate_set (hok : Mounted G s) {x : Inode} (hx : s.itable ip = x)
    (hi : x.inum < s.sb.ninodes) (hF : F.blocks (iblock s.sb x.inum)) :
    (iupdate ip s).Runs (Touch G F) P s fun _ s' =>
      dinodes s' = update (dinodes s) x.inum x.din ∧ bits s' = bits s ∧
      s'.itable = s.itable ∧ Mounted G s' := by
  subst hx
  refine ((iupdate_runs hP hok hi).imp fun _ s' ht hq => ?_).mono
    (fun s' ht => ht.mono (Frame.block_le hF)) fun _ _ hp => hp
  exact ⟨hq.1, hq.2.1, ht.itable_eq fun _ hf => hf, hok.next ht.sb hq.2.2⟩

/-- **`itrunc`** frees the blocks of the file. -/
theorem Mounted.itrunc_runs (hok : Mounted G s) (hx : Marked s (s.itable ip))
    (hF : Frees F s ip) (hslot : F.slots ip) :
    (itrunc ip s).Runs (Touch G F) P s fun _ s' =>
      Emptied s ip (s.itable ip).truncated s' ∧ Mounted G s' := by
  refine touch_bind (Frame.Le.refl F) (itruncLoop_runs hP rfl hok rfl hx.nodup hx.used hx.lt hF.bitmap
    hslot) fun _ s1 ht1 hq1 => ?_
  obtain ⟨hb1, hd1, hi1, hok1⟩ := hq1
  refine touch_bind (Frame.slot_le hslot) (setInode_runs _) fun _ s2 ht2 hq2 => ?_
  subst hq2
  have hslot2 : (s1.setSlot ip (s1.itable ip).emptied).itable =
      update s.itable ip (s.itable ip).truncated := by
    rw [setSlot_itable, hi1, update_idem, update_self]
    rfl
  have hsb : (s1.setSlot ip (s1.itable ip).emptied).sb = s.sb := ht1.sb
  refine (iupdate_set hP (hok1.setSlot ip _) (x := (s.itable ip).truncated)
    (by rw [hslot2, update_self]) (by rw [hsb]; exact hx.inum)
    (by rw [hsb]; exact hF.inode)).imp fun _ s' _ hq => ?_
  obtain ⟨h1, h2, h3, h4⟩ := hq
  refine ⟨⟨by rw [h2, bits_setSlot, hb1, List.drop_zero], ?_, by rw [h3, hslot2]⟩, h4⟩
  rw [h1, dinodes_setSlot, hd1]
  rfl

theorem itrunc_runs (hok : FsOk G s) (hx : Holds s (s.itable ip))
    (hF : Frees F s ip) (hslot : F.slots ip) :
    (itrunc ip s).Runs (Touch G F) P s fun _ s' =>
      Emptied s ip (s.itable ip).truncated s' ∧ FsOk G s' :=
  (Mounted.itrunc_runs hP hok.mounted hx.marked hF hslot).imp fun _ _ ht hq =>
    ⟨hq.1, hok.freed hx ht.sb hq.1.1 hq.2⟩

/-- The inode is freed: its blocks, and the inode itself. -/
theorem ifree_runs (hok : Mounted G s) (hx : Marked s (s.itable ip))
    (hF : Frees F s ip) (hslot : F.slots ip) :
    (ifree ip s).Runs (Touch G F) P s fun _ s' =>
      Emptied s ip (s.itable ip).freed s' ∧ Mounted G s' := by
  refine touch_bind (Frame.Le.refl F) (Mounted.itrunc_runs hP hok hx hF hslot) fun _ s1 ht1 hq1 => ?_
  obtain ⟨⟨hb1, hd1, hi1⟩, hok1⟩ := hq1
  refine touch_bind (Frame.slot_le hslot) (setInode_runs _) fun _ s2 ht2 hq2 => ?_
  have hx1 : s1.itable ip = (s.itable ip).truncated := by rw [hi1, update_self]
  rw [hx1] at hq2
  have hx2 : s2.itable ip = { (s.itable ip).truncated with
      din := { (s.itable ip).truncated.din with type := 0 } } := by
    rw [hq2, setSlot_itable, update_self]
  have hsb : s2.sb = s.sb := by rw [hq2]; exact ht1.sb
  have hok2 : Mounted G s2 := by rw [hq2]; exact hok1.setSlot ip _
  refine touch_bind (Frame.Le.refl F) (iupdate_set hP hok2 hx2 (by rw [hsb]; exact hx.inum)
    (by rw [hsb]; exact hF.inode)) fun _ s3 ht3 hq3 => ?_
  obtain ⟨h1, h2, h3, h4⟩ := hq3
  refine ((setInode_runs _).imp fun _ s4 _ hq4 => ?_).mono
    (fun s' ht => ht.mono (Frame.slot_le hslot)) fun _ _ hp => hp
  rw [hq4]
  refine ⟨⟨?_, ?_, ?_⟩, h4.setSlot ip _⟩
  · rw [bits_setSlot, h2, hq2, bits_setSlot, hb1]
  · rw [dinodes_setSlot, h1, hq2, dinodes_setSlot, hd1]
    exact update_idem ..
  · rw [setSlot_itable, h3, hx2, hq2, setSlot_itable, hi1, update_idem,
      update_idem]
    rfl

/-- **`iput`** frees the inode when this was the last reference and there is no link to it. -/
theorem Mounted.iput_runs (hok : Mounted G s) (hx : (s.itable ip).last → Marked s (s.itable ip))
    (hF : (s.itable ip).last → Frees F s ip) (hslot : F.slots ip) :
    (iput ip s).Runs (Touch G F) P s fun _ s' => Mounted G s' ∧ Dropped s ip s' := by
  simp only [iput, ifreeLast, inode]
  by_cases hlast : (s.itable ip).last
  · refine touch_bind (Frame.Le.refl F) (m := Routine.gets (·.itable ip) >>= _)
      (Q := fun _ s' => Emptied s ip (s.itable ip).freed s' ∧ Mounted G s') ?_ fun _ s1 ht1 hq1 => ?_
    · rw [Routine.gets_bind, if_pos hlast]
      exact ifree_runs hP hok (hx hlast) (hF hlast) hslot
    · obtain ⟨⟨h1, h2, h3⟩, h4⟩ := hq1
      refine ((setInode_runs _).imp fun _ s2 _ hq2 => ?_).mono
        (fun s' ht => ht.mono (Frame.slot_le hslot)) fun _ _ hp => hp
      rw [hq2]
      refine ⟨h4.setSlot ip _, fun _ => ⟨h1, h2, ?_⟩, fun h => absurd hlast h⟩
      rw [setSlot_itable, h3, update_idem, update_self]
  · refine touch_bind (Frame.nothing_le F) (m := Routine.gets (·.itable ip) >>= _)
      (Q := fun _ s' => s' = s) ?_ fun _ s1 ht1 hq1 => ?_
    · rw [Routine.gets_bind, if_neg hlast]
      exact touch_pure rfl
    · subst hq1
      refine ((setInode_runs _).imp fun _ s2 _ hq2 => ?_).mono
        (fun s' ht => ht.mono (Frame.slot_le hslot)) fun _ _ hp => hp
      rw [hq2]
      exact ⟨hok.setSlot ip _, fun h => absurd h hlast, fun _ => rfl⟩

theorem iput_runs (hok : FsOk G s) (hx : (s.itable ip).last → Holds s (s.itable ip))
    (hF : (s.itable ip).last → Frees F s ip) (hslot : F.slots ip) :
    (iput ip s).Runs (Touch G F) P s fun _ s' => FsOk G s' ∧ Dropped s ip s' := by
  refine (Mounted.iput_runs hP hok.mounted (fun h => (hx h).marked) hF hslot).imp
    fun _ s' ht hq => ⟨?_, hq.2⟩
  by_cases hlast : (s.itable ip).last
  · exact hok.freed (hx hlast) ht.sb (hq.2.1 hlast).1 hq.1
  · rw [hq.2.2 hlast]
    exact hok.setSlot ip _

end Rules

end HaiOS
