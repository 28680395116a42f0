/-
  File:      HaiOS/Fs/Write.lean
  Subject:   THE RULES FOR WRITEI (kernel/fs.c).

  * `Updated new y` -- the file has taken the blocks `new`, and its inode, in memory and on the
    disk, is `y`;
  * `writei_any` -- `writei` on any file does that, whatever fails on the way;
  * `writei_runs` -- on a sound file it writes the first `tot` bytes, and stays sound with the
    checksum of its contents.
-/
import HaiOS.Fs.Read

namespace HaiOS

open Lib Function

/-- **Inode `ip` has taken the free blocks `new` and is `y`, in memory and on the disk.** -/
structure Updated (G : Nat → Prop) (ip : Nat) (new : List Nat) (y : Inode) (s s' : Fs) : Prop where
  sb : s'.sb = s.sb
  free : ∀ c ∈ new, bits s c = false
  nodup : new.Nodup
  bits : bits s' = mark (bits s) new
  dinodes : dinodes s' = update (dinodes s) (s.itable ip).inum y.din
  itable : s'.itable = update s.itable ip y
  inum : y.inum = (s.itable ip).inum
  perm : (blocksOf y.din.extents.1).Perm (blocksOf (s.itable ip).din.extents.1 ++ new)
  ok : FsOk G s'

/-- The fields `writei` does not assign to. -/
structure Inode.Kept (x y : Inode) : Prop where
  inum : y.inum = x.inum
  ref : y.ref = x.ref
  valid : y.valid = x.valid
  type : y.din.type = x.din.type
  nlink : y.din.nlink = x.din.nlink

/-- The inode after `writei` has written up to `off`. -/
def Inode.written (x : Inode) (es : Extents) (off : Nat) (c : UInt32) : Inode :=
  ((x.withExtents es).wrote off).withSum c

theorem Inode.kept_written (x : Inode) (es : Extents) (off : Nat) (c : UInt32) :
    x.Kept (x.written es off c) :=
  ⟨rfl, rfl, rfl, rfl, rfl⟩

section Rules

variable {G : Nat → Prop} {F : Frame} {P : Panic → Fs → Prop} {s s1 s2 s' : Fs} {ip : Nat}
  {src : Src} {off n : UInt32} {new : List Nat} {es : Extents} {y : Inode}

/-- The frame of any write: free blocks may be allocated, blocks of the file may be written. -/
theorem AnyFrame.write (h : AnyFrame F s ip)
    (hown : ∀ b ∈ blocksOf (s.itable ip).din.extents.1, F.blocks b) (lo hi : Nat) :
    WriteFrame F s ip lo hi :=
  ⟨h.slot, fun _ => h.grow, Or.inl hown⟩

/-- The inode is changed by a routine that reads blocks. -/
theorem Changed.step {y' : Inode} (h : Changed G ip new y s s1) (ht : Touch G F s1 s2)
    (hF : ∀ b, ¬ F.blocks b) (hr : Ready G s2) (hit : s2.itable = update s1.itable ip y')
    (hi : y'.inum = y.inum) (he : y'.din.extents = y.din.extents) : Changed G ip new y' s s2 := by
  obtain ⟨hb, hd, hok⟩ := h.ok.still ht hF hr
  exact ⟨ht.sb.trans h.sb, h.free, h.nodup, hb.trans h.bits, hd.trans h.dinodes, by
    rw [hit, h.itable, update_idem], hi.trans h.inum, by rw [he]; exact h.perm, by
    rw [he]
    exact h.packed, hok⟩

theorem Inode.wrote_size (x : Inode) {k : Nat} (h : k < 2 ^ 32) :
    (x.wrote k).din.size.toNat = max x.din.size.toNat k := by
  simp only [Inode.wrote]
  split
  · rw [UInt32.toNat_ofNat_of_lt' h]
    omega
  · omega

theorem AnyFrame.of_changed (h : AnyFrame F s ip) (hc : Changed G ip new y s s1) :
    AnyFrame F s1 ip := by
  refine ⟨h.slot, fun c hf => ?_⟩
  rw [hc.bits] at hf
  rw [hc.sb]
  exact h.free c (mark_eq_false.mp hf).1

variable (hP : ∀ p s, Exhausted p s → P p s) (hok : FsOk G s) (hx : Holds s (s.itable ip))
  (hs : Sound (s.itable ip).din)

include hok hx in
/-- A block of the file is not the block of its inode. -/
theorem Extended.ne_inode {b : Nat} (h : Extended G ip new es s s1) (hb : b ∈ blocksOf es.1) :
    b ≠ iblock s.sb (s.itable ip).inum := by
  have hd := (Changed.holds hok hx h).data b (by rw [h.slot]; exact hb)
  have h3 := hok.layout.bmap_le
  have h4 := (iblock_bounds hok.layout hx.inum).2
  rw [Changed.sb h] at hd
  omega

include hP

include hx in
/-- The last step of `writei`: `iupdate` of the inode as it is in memory. -/
theorem iupdate_changed (hc : Changed G ip new y s s1)
    (hinode : F.blocks (iblock s.sb (s.itable ip).inum)) :
    (iupdate ip s1).Runs (Touch G F) P s1 fun _ s' => Updated G ip new y s s' := by
  refine (iupdate_set hP hc.ok.mounted hc.slot (by rw [hc.inum, hc.sb]; exact hx.inum)
    (by rw [hc.inum, hc.sb]; exact hinode)).imp fun _ s' ht hq => ?_
  obtain ⟨h1, h2, h3, h4⟩ := hq
  exact ⟨ht.sb.trans hc.sb, hc.free, hc.nodup, h2.trans hc.bits, by rw [h1, hc.dinodes, hc.inum],
    h3.trans hc.itable, hc.inum, hc.perm, hc.ok.same ht h4.ready h2⟩

include hok hx in
/-- **`writei` on any file**, with copies that may fail anywhere if `G` has no data block. -/
theorem writei_any (hfault : (∀ b, s.sb.dataStart ≤ b → ¬ G b) ∨ src.Whole n.toNat 0 off.toNat)
    (hF : AnyFrame F s ip) (hown : ∀ b ∈ blocksOf (s.itable ip).din.extents.1, F.blocks b)
    (hinode : F.blocks (iblock s.sb (s.itable ip).inum)) (hover : ∀ s', P .bmapExtentOverflow s') :
    (writei ip src off n s).Runs (Touch G F) P s fun r s' =>
      (r = -1 ∧ s' = s) ∨ ∃ new y, Updated G ip new y s s' ∧ (s.itable ip).Kept y := by
  simp only [writei, inode, Routine.gets_bind]
  refine runs_ite (fun _ => touch_pure (Or.inl ⟨rfl, rfl⟩)) fun _ => ?_
  refine runs_ite (fun _ => touch_pure (Or.inl ⟨rfl, rfl⟩)) fun _ => ?_
  refine touch_bind (Frame.Le.refl F) (writeiLoop_ends hP hok hx (by omega) (Nat.zero_le _)
    (fun _ _ => Nat.zero_le _) (hF.write hown _ _) hover) fun r s1 ht1 hq1 => ?_
  obtain ⟨x, t, ⟨new, es, hw, -⟩, hleft⟩ := hq1
  have hext : Extended G ip new es s s1 := (hleft.changed hw.ext).onto (ht1.sb ▸ hok.metaIn)
    (hleft.ready.mono (hleft.whole_sparing hw hfault))
  refine touch_bind (Frame.slot_le hF.slot) (setInode_runs _) fun _ s2 ht2 hq2 => ?_
  rw [hext.slot] at hq2
  have hc2 : Changed G ip new (((s.itable ip).withExtents es).wrote r.2) s s2 := by
    rw [hq2]
    exact Changed.set hext rfl rfl
  -- the checksum may allocate once more
  refine touch_bind (Frame.Le.refl F) (rechecksum_any hP hc2.ok (hc2.holds hok hx)
    (hF.of_changed hc2) hover) fun _ s3 ht3 hq3 => ?_
  obtain ⟨new', es', c, s1', hext, rfl⟩ := hq3
  have hc3 : Changed G ip (new ++ new') ((s.itable ip).written es' r.2 c) s
      (s1'.setSlot ip ((s.itable ip).written es' r.2 c)) :=
    (hc2.trans hext).set (by rw [hc2.slot]; rfl) (by rw [hc2.slot]; rfl)
  have hslot : (s1'.itable ip).withSum c = (s.itable ip).written es' r.2 c := by
    rw [hext.slot, hc2.slot]
    rfl
  rw [hslot]
  refine touch_bind (Frame.Le.refl F) (iupdate_changed hP hx hc3 hinode) fun _ s4 _ hq4 => ?_
  exact touch_pure (Or.inr ⟨_, _, hq4, Inode.kept_written ..⟩)

/-- **What `writei` makes of the inode** when it has written up to `hi`. -/
structure Closed (G : Nat → Prop) (ip hi : Nat) (new : List Nat) (y : Inode) (s s' : Fs) : Prop where
  upd : Updated G ip new y s s'
  kept : (s.itable ip).Kept y
  blocks : blocksOf y.din.extents.1 = blocksOf (s.itable ip).din.extents.1 ++ new
  size : y.din.size.toNat = max (s.itable ip).din.size.toNat hi
  sound : Sound y.din
  cache : y.cache = if (s.itable ip).din.type = T_DIR then (s.itable ip).cache.reset
    else (s.itable ip).cache
  summed : (∀ b, G b) → Summed s' y.din
  unsummed : ¬ (s.itable ip).din.checked → y.din.checksum = (s.itable ip).din.checksum

/-- The inode, in memory and on the disk. -/
def inodeFrame (s : Fs) (ip : Nat) : Frame :=
  ⟨fun b => b = iblock s.sb (s.itable ip).inum, fun i => i = ip, False⟩

include hok hx hs in
/-- The end of `writei`: the size, the checksum and `iupdate`. -/
theorem close_runs {r : Nat × Nat} (hext : Extended G ip new es s s1) (hsmall : r.2 ≤ MAXFILE * BSIZE)
    (hreach : r.2 ≤ max (s.itable ip).din.size.toNat (BSIZE * (blocksOf es.1).length)) :
    ((do
      setInode ip fun x => x.wrote r.2
      rechecksum ip
      iupdate ip
      pure (UInt32.ofNat r.1).toInt32 : FsM Int32) s1).Runs (Touch G (inodeFrame s ip)) P s1
      fun v s' => v = (UInt32.ofNat r.1).toInt32 ∧
        ∃ y, y.din.extents = es ∧ Closed G ip r.2 new y s s' := by
  have hslot : Frame.Le (.slot ip) (inodeFrame s ip) := Frame.slot_le rfl
  refine touch_bind hslot (setInode_runs _) fun _ s2 ht2 hq2 => ?_
  rw [hext.slot] at hq2
  have hc2 : Changed G ip new (((s.itable ip).withExtents es).wrote r.2) s s2 := by
    rw [hq2]
    exact Changed.set hext rfl rfl
  obtain ⟨hblocks, hpacked⟩ := hext.packed hs.packed
  have hx2 := hc2.slot
  have hsz := Inode.wrote_size ((s.itable ip).withExtents es) (k := r.2) (by
    simp only [MAXFILE, BSIZE] at hsmall
    omega)
  have hsz' : ((s.itable ip).withExtents es).din.size = (s.itable ip).din.size := rfl
  rw [hsz'] at hsz
  have hsound : Sound (((s.itable ip).withExtents es).wrote r.2).din := by
    refine ⟨?_, hpacked, ?_⟩
    · rw [hsz]
      show _ ≤ BSIZE * (blocksOf es.1).length
      have hcov := hs.covered
      rw [hblocks, List.length_append] at hreach ⊢
      simp only [BSIZE] at *
      omega
    · rw [hsz]
      have := hs.small
      omega
  refine touch_bind hslot (rechecksum_runs hP hc2.ok (hc2.holds hok hx)
    (by rw [hx2]; exact hsound)) fun _ s3 ht3 hq3 => ?_
  obtain ⟨c, hit3, hr3, hc, hun⟩ := hq3
  rw [hx2] at hit3 hc hun
  have hc3 : Changed G ip new ((s.itable ip).written es r.2 c) s s3 :=
    hc2.step ht3 (fun _ h => h) hr3 hit3 rfl rfl
  refine touch_bind (Frame.block_le rfl)
    (iupdate_changed hP hx hc3 rfl) fun _ s4 ht4 hq4 => ?_
  refine touch_pure ⟨rfl, _, rfl, hq4, Inode.kept_written .., hblocks, hsz,
    ⟨hsound.covered, hsound.packed, hsound.small⟩, rfl, fun hG hch => ?_, hun⟩
  -- the checksum was computed between the loop and `iupdate`
  have hcs : content s4 (((s.itable ip).withExtents es).wrote r.2).din =
      content s2 (((s.itable ip).withExtents es).wrote r.2).din := by
    have hb : fileBytes (view s4) (blocksOf es.1) = fileBytes (view s2) (blocksOf es.1) :=
      fileBytes_congr fun b hb => by
        rw [ht4.view b (hG b) (hext.ne_inode hok hx hb), ht3.view b (hG b) fun e => e]
    exact congrArg (fun m => slice m 0 _) hb
  exact (hc hG hch).trans (congrArg adler32 hcs.symm)

/-- The checks `writei` makes first. -/
def writeOk (d : Dinode) (off n : UInt32) : Prop :=
  ¬ (d.size < off ∨ off + n < off) ∧ ¬ MAXFILE * BSIZE < (off + n).toNat

/-- **A run of `writei` that passes the checks**: the loop ends with `r`, has written what is in
    `t` and leaves the buffers of `s1`. -/
structure Ran (G : Nat → Prop) (F : Frame) (ip : Nat) (src : Src) (off n : UInt32) (r : Nat × Nat)
    (x : Nat) (new : List Nat) (y : Inode) (s t s1 s' : Fs) : Prop where
  written : Written G ip src n.toNat 0 off.toNat new y.din.extents r s t
  planned : (∀ k, src.bad = some k → n.toNat ≤ k) →
    Planned (writePlan s ip (off.toNat + n.toNat)) n.toNat new y.din.extents r.1
  left : Left G F ip src n.toNat 0 r x s t s1
  touch : Touch (sparing G x t s1) (inodeFrame s ip) s1 s'
  closed : Closed (sparing G x t s1) ip r.2 new y s s'

include hok hx hs in
/-- **`writei` on a sound file**, with copies that may fail anywhere. -/
theorem writei_ran (hF : WriteFrame F s ip off.toNat (off.toNat + n.toNat))
    (hinode : F.blocks (iblock s.sb (s.itable ip).inum)) (hover : ∀ s', P .bmapExtentOverflow s') :
    (writei ip src off n s).Runs (Touch G F) P s fun v s' =>
      (¬ writeOk (s.itable ip).din off n ∧ v = -1 ∧ s' = s) ∨
      (writeOk (s.itable ip).din off n ∧ ∃ r x new y t s1, v = (UInt32.ofNat r.1).toInt32 ∧
        Ran G F ip src off n r x new y s t s1 s') := by
  simp only [writei, inode, Routine.gets_bind]
  refine runs_ite (fun h => touch_pure (Or.inl ⟨fun hw => hw.1 h, rfl, rfl⟩)) fun h1 => ?_
  refine runs_ite (fun h => touch_pure (Or.inl ⟨fun hw => hw.2 h, rfl, rfl⟩)) fun h2 => ?_
  have hwok : writeOk (s.itable ip).din off n := ⟨h1, h2⟩
  -- the sum does not wrap around
  have hsize : off.toNat ≤ (s.itable ip).din.size.toNat :=
    UInt32.le_iff_toNat_le.mp (UInt32.not_lt.mp fun h => h1 (Or.inl h))
  have hsum : off.toNat + n.toNat ≤ MAXFILE * BSIZE := by
    have h3 : off.toNat ≤ (off + n).toNat :=
      UInt32.le_iff_toNat_le.mp (UInt32.not_lt.mp fun h => h1 (Or.inr h))
    have h4 := off.toNat_lt
    have h5 := n.toNat_lt
    rw [UInt32.toNat_add] at h2 h3
    omega
  have hplus : off.toNat + (n.toNat - 0) = off.toNat + n.toNat := rfl
  refine touch_bind (Frame.Le.refl F) (writeiLoop_ends hP hok hx (by omega) (Nat.zero_le _)
    (fun _ _ => Nat.zero_le _) (hplus ▸ hF) hover) fun r s1 ht1 hq1 => ?_
  obtain ⟨x, t, ⟨new, es, hw, hplan⟩, hleft⟩ := hq1
  have hcov := hs.covered
  have hle := hw.le
  have hfin := hw.fin
  have hok' : FsOk (sparing G x t s1) s := ⟨hok.layout,
    fun b hb => hleft.sparing (hok.metaIn b hb) (Or.inl (by rw [Changed.sb hw.ext]; exact hb)),
    hok.reserved, hok.ready.mono fun _ hc => hc.1⟩
  refine ((close_runs hP hok' hx hs (hleft.changed hw.ext) (by omega) ?_).imp
    fun v s' ht hq => ?_).mono (fun s' ht => ?_) fun _ _ hp => hp
  · have hreach := hw.reach
    simp only [BSIZE] at *
    omega
  · obtain ⟨hv, y, rfl, hcl⟩ := hq
    exact Or.inr ⟨hwok, r, x, new, y, t, s1, hv, hw, fun hno => hplan hno fun _ => by omega, hleft,
      ht, hcl⟩
  · refine (ht.mono ⟨fun b hb => ?_, fun i hi => ?_, fun h => h.elim⟩).weaken fun c hc hG =>
      hleft.sparing hG (Or.inr hc)
    · rw [show b = _ from hb]
      exact hinode
    · rw [show i = _ from hi]
      exact hF.slot

include hok hx in
omit hP in
/-- The blocks of the file after the loop: a buffer with other contents than the disk may have been
    recycled. -/
theorem Ran.seen {r : Nat × Nat} {x b : Nat} {t : Fs}
    (h : Ran G F ip src off n r x new y s t s1 s') (hb : b ∈ blocksOf y.din.extents.1) :
    view s' b = view s1 b ∨ ¬ sparing G x t s1 b ∧ view s' b = s1.disk b :=
  h.touch.seen b (Extended.ne_inode hok hx h.written.ext hb)

/-- What `writei` makes of a sound file when it returns `tot`. -/
structure Wrote (G : Nat → Prop) (ip : Nat) (src : Src) (off n : UInt32) (tot : Nat)
    (new : List Nat) (y : Inode) (s s' : Fs) : Prop
    extends Closed G ip (off.toNat + tot) new y s s' where
  le : tot ≤ n.toNat
  data : (∀ b, G b) → fileBytes (view s') (blocksOf y.din.extents.1) =
    patch (fileBytes (view s) (blocksOf (s.itable ip).din.extents.1)) off.toNat
      (slice src.bytes 0 tot)
  planned : (∀ k, src.bad = some k → n.toNat ≤ k) →
    Planned (writePlan s ip (off.toNat + n.toNat)) n.toNat new y.din.extents tot

include hok hx hs in
/-- **`writei` on a sound file**, when no copy leaves bytes behind. -/
theorem writei_runs (hfault : (∀ b, s.sb.dataStart ≤ b → ¬ G b) ∨ src.Whole n.toNat 0 off.toNat)
    (hF : WriteFrame F s ip off.toNat (off.toNat + n.toNat))
    (hinode : F.blocks (iblock s.sb (s.itable ip).inum)) (hover : ∀ s', P .bmapExtentOverflow s') :
    (writei ip src off n s).Runs (Touch G F) P s fun r s' =>
      (¬ writeOk (s.itable ip).din off n ∧ r = -1 ∧ s' = s) ∨
      (writeOk (s.itable ip).din off n ∧ ∃ tot new y,
        r = (UInt32.ofNat tot).toInt32 ∧ Wrote G ip src off n tot new y s s') := by
  refine (writei_ran hP hok hx hs hF hinode hover).imp fun v s' ht hq => hq.imp id ?_
  rintro ⟨hwok, r, x, new, y, t, s1, hv, h⟩
  have hsame : G x → view s1 x = view t x := h.left.whole h.written hfault
  have hgood : ∀ c, G c → sparing G x t s1 c := h.left.whole_sparing h.written hfault
  have hc := h.closed
  have hok' := hc.upd.ok
  have hfin := h.written.fin
  rw [Nat.sub_zero] at hfin
  refine ⟨hwok, r.1, new, y, hv, { hc with
    upd := { hc.upd with ok := ⟨hok'.layout, ht.sb ▸ hok.metaIn, hok'.reserved,
      hok'.ready.mono hgood⟩ }
    size := hfin ▸ hc.size
    summed := fun hG => hc.summed fun b => hgood b (hG b)
    le := h.written.le
    data := fun hG => ?_
    planned := h.planned }⟩
  have hd := h.written.data hG hs.packed
  rw [Nat.sub_zero] at hd
  rw [← hd]
  refine fileBytes_congr fun b hb => ?_
  rw [(h.seen hok hx hb).resolve_right fun e => e.1 (hgood b (hG b))]
  by_cases hbx : b = x
  · rw [hbx, hsame (hG x)]
  · exact h.left.touch.view b (hG b) hbx

end Rules

/-- The blocks that a write logs: its inode, its new blocks and their bitmap blocks, and the
    blocks it overwrites. -/
def touched (s : Fs) (ip : Nat) (off n : UInt32) : List Nat :=
  let hi := off.toNat + n.toNat
  let new := (writePlan s ip hi).new
  iblock s.sb (s.itable ip).inum :: (new ++ (new.map (bblock s.sb) ++
    ((blocksOf (s.itable ip).din.extents.1).take ((hi + BSIZE - 1) / BSIZE)).drop (off.toNat / BSIZE)))

/-- What the write may change. -/
def writeFrame (s : Fs) (ip : Nat) (off n : UInt32) : Frame :=
  ⟨fun c => c ∈ touched s ip off n, fun i => i = ip, False⟩

theorem writeFrame_ok {s : Fs} {ip : Nat} {off n : UInt32} (hs : Sound (s.itable ip).din) :
    WriteFrame (writeFrame s ip off n) s ip off.toNat (off.toNat + n.toNat) := by
  refine ⟨rfl, fun _ c hc => ⟨?_, ?_⟩, Or.inr ⟨hs.packed, fun j b h1 h2 hb => ?_⟩⟩
  · simp only [writeFrame, touched, List.mem_cons, List.mem_append, List.mem_map]
    exact Or.inr (Or.inr (Or.inl ⟨c, hc, rfl⟩))
  · simp only [writeFrame, touched, List.mem_cons, List.mem_append]
    exact Or.inr (Or.inl hc)
  · simp only [writeFrame, touched, List.mem_cons, List.mem_append]
    refine Or.inr (Or.inr (Or.inr (List.mem_of_getElem? (i := j - off.toNat / BSIZE) ?_)))
    rw [List.getElem?_drop, Nat.add_sub_cancel' h1, List.getElem?_take, if_pos ?_]
    · exact hb
    · simp only [BSIZE] at *
      omega

end HaiOS
