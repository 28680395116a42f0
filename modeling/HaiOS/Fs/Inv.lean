/-
  File:      HaiOS/Fs/Inv.lean
  Subject:   THE INVARIANT OF THE FILE SYSTEM between calls of the inode layer.

  * `SlotsOk` -- the inode table in memory: one slot an inode, and a slot that has been read is
    the inode on the disk;
  * `owner` -- the blocks of an inode; `FsInv` -- with them: a block is in use if and only if it
    is a metadata block or owned, and it is owned once;
  * `opFrame`, `Others` -- what a call on one inode leaves alone: the inodes and blocks of the
    others.
-/
import HaiOS.Lib.Owned
import HaiOS.Fs.Write
import HaiOS.Log.Commit

namespace HaiOS

open Lib Function

/-! ## 1. The inode table in memory -/

/-- **One slot an inode, and a slot that has been read is the inode on the disk.** -/
structure SlotsOk (ninodes : Nat) (dins : Nat → Dinode) (t : Nat → Inode) : Prop where
  bound : ∀ ip, 0 < (t ip).ref → ip < NINODE
  inums : ∀ ip, 0 < (t ip).ref → (t ip).inum < ninodes
  unique : ∀ ip jp, 0 < (t ip).ref → 0 < (t jp).ref → (t ip).inum = (t jp).inum → ip = jp
  sync : ∀ ip, 0 < (t ip).ref → (t ip).valid = true →
    (t ip).din = dins (t ip).inum ∧ (dins (t ip).inum).type ≠ 0

namespace SlotsOk

variable {ninodes : Nat} {dins dins' : Nat → Dinode} {t : Nat → Inode} {ip inum : Nat} {y : Inode}

variable (h : SlotsOk ninodes dins t)
include h

/-- The inodes on the disk change, but not those of slots that have been read. -/
theorem redisk
    (hd : ∀ ip, 0 < (t ip).ref → (t ip).valid = true → dins' (t ip).inum = dins (t ip).inum) :
    SlotsOk ninodes dins' t :=
  ⟨h.bound, h.inums, h.unique, fun ip hr hv => by
    rw [hd ip hr hv]
    exact h.sync ip hr hv⟩

/-- The slot `ip` and its inode on the disk change: what has to be said of the new ones. -/
theorem set (hd : ∀ jp, jp ≠ ip → 0 < (t jp).ref → (t jp).valid = true →
      dins' (t jp).inum = dins (t jp).inum) (hy : 0 < y.ref → ip < NINODE ∧ y.inum < ninodes ∧
      (∀ jp, jp ≠ ip → 0 < (t jp).ref → (t jp).inum ≠ y.inum) ∧
      (y.valid = true → y.din = dins' y.inum ∧ (dins' y.inum).type ≠ 0)) :
    SlotsOk ninodes dins' (update t ip y) := by
  refine ⟨fun jp hj => ?_, fun jp hj => ?_, fun ap bp ha hb e => ?_, fun jp hj hv => ?_⟩
  · by_cases hne : jp = ip
    · subst hne
      rw [update_self] at hj
      exact (hy hj).1
    · rw [update_of_ne hne] at hj
      exact h.bound jp hj
  · by_cases hne : jp = ip
    · subst hne
      rw [update_self] at hj ⊢
      exact (hy hj).2.1
    · rw [update_of_ne hne] at hj ⊢
      exact h.inums jp hj
  · by_cases hap : ap = ip <;> by_cases hbp : bp = ip
    · rw [hap, hbp]
    · subst hap
      rw [update_self] at ha e
      rw [update_of_ne hbp] at hb e
      exact absurd e.symm ((hy ha).2.2.1 bp hbp hb)
    · subst hbp
      rw [update_self] at hb e
      rw [update_of_ne hap] at ha e
      exact absurd e ((hy hb).2.2.1 ap hap ha)
    · rw [update_of_ne hap] at ha e
      rw [update_of_ne hbp] at hb e
      exact h.unique ap bp ha hb e
  · by_cases hne : jp = ip
    · subst hne
      rw [update_self] at hj hv ⊢
      exact (hy hj).2.2.2 hv
    · rw [update_of_ne hne] at hj hv ⊢
      rw [hd jp hne hj hv]
      exact h.sync jp hj hv

/-- The others have other inodes. -/
theorem ne_inum (hr : 0 < (t ip).ref) : ∀ jp, jp ≠ ip → 0 < (t jp).ref → (t jp).inum ≠ (t ip).inum :=
  fun jp hne hj e => hne (h.unique jp ip hj hr e)

/-- The slot keeps its inode number and its copy of the inode. -/
theorem same (hr : 0 < (t ip).ref) (hi : y.inum = (t ip).inum)
    (hd : y.din = (t ip).din) (hv : y.valid = (t ip).valid) : SlotsOk ninodes dins (update t ip y) :=
  h.set (fun _ _ _ _ => rfl) fun _ => ⟨h.bound ip hr, hi ▸ h.inums ip hr, hi ▸ h.ne_inum hr, by
    rw [hi, hd, hv]
    exact h.sync ip hr⟩

theorem drop : SlotsOk ninodes dins (update t ip (t ip).drop) :=
  h.set (fun _ _ _ _ => rfl) fun hr => by
    have hr' : 0 < (t ip).ref := Nat.lt_of_lt_of_le hr (Nat.sub_le _ _)
    exact ⟨h.bound ip hr', h.inums ip hr', h.ne_inum hr', h.sync ip hr'⟩

theorem get (hs : igetSlot t inum = some ip) (hi : inum < ninodes) :
    SlotsOk ninodes dins (update t ip ((t ip).got inum)) := by
  obtain ⟨hlt, hc⟩ := igetSlot_some hs
  rcases hc with ⟨hr, -⟩ | ⟨hr, hno⟩
  · rw [Inode.got, if_pos hr]
    exact h.same hr rfl rfl rfl
  · rw [Inode.got, if_neg (by omega)]
    exact h.set (fun _ _ _ _ => rfl) fun _ =>
      ⟨hlt, hi, fun jp _ hj => hno jp (h.bound jp hj) hj, fun hv => by cases hv⟩

theorem lock (hr : 0 < (t ip).ref) (htype : (t ip).valid = false → (dins (t ip).inum).type ≠ 0) :
    SlotsOk ninodes dins (update t ip ((t ip).locked (dins (t ip).inum))) := by
  unfold Inode.locked
  split
  · exact h.same hr rfl rfl rfl
  · rename_i hv
    exact h.set (fun _ _ _ _ => rfl) fun _ => ⟨h.bound ip hr, h.inums ip hr, h.ne_inum hr,
      fun _ => ⟨rfl, htype (by simpa using hv)⟩⟩

/-- The inode of slot `ip` changes, in memory and on the disk. -/
theorem write (hr : 0 < (t ip).ref) (hi : y.inum = (t ip).inum)
    (htype : 0 < y.ref → y.valid = true → y.din.type ≠ 0) :
    SlotsOk ninodes (update dins (t ip).inum y.din) (update t ip y) := by
  refine h.set (fun jp hne hj _ => update_of_ne (h.ne_inum hr jp hne hj) _ _) fun hy =>
    ⟨h.bound ip hr, hi ▸ h.inums ip hr, hi ▸ h.ne_inum hr, fun hv => ?_⟩
  rw [hi, update_self]
  exact ⟨rfl, htype hy hv⟩

/-- A free inode is allocated: no slot has read it. -/
theorem alloc (h0 : (dins inum).type = 0) (d : Dinode) : SlotsOk ninodes (update dins inum d) t :=
  h.redisk fun ip hr hv => update_of_ne
    (fun e : (t ip).inum = inum => (h.sync ip hr hv).2 (by rw [e]; exact h0)) _ _

end SlotsOk

/-! ## 2. The invariant -/

/-- The blocks of inode `i`; a free inode has none. -/
def owner (s : Fs) (i : Nat) : List Nat :=
  if (dinodes s i).type = 0 then [] else blocksOf (dinodes s i).extents.1

/-- Blocks that are not data blocks. -/
def Reserved (sb : Superblock) (b : Nat) : Prop := b < sb.dataStart ∨ sb.size ≤ b

/-- **The invariant of the file system between calls.** -/
structure FsInv (G : Nat → Prop) (s : Fs) : Prop where
  ok : FsOk G s
  start : s.log.start = s.sb.logstart
  idle : s.log.committing = false
  /-- the log has no block of the log region -/
  logged : ∀ b ∈ s.log.lh, s.sb.inodestart ≤ b ∧ b < s.sb.size
  owned : Owned (Reserved s.sb) (bits s) (owner s)
  slots : SlotsOk s.sb.ninodes (dinodes s) s.itable

/-- The part of the invariant that the log needs: it holds inside a call, too. -/
structure Journaled (G : Nat → Prop) (s : Fs) : Prop where
  ok : FsOk G s
  start : s.log.start = s.sb.logstart
  idle : s.log.committing = false
  logged : ∀ b ∈ s.log.lh, s.sb.inodestart ≤ b ∧ b < s.sb.size

theorem FsInv.journaled {G : Nat → Prop} {s : Fs} (h : FsInv G s) : Journaled G s :=
  ⟨h.ok, h.start, h.idle, h.logged⟩

/-- What a call on inode `i` may change. -/
def opFrame (s : Fs) (i : Nat) : Frame where
  blocks c := s.sb.inodestart ≤ c ∧ c < s.sb.size ∧
    (s.sb.dataStart ≤ c → bits s c = false ∨ c ∈ owner s i)
  slots _ := True
  errs := False

/-- What a call may change that writes to no file. -/
def metaFrame (s : Fs) : Frame where
  blocks c := s.sb.inodestart ≤ c ∧ c < s.sb.dataStart
  slots _ := True
  errs := False

/-- **The other inodes and their blocks are as before.** -/
structure Others (G : Nat → Prop) (i : Nat) (s s' : Fs) : Prop where
  sb : s'.sb = s.sb
  dinodes : ∀ j, j ≠ i → dinodes s' j = dinodes s j
  view : ∀ j, j ≠ i → ∀ b ∈ owner s j, G b → view s' b = view s b

/-- The slot `ip` is in use and has been read. -/
def Locked (s : Fs) (ip : Nat) : Prop := 0 < (s.itable ip).ref ∧ (s.itable ip).valid = true

instance (s : Fs) (ip : Nat) : Decidable (Locked s ip) := inferInstanceAs (Decidable (_ ∧ _))

section Facts

variable {G : Nat → Prop} {F : Frame} {s s' : Fs} {ip i : Nat} {y : Inode} {d : Dinode}

theorem Journaled.next (h : Journaled G s) (ht : Touch G F s s')
    (hF : ∀ c, F.blocks c → s.sb.inodestart ≤ c ∧ c < s.sb.size) (hok : FsOk G s') :
    Journaled G s' := by
  obtain ⟨new, hlh, hnew⟩ := ht.lh
  refine ⟨hok, ?_, ?_, fun b hb => ?_⟩
  · rw [ht.log, ht.sb]
    exact h.start
  · rw [ht.log]
    exact h.idle
  · rw [ht.sb]
    rw [hlh] at hb
    rcases List.mem_append.mp hb with hb | hb
    · exact h.logged b hb
    · exact hF b (hnew b hb)

theorem FsInv.next (h : FsInv G s) (ht : Touch G F s s')
    (hF : ∀ c, F.blocks c → s.sb.inodestart ≤ c ∧ c < s.sb.size) (hok : FsOk G s')
    (ho : Owned (Reserved s.sb) (bits s') (owner s'))
    (hs : SlotsOk s.sb.ninodes (dinodes s') s'.itable) : FsInv G s' := by
  have hj := h.journaled.next ht hF hok
  exact ⟨hok, hj.start, hj.idle, hj.logged, by rw [ht.sb]; exact ho, by rw [ht.sb]; exact hs⟩

theorem owner_congr (h : dinodes s' = dinodes s) : owner s' = owner s := by
  funext j
  simp only [owner, h]

theorem owner_update (h : dinodes s' = update (dinodes s) i d) :
    owner s' = update (owner s) i (if d.type = 0 then [] else blocksOf d.extents.1) := by
  funext j
  simp only [owner, h]
  by_cases hj : j = i
  · subst hj
    rw [update_self, update_self]
  · rw [update_of_ne hj, update_of_ne hj]
    rfl

theorem FsInv.still (h : FsInv G s) (ht : Touch G F s s') (hF : ∀ b, ¬ F.blocks b)
    (hr : Ready G s') (hs : SlotsOk s.sb.ninodes (dinodes s) s'.itable) : FsInv G s' := by
  obtain ⟨hb, hd, hok⟩ := h.ok.still ht hF hr
  refine h.next ht (fun c hc => absurd hc (hF c)) hok ?_ (by rw [hd]; exact hs)
  rw [hb, owner_congr hd]
  exact h.owned

theorem FsInv.setSlot (h : FsInv G s)
    (hs : SlotsOk s.sb.ninodes (dinodes s) (update s.itable ip y)) :
    FsInv G (s.setSlot ip y) :=
  h.still (touch_setSlot s ip y) (fun _ hf => hf) (ready_setSlot h.ok.ready ip y) hs

theorem FsInv.owner_eq (h : FsInv G s) (hl : Locked s ip) :
    owner s (s.itable ip).inum = blocksOf (s.itable ip).din.extents.1 := by
  obtain ⟨hd, ht⟩ := h.slots.sync ip hl.1 hl.2
  rw [owner, if_neg ht, hd]

variable {b j : Nat}

theorem FsInv.data (h : FsInv G s) (hb : b ∈ owner s i) :
    s.sb.dataStart ≤ b ∧ b < s.sb.size := by
  have := h.owned.apart i b hb
  unfold Reserved at this
  omega

theorem FsInv.holds (h : FsInv G s) (hl : Locked s ip) : Holds s (s.itable ip) := by
  have ho := h.owner_eq hl
  refine ⟨h.slots.inums ip hl.1, ?_, fun b hb => ?_, fun b hb => ?_⟩
  · rw [← ho]
    exact h.owned.nodup _
  · rw [← ho] at hb
    exact h.owned.used_of_mem hb
  · rw [← ho] at hb
    exact h.data hb

/-- The blocks of another inode are not in the frame of a call on inode `i`. -/
theorem FsInv.not_opFrame (h : FsInv G s) (hj : j ≠ i) (hb : b ∈ owner s j) :
    ¬ (opFrame s i).blocks b := fun hf => by
  rcases hf.2.2 (h.data hb).1 with hfree | hown
  · exact h.owned.not_mem_of_free hfree j hb
  · exact h.owned.disjoint j i hj b hb hown

/-- **A call on inode `i` leaves the others alone.** -/
theorem FsInv.others (h : FsInv G s) (ht : Touch G (opFrame s i) s s')
    (hd : ∀ j, j ≠ i → dinodes s' j = dinodes s j) : Others G i s s' :=
  ⟨ht.sb, hd, fun _ hj b hb hG => ht.view b hG (h.not_opFrame hj hb)⟩

theorem Others.refl (s : Fs) : Others G i s s := ⟨rfl, fun _ _ => rfl, fun _ _ _ _ _ => rfl⟩

theorem Others.owner (h : Others G i s s') (hj : j ≠ i) :
    HaiOS.owner s' j = HaiOS.owner s j := by
  simp only [HaiOS.owner, h.dinodes j hj]

/-- The frame of a call on inode `i` has its inode block, the bitmap and its blocks. -/
theorem opFrame_inode (h : FsInv G s) (hj : j < s.sb.ninodes) :
    (opFrame s i).blocks (iblock s.sb j) := by
  obtain ⟨h1, h2⟩ := iblock_bounds h.ok.layout hj
  have h3 := h.ok.layout.bmap_le
  refine ⟨h1, ?_, fun h4 => ?_⟩
  · have : s.sb.dataStart ≤ s.sb.size := Nat.sub_le _ _
    omega
  · omega

theorem opFrame_bitmap (h : FsInv G s) (hb : b < s.sb.size) :
    (opFrame s i).blocks (bblock s.sb b) := by
  obtain ⟨h1, h2⟩ := bblock_bounds h.ok.layout hb
  have h3 := h.ok.layout.inode_le
  refine ⟨by omega, ?_, fun h4 => ?_⟩
  · have : s.sb.dataStart ≤ s.sb.size := Nat.sub_le _ _
    omega
  · omega

theorem opFrame_own (h : FsInv G s) (hb : b ∈ owner s i) : (opFrame s i).blocks b := by
  obtain ⟨h1, h2⟩ := h.data hb
  have h3 := h.ok.layout.inode_le
  have h4 := h.ok.layout.bmap_le
  exact ⟨by omega, h2, fun _ => Or.inr hb⟩

theorem opFrame_any (h : FsInv G s) : AnyFrame (opFrame s i) s ip := by
  refine ⟨trivial, fun c hc => ?_⟩
  have hlt : c < s.sb.size := by
    by_contra hge
    rw [bits_outside s c (by omega)] at hc
    cases hc
  have h1 := data_of_free h.ok.reserved hc
  have h3 := h.ok.layout.inode_le
  have h4 := h.ok.layout.bmap_le
  exact ⟨opFrame_bitmap h hlt, by omega, hlt, fun _ => Or.inl hc⟩

theorem metaFrame_inode (h : FsInv G s) (hj : j < s.sb.ninodes) :
    (metaFrame s).blocks (iblock s.sb j) := by
  obtain ⟨h1, h2⟩ := iblock_bounds h.ok.layout hj
  have h3 := h.ok.layout.bmap_le
  exact ⟨h1, by omega⟩

theorem metaFrame_le : (metaFrame s).Le (opFrame s i) :=
  ⟨fun c hc => ⟨hc.1, lt_of_lt_of_le hc.2 (Nat.sub_le _ _), fun h => absurd hc.2 (by omega)⟩,
    fun _ h => h, fun h => h⟩

/-- Data blocks are left alone. -/
theorem metaFrame_view (ht : Touch G (metaFrame s) s s') (hG : G b) (hb : s.sb.dataStart ≤ b) :
    view s' b = view s b :=
  ht.view b hG fun hf => absurd hf.2 (by omega)

theorem opFrame_range : ∀ c, (opFrame s i).blocks c → s.sb.inodestart ≤ c ∧ c < s.sb.size :=
  fun _ hc => ⟨hc.1, hc.2.1⟩

end Facts

/-! ## 3. Every call keeps the invariant -/

/-- The panics that the invariant does not exclude. -/
def layerPanic : Panic → Bool
  | .freeingFreeBlock => false
  | .bmapUnreachable => false
  | _ => true

/-- The panics for want of a resource: buffers, room in the log, extents, inode slots. -/
def resourcePanic : Panic → Bool
  | .tooBigTransaction | .logWriteOutsideOfTrans | .logCommitting | .bgetNoBuffers
  | .bmapExtentOverflow | .igetNoInodes => true
  | _ => false

/-- The inode with other fields. -/
def Inode.amended (x : Inode) (f : Dinode → Dinode) : Inode := { x with din := f x.din }

/-- The idiom of sysfile.c: assign to fields of `ip`, then `iupdate(ip)`. -/
def amend (ip : Nat) (f : Dinode → Dinode) : FsM Unit := do
  setInode ip fun x => x.amended f
  iupdate ip

/-- Read a block and release its buffer. -/
def peek (b : Nat) : FsM Unit := do
  let _ ← bread b
  brelse b

/-- The fields assigned to are among `major`, `minor` and `nlink`. -/
structure Dinode.Amends (f : Dinode → Dinode) : Prop where
  type : ∀ d, (f d).type = d.type
  size : ∀ d, (f d).size = d.size
  checksum : ∀ d, (f d).checksum = d.checksum
  extents : ∀ d, (f d).extents = d.extents

theorem exhausted_resource {p : Panic} {s : Fs} (h : Exhausted p s) : resourcePanic p = true := by
  rcases h with ⟨rfl, -⟩ | ⟨rfl, -⟩ | ⟨rfl, -⟩ <;> rfl

theorem resource_layer {p : Panic} (h : resourcePanic p = true) : layerPanic p = true := by
  cases p <;> first | rfl | cases h

theorem exhausted_layer {p : Panic} {s : Fs} (h : Exhausted p s) : layerPanic p = true :=
  resource_layer (exhausted_resource h)

section Rules

variable {G : Nat → Prop} {P : Panic → Fs → Prop} {s : Fs} {ip inum : Nat}
  (hres : ∀ p s, resourcePanic p = true → P p s)
include hres

theorem iget_inv (h : FsInv G s) (hi : inum < s.sb.ninodes) :
    (iget inum s).Runs (Touch G (metaFrame s)) P s fun ip s' =>
      FsInv G s' ∧ igetSlot s.itable inum = some ip ∧
      s' = s.setSlot ip ((s.itable ip).got inum) := by
  refine (iget_runs (fun _ _ => trivial) fun _ => hres _ _ rfl).imp fun ip s' _ hq => ?_
  obtain ⟨h1, rfl⟩ := hq
  exact ⟨h.setSlot (h.slots.get h1 hi), h1, rfl⟩

omit hres in
theorem ilock_inv (hP : ∀ p s, Exhausted p s → P p s) (h : FsInv G s) (href : (s.itable ip).ref < 1 → P .ilock s)
    (htype : (s.itable ip).valid = false → (dinodes s (s.itable ip).inum).type = 0 →
      ∀ s', P .ilockNoType s') :
    (ilock ip s).Runs (Touch G (.slot ip)) P s fun _ s' =>
      FsInv G s' ∧ Locked s' ip ∧ 0 < (s.itable ip).ref ∧
      s'.itable = update s.itable ip
        ((s.itable ip).locked (dinodes s (s.itable ip).inum)) := by
  refine (ilock_runs hP h.ok.mounted (fun hr => h.slots.inums ip hr) href htype).imp fun _ s' ht hq => ?_
  obtain ⟨hr, hit, hrd, htype⟩ := hq
  refine ⟨h.still ht (fun _ hf => hf) hrd (by rw [hit]; exact h.slots.lock hr htype), ?_, hr, hit⟩
  unfold Locked Inode.locked at *
  rw [hit, update_self]
  split
  · exact ⟨hr, ‹_›⟩
  · exact ⟨hr, rfl⟩

omit hres in
theorem ilock_valid (h : Locked s ip) : ilock ip s = .ok () s := by
  have hr : ¬ (s.itable ip).ref < 1 := Nat.not_lt.mpr h.1
  simp only [ilock, iload, inode, Routine.gets_bind, if_neg hr, if_pos h.2]
  rfl

omit hres in
theorem iunlock_valid (h : Locked s ip) : iunlock ip s = .ok () s := by
  have hr : ¬ (s.itable ip).ref < 1 := Nat.not_lt.mpr h.1
  simp only [iunlock, inode, Routine.gets_bind, if_neg hr]
  rfl

omit hres in
theorem iunlock_inv (h : FsInv G s) (href : (s.itable ip).ref < 1 → P .iunlock s) :
    (iunlock ip s).Runs (Touch G .nothing) P s fun _ s' => s' = s ∧ FsInv G s' := by
  simp only [iunlock, inode, Routine.gets_bind]
  exact runs_ite (fun h0 => runs_stop Touch.refl (href h0)) fun _ => touch_pure ⟨rfl, h⟩

section

variable (h : FsInv G s) (hl : Locked s ip)
include h hl

omit hres in
/-- After the inode in slot `ip` has changed, with blocks `l` instead of its own. -/
theorem FsInv.updated {s' : Fs} {y : Inode}
    (ht : Touch G (opFrame s (s.itable ip).inum) s s') (hok : FsOk G s')
    (hd : dinodes s' = update (dinodes s) (s.itable ip).inum y.din)
    (hit : s'.itable = update s.itable ip y) (hinum : y.inum = (s.itable ip).inum)
    (htype : y.din.type ≠ 0) (ho : Owned (Reserved s.sb) (bits s')
      (update (owner s) (s.itable ip).inum (blocksOf y.din.extents.1))) :
    FsInv G s' ∧ Others G (s.itable ip).inum s s' := by
  have hown := owner_update hd
  rw [if_neg htype] at hown
  refine ⟨h.next ht opFrame_range hok (by rw [hown]; exact ho) ?_, h.others ht fun j hj => ?_⟩
  · rw [hd, hit]
    exact h.slots.write hl.1 hinum fun _ _ => htype
  · rw [hd, update_of_ne hj]

omit hres in
theorem FsInv.type_ne_zero : (s.itable ip).din.type ≠ 0 := by
  obtain ⟨hd, ht⟩ := h.slots.sync ip hl.1 hl.2
  rw [hd]
  exact ht

omit hres in
/-- `writei` has ended. -/
theorem FsInv.wrote {s' : Fs} {new : List Nat} {y : Inode}
    (ht : Touch G (opFrame s (s.itable ip).inum) s s') (hu : Updated G ip new y s s')
    (hk : (s.itable ip).Kept y) :
    FsInv G s' ∧ Locked s' ip ∧ Others G (s.itable ip).inum s s' ∧
    ∀ b ∈ owner s' (s.itable ip).inum, b ∈ owner s (s.itable ip).inum ∨ bits s b = false := by
  have htype : y.din.type ≠ 0 := by
    rw [hk.type]
    exact h.type_ne_zero hl
  obtain ⟨h1, h2⟩ := h.updated hl ht hu.ok hu.dinodes hu.itable hu.inum htype
    (h.owned.take hu.free hu.nodup (by rw [h.owner_eq hl]; exact hu.perm) fun b => by
      rw [hu.bits]
      simp [mark])
  refine ⟨h1, ?_, h2, fun b hb => ?_⟩
  · unfold Locked at *
    rw [hu.itable, update_self, hk.ref, hk.valid]
    exact hl
  · rw [owner_update hu.dinodes, update_self, if_neg htype, hu.perm.mem_iff,
      List.mem_append] at hb
    rw [h.owner_eq hl]
    exact hb.imp id (hu.free b)

theorem writei_inv {src : Src} {off n : UInt32}
    (hfault : (∀ b, s.sb.dataStart ≤ b → ¬ G b) ∨ src.Whole n.toNat 0 off.toNat) :
    (writei ip src off n s).Runs (Touch G (opFrame s (s.itable ip).inum)) P s fun _ s' =>
      FsInv G s' ∧ Locked s' ip ∧ Others G (s.itable ip).inum s s' ∧
      ∀ b ∈ owner s' (s.itable ip).inum, b ∈ owner s (s.itable ip).inum ∨ bits s b = false := by
  refine (writei_any (fun p s hp => hres p s (exhausted_resource hp)) h.ok (h.holds hl) hfault
    (opFrame_any h) (fun b hb => opFrame_own h (by rw [h.owner_eq hl]; exact hb))
    (opFrame_inode h (h.slots.inums ip hl.1)) fun s' => hres _ _ rfl).imp fun r s' ht hq => ?_
  rcases hq with ⟨-, rfl⟩ | ⟨new, y, hu, hk⟩
  · exact ⟨h, hl, Others.refl _, fun b hb => Or.inl hb⟩
  · exact h.wrote hl ht hu hk

omit hres in
/-- The blocks of the inode have been freed. -/
theorem FsInv.released {s' : Fs}
    (hb : bits s' = unmark (bits s) (blocksOf (s.itable ip).din.extents.1)) :
    Owned (Reserved s.sb) (bits s') (update (owner s) (s.itable ip).inum []) :=
  h.owned.release fun b => by
    rw [hb, h.owner_eq hl]
    simp [unmark]

theorem itrunc_inv :
    (itrunc ip s).Runs (Touch G (opFrame s (s.itable ip).inum)) P s fun _ s' =>
      FsInv G s' ∧ Locked s' ip ∧ Others G (s.itable ip).inum s s' ∧
      dinodes s' = update (dinodes s) (s.itable ip).inum (s.itable ip).truncated.din ∧
      s'.itable = update s.itable ip (s.itable ip).truncated := by
  have hx := h.holds hl
  refine (itrunc_runs (fun p s hp => hres p s (exhausted_resource hp)) h.ok hx
    ⟨fun b hb => opFrame_bitmap h (hx.data b hb).2, opFrame_inode h hx.inum⟩ trivial).imp
    fun _ s' ht hq => ?_
  obtain ⟨⟨hb, hd, hit⟩, hok⟩ := hq
  have hrel := h.released hl hb
  obtain ⟨h1, h2⟩ := h.updated hl ht hok hd hit rfl (h.type_ne_zero hl) (by
    rw [show blocksOf (s.itable ip).truncated.din.extents.1 = [] from blocksOf_cleared _]
    exact hrel)
  refine ⟨h1, ?_, h2, hd, hit⟩
  unfold Locked at *
  rw [hit, update_self]
  exact hl

end

theorem amend_inv {f : Dinode → Dinode} (hf : Dinode.Amends f) (h : FsInv G s) (hl : Locked s ip) :
    (amend ip f s).Runs (Touch G (metaFrame s)) P s fun _ s' =>
      FsInv G s' ∧ Locked s' ip ∧ Others G (s.itable ip).inum s s' ∧
      dinodes s' = update (dinodes s) (s.itable ip).inum (f (s.itable ip).din) ∧
      s'.itable = update s.itable ip ((s.itable ip).amended f) := by
  have hx := h.holds hl
  have hown := h.owner_eq hl
  refine Outcome.Runs.imp (Q := fun _ s' => dinodes s' = update (dinodes s)
      (s.itable ip).inum (f (s.itable ip).din) ∧ bits s' = bits s ∧
      s'.itable = update s.itable ip ((s.itable ip).amended f) ∧ FsOk G s') ?_
      fun _ s' ht hq => ?_
  · refine touch_bind (Frame.slot_le (F := metaFrame s) trivial) (setInode_runs _)
      fun _ s1 ht1 hq1 => ?_
    have hx1 : s1.itable ip = (s.itable ip).amended f := by
      rw [hq1, setSlot_itable, update_self]
    have hok1 : FsOk G s1 := by rw [hq1]; exact h.ok.setSlot ip _
    have hsb : s1.sb = s.sb := ht1.sb
    refine (iupdate_set (fun p s hp => hres p s (exhausted_resource hp)) hok1.mounted hx1
      (by rw [hsb]; exact hx.inum) (by rw [hsb]; exact metaFrame_inode h hx.inum)).imp
      fun _ s' ht hq => ?_
    obtain ⟨h1, h2, h3, h4⟩ := hq
    exact ⟨by rw [h1, hq1]; rfl, by rw [h2, hq1]; rfl, by rw [h3, hq1]; rfl,
      hok1.same ht h4.ready h2⟩
  · obtain ⟨hd, hb, hit, hok⟩ := hq
    have hsame : update (owner s) (s.itable ip).inum
        (blocksOf ((s.itable ip).amended f).din.extents.1) = owner s := by
      rw [show ((s.itable ip).amended f).din.extents = (s.itable ip).din.extents from hf.extents _,
        ← hown, update_eq_self]
    obtain ⟨h1, h2⟩ := h.updated (y := (s.itable ip).amended f) hl (ht.mono metaFrame_le) hok hd hit
      rfl (by
      rw [show ((s.itable ip).amended f).din.type = (s.itable ip).din.type from hf.type _]
      exact h.type_ne_zero hl) (by rw [hsame, hb]; exact h.owned)
    refine ⟨h1, ?_, h2, hd, hit⟩
    unfold Locked at *
    rw [hit, update_self]
    exact hl

/-- `iput` may free the inode. -/
theorem iput_inv (h : FsInv G s) :
    (iput ip s).Runs (Touch G (opFrame s (s.itable ip).inum)) P s fun _ s' =>
      FsInv G s' ∧ Others G (s.itable ip).inum s s' ∧
      ((s.itable ip).last →
        dinodes s' = update (dinodes s) (s.itable ip).inum (s.itable ip).freed.din ∧
        s'.itable = update s.itable ip (s.itable ip).freed.drop) ∧
      (¬ (s.itable ip).last → s' = s.setSlot ip (s.itable ip).drop) := by
  have hlock : (s.itable ip).last → Locked s ip := fun hl => by
    unfold Locked
    rw [hl.1]
    exact ⟨Nat.one_pos, hl.2.1⟩
  refine (iput_runs (fun p s hp => hres p s (exhausted_resource hp)) h.ok (fun hl => h.holds (hlock hl))
    (fun hl => ⟨fun b hb => opFrame_bitmap h ((h.holds (hlock hl)).data b hb).2,
      opFrame_inode h (h.slots.inums ip (hlock hl).1)⟩) trivial).imp fun _ s' ht hq => ?_
  obtain ⟨hok, hlast, hnot⟩ := hq
  by_cases hl : (s.itable ip).last
  · obtain ⟨hb, hd, hit⟩ := hlast hl
    have hrel := h.released (hlock hl) hb
    have hown := owner_update hd
    rw [if_pos (show (s.itable ip).freed.drop.din.type = 0 from rfl)] at hown
    refine ⟨h.next ht opFrame_range hok (by rw [hown]; exact hrel) ?_, h.others ht fun j hj => ?_,
      fun _ => ⟨hd, hit⟩, fun hn => absurd hl hn⟩
    · rw [hd, hit]
      refine h.slots.write (y := (s.itable ip).freed.drop) (hlock hl).1 rfl fun _ hv => ?_
      cases hv
    · rw [hd, update_of_ne hj]
  · obtain rfl := hnot hl
    exact ⟨h.setSlot h.slots.drop, ⟨rfl, fun _ _ => rfl, fun _ _ _ _ _ => rfl⟩,
      fun hn => absurd hn hl, fun _ => rfl⟩

theorem ialloc_inv {type : Int16} (h : FsInv G s) :
    (ialloc type s).Runs (Touch G (metaFrame s)) P s fun r s' =>
      FsInv G s' ∧ match freeInum s with
        | none => r = none ∧ Touch G .nothing s s'
        | some inum => ∃ ip, r = some ip ∧ igetSlot s.itable inum = some ip ∧
            s'.itable = update s.itable ip ((s.itable ip).got inum) ∧
            dinodes s' = update (dinodes s) inum (Dinode.fresh type) ∧
            Others G inum s s' := by
  refine (ialloc_runs (fun p s hp => hres p s (exhausted_resource hp)) h.ok (fun j hj =>
    ⟨metaFrame_inode h (freeInum_some hj).2.1, fun _ _ => trivial⟩) fun s' => hres _ _ rfl).imp
    fun r s' ht hq => ?_
  cases hf : freeInum s with
  | none =>
    rw [hf] at hq
    obtain ⟨h1, h2, h3⟩ := hq
    refine ⟨h.still h2 (fun _ hf => hf) h3 ?_, h1, h2⟩
    rw [h2.itable_eq fun _ hf => hf]
    exact h.slots
  | some j =>
    rw [hf] at hq
    obtain ⟨ip, h1, h2, hit, hd, hb, hr⟩ := hq
    obtain ⟨-, hlt, h0⟩ := freeInum_some hf
    have hown : owner s' = owner s := by
      rw [owner_update hd]
      have he : (if (Dinode.fresh type).type = 0 then [] else
          blocksOf (Dinode.fresh type).extents.1) = owner s j := by
        rw [owner, if_pos h0]
        split
        · rfl
        · exact blocksOf_none
      rw [he, update_eq_self]
    have ht' := ht.mono (metaFrame_le (i := j))
    refine ⟨h.next ht' opFrame_range (h.ok.same ht hr hb) (by rw [hown, hb]; exact h.owned) ?_,
      ip, h1, h2, hit, hd, h.others ht' fun k hk => by rw [hd, update_of_ne hk]⟩
    rw [hd, hit]
    exact (h.slots.alloc h0 _).get h2 hlt

omit hres in
theorem idup_inv (h : FsInv G s) (hr : 0 < (s.itable ip).ref) :
    (idup ip s).Runs (Touch G (.slot ip)) P s fun _ s' =>
      FsInv G s' ∧ s' = s.setSlot ip (s.itable ip).dup := by
  refine touch_bind (Frame.Le.refl _) (setInode_runs _) fun _ s1 _ hq => touch_pure ⟨?_, hq⟩
  rw [hq]
  exact h.setSlot (h.slots.same hr rfl rfl rfl)

/-- A block is read: another buffer may be recycled for it. -/
theorem peek_inv {b : Nat} (h : FsInv G s) :
    (peek b s).Runs (Touch G .nothing) P s fun _ s' => FsInv G s' := by
  refine touch_bind (Frame.Le.refl _)
    (bread_ready (starved_of fun p s hp => hres p s (exhausted_resource hp)) h.ok.ready) fun _ s1 ht hq => ?_
  refine (brelse_runs hq.2.2).imp fun _ s2 ht2 hq2 => ?_
  refine h.still (ht.trans ht2) (fun _ hf => hf) hq2.2 ?_
  rw [(ht.trans ht2).itable_eq fun _ hf => hf]
  exact h.slots

omit hres in
/-- Between transactions only the count of system calls changes. -/
theorem Journaled.relog (h : Journaled G s) (k : Int) :
    Journaled G { s with log := { s.log with outstanding := k } } :=
  ⟨⟨h.ok.layout, h.ok.metaIn, h.ok.reserved,
    ⟨⟨h.ok.ready.cached.bufs, h.ok.ready.cached.clean⟩, h.ok.ready.nodup, h.ok.ready.len⟩⟩,
    h.start, h.idle, h.logged⟩

omit hres in
theorem FsInv.relog (h : FsInv G s) (k : Int) :
    FsInv G { s with log := { s.log with outstanding := k } } :=
  have hj := h.journaled.relog k
  ⟨hj.ok, hj.start, hj.idle, hj.logged, h.owned, h.slots⟩

omit hres in
theorem beginOp_inv (h : FsInv G s) :
    (beginOp s).Sat (fun _ s' => FsInv G s' ∧ ∃ k, s' = { s with log := { s.log with outstanding := k } })
      fun p s' => P p s' := by
  unfold beginOp
  cases hb : s.log.beginOp with
  | none => exact ⟨h, s.log.outstanding, rfl⟩
  | some l =>
    obtain ⟨-, -, rfl⟩ := Log.beginOp_some hb
    exact ⟨h.relog _, _, rfl⟩

/-- What the kernel sees is the same after `end_op`, whether it commits or not. -/
structure SameView (G : Nat → Prop) (s s' : Fs) : Prop where
  sb : s'.sb = s.sb
  itable : s'.itable = s.itable
  errs : s'.checksumErrors = s.checksumErrors
  bits : bits s' = bits s
  dinodes : dinodes s' = dinodes s
  view : ∀ b, G b → s.sb.dataStart ≤ b → view s' b = view s b
  /-- the disk is as it was, or the transaction has been committed -/
  durable : s'.disk = s.disk ∨ s'.log.lh = []

omit hres in
theorem Journaled.committed {s' : Fs} (h : Journaled G s) (hc : Committed G s s') :
    Journaled G s' ∧ SameView G s s' := by
  have hL := h.ok.layout
  have hout : ∀ c, s.sb.inodestart ≤ c → ¬ s.log.region c := fun c hc hr => by
    have := hL.log
    unfold Log.region at hr
    rw [h.start] at hr
    omega
  have hb : bits s' = bits s := bits_of_view hL hc.sb fun c h1 h2 =>
    hc.view c (h.ok.metaIn c h2) (hout c (le_trans hL.inode_le h1))
  have hd : dinodes s' = dinodes s := dinodes_of_view hL hc.sb fun c h1 h2 =>
    hc.view c (h.ok.metaIn c (lt_of_lt_of_le h2 hL.bmap_le)) (hout c h1)
  refine ⟨⟨h.ok.next hc.sb hc.ready fun c _ hx => by rw [hb]; exact hx, ?_, ?_, ?_⟩,
    hc.sb, hc.itable, hc.errs, hb, hd, fun b hG hdata => hc.view b hG (hout b ?_), Or.inr ?_⟩
  · rw [hc.log, hc.sb]
    exact h.start
  · rw [hc.log]
  · rw [hc.log]
    exact fun b hb => by cases hb
  · exact le_trans hL.inode_le (le_trans hL.bmap_le hdata)
  · rw [hc.log]

omit hres in
theorem FsInv.seen {s' : Fs} (h : FsInv G s) (hj : Journaled G s') (hv : SameView G s s') :
    FsInv G s' := by
  refine ⟨hj.ok, hj.start, hj.idle, hj.logged, ?_, ?_⟩
  · rw [hv.sb, hv.bits, owner_congr hv.dinodes]
    exact h.owned
  · rw [hv.sb, hv.dinodes, hv.itable]
    exact h.slots

omit hres in
/-- The last `end_op` of a transaction commits it, if the log leaves a buffer free. -/
theorem Journaled.commits (h : Journaled G s) (hout : s.log.outstanding = 1) :
    (endOp s).Sat (fun _ s' => Committed G s s') fun _ _ => NBUF ≤ s.log.lh.length := by
  have hL := h.ok.layout
  have h1 := hL.log
  have h2 := hL.inode_le
  have h3 := hL.bmap_le
  have hregion : ∀ c, s.log.region c → c < s.sb.inodestart := fun c hr => by
    unfold Log.region at hr
    rw [h.start] at hr
    omega
  refine (endOp_commits h.ok.ready (fun c hr => h.ok.metaIn c ?_) (fun b hb hr => ?_) h.idle
    hout).mono (fun _ _ hq => hq.2) fun _ _ hp => hp.1
  · have := hregion c hr
    omega
  · have := hregion b hr
    have := (h.logged b hb).1
    omega

omit hres in
theorem FsInv.commits (h : FsInv G s) (hout : s.log.outstanding = 1) :
    (endOp s).Sat (fun _ s' => Committed G s s') fun _ _ => NBUF ≤ s.log.lh.length :=
  h.journaled.commits hout

/-- **`end_op`** keeps all contents. -/
theorem endOp_journaled (h : Journaled G s) :
    (endOp s).Sat (fun _ s' => Journaled G s' ∧ SameView G s s') fun p s' => P p s' := by
  have hf : (endOp s).Sat (fun _ _ => True) fun p s' => P p s' :=
    (endOp_fails s).mono (fun _ _ hq => hq) fun p s' hp => by
      rcases hp with rfl | rfl <;> exact hres _ _ rfl
  by_cases hout : s.log.outstanding = 1
  · have hc := h.commits hout
    cases e : endOp s with
    | ok a s' =>
      rw [e] at hc
      exact h.committed hc
    | fail p s' =>
      rw [e] at hf
      exact hf
  · rw [endOp_more h.idle hout]
    exact ⟨h.relog _, rfl, rfl, rfl, rfl, rfl, fun _ _ _ => rfl, Or.inl rfl⟩

theorem endOp_inv (h : FsInv G s) :
    (endOp s).Sat (fun _ s' => FsInv G s' ∧ SameView G s s') fun p s' => P p s' := by
  refine (endOp_journaled hres h.journaled).imp fun _ s' hq => ?_
  exact ⟨h.seen hq.1 hq.2, hq.2⟩

end Rules

end HaiOS
