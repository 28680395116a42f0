/-
  File:      HaiOS/Fs/Inode.lean
  Subject:   THE INODE TABLE AND BLOCK MAPPING (kernel/fs.c: iget, idup, ilock, iunlock,
             iupdate, ialloc, bmap).

  * `FsOk G` -- the file system is ready for the next routine;
  * `Grown new es` -- a file has taken the blocks `new` and has the extents `es`;
  * `bmap_runs` -- `bmap` makes the allocations of `grow`, and panics exactly when `grow`
    overflows.
-/
import HaiOS.Fs.Extents

namespace HaiOS

open Lib Function

/-! ## 1. The routines -/

/-- The fields of `ip`. -/
def inode (ip : Nat) : FsM Inode := Routine.gets (·.itable ip)

def Fs.setSlot (s : Fs) (ip : Nat) (x : Inode) : Fs :=
  { s with itable := update s.itable ip x }

/-- Assign to the fields of `ip`. -/
def setInode (ip : Nat) (f : Inode → Inode) : FsM Unit :=
  Routine.update fun s => s.setSlot ip (f (s.itable ip))

/-- `iget`'s loop, first purpose: is the inode already in the table? -/
def findSlot (t : Nat → Inode) (inum : Nat) : Option Nat :=
  (List.range NINODE).find? fun i => decide (0 < (t i).ref ∧ (t i).inum = inum)

/-- `iget`'s loop, second purpose: remember the first empty slot. -/
def emptySlot (t : Nat → Inode) : Option Nat :=
  (List.range NINODE).find? fun i => decide ((t i).ref = 0)

/-- `ip->ref++`. -/
def Inode.dup (x : Inode) : Inode := { x with ref := x.ref + 1 }

/-- A recycled entry. -/
def Inode.fresh (x : Inode) (inum : Nat) : Inode :=
  { x with inum := inum, ref := 1, valid := false }

/-- Find the inode with number `inum` and return the in-memory copy. Does not lock the inode
    and does not read it from disk. -/
def iget (inum : Nat) : FsM Nat := do
  let t ← Routine.gets (·.itable)
  match findSlot t inum with
  | some ip => do
    setInode ip Inode.dup
    pure ip
  | none =>
    match emptySlot t with
    | some ip => do
      setInode ip fun x => x.fresh inum
      pure ip
    | none => Routine.stop .igetNoInodes

/-- Increment reference count for `ip`. -/
def idup (ip : Nat) : FsM Nat := do
  setInode ip Inode.dup
  pure ip

/-- The empty directory cache: `valid`, `truncated` and `nentries` are cleared. -/
def Dircache.reset (c : Dircache) : Dircache :=
  { c with valid := false, truncated := false, entries := [] }

/-- The in-memory inode after it has been read from disk. -/
def Inode.loaded (x : Inode) (d : Dinode) : Inode :=
  { x with din := d, valid := true, cache := x.cache.reset }

/-- `if(ip->valid == 0) ...` -/
def iload (ip : Nat) : FsM Unit := do
  let x ← inode ip
  if x.valid then pure ()
  else do
    let sb ← Routine.gets (·.sb)
    let d ← bread (iblock sb x.inum)
    setInode ip fun x => x.loaded (getDinode d (x.inum % IPB))
    brelse (iblock sb x.inum)
    if (getDinode d (x.inum % IPB)).type = 0 then Routine.stop .ilockNoType else pure ()

/-- Lock the given inode. Reads the inode from disk if necessary. -/
def ilock (ip : Nat) : FsM Unit := do
  let x ← inode ip
  if x.ref < 1 then Routine.stop .ilock else iload ip

/-- Unlock the given inode. -/
def iunlock (ip : Nat) : FsM Unit := do
  let x ← inode ip
  if x.ref < 1 then Routine.stop .iunlock else pure ()

/-- Copy a modified in-memory inode to disk. -/
def iupdate (ip : Nat) : FsM Unit := do
  let x ← inode ip
  let sb ← Routine.gets (·.sb)
  let d ← bread (iblock sb x.inum)
  logUpdate (iblock sb x.inum) (putDinode d (x.inum % IPB) x.din)

/-- A new inode on the disk: zero but for the type and the checksum of the empty file. -/
def Dinode.fresh (type : Int16) : Dinode := { Dinode.zero with type := type, checksum := 1 }

/-- The loop of `ialloc` over `n` inodes from `inum` on. -/
def iallocLoop (type : Int16) : Nat → Nat → FsM (Option Nat)
  | 0, _ => pure none
  | n + 1, inum => do
    let sb ← Routine.gets (·.sb)
    let d ← bread (iblock sb inum)
    if (getDinode d (inum % IPB)).type = 0 then do
      logUpdate (iblock sb inum) (putDinode d (inum % IPB) (Dinode.fresh type))
      let ip ← iget inum
      pure (some ip)
    else do
      brelse (iblock sb inum)
      iallocLoop type n (inum + 1)

/-- Allocate an inode: an unlocked but allocated and referenced inode, or `none` if there is no
    free inode. -/
def ialloc (type : Int16) : FsM (Option Nat) := do
  let sb ← Routine.gets (·.sb)
  iallocLoop type (sb.ninodes - 1) 1

/-- Assign to `ip->extents`. -/
def Inode.withExtents (x : Inode) (es : Extents) : Inode := { x with din := { x.din with extents := es } }

/-- `last_start` and `last_len` after the block `nb` has been appended. -/
def lastAfter (es : Extents) (nb : Nat) (last : Nat × Nat) : Nat × Nat :=
  let len := match es.1.head? with
    | some e => if e.len = 0 then last.2 else e.len.toNat
    | none => last.2
  lastExtent es.1 (nb, len)

/-- The second loop of `bmap`: allocate forward from `base` until `bn` is reached. -/
def bmapAlloc (ip bn : Nat) : Nat → Nat → Nat × Nat → FsM Nat
  | 0, _, _ => Routine.stop .bmapUnreachable
  | n + 1, base, last => do
    let nb ← allocNear last
    if nb = 0 then pure 0
    else do
      let x ← inode ip
      match extentAppend x.din.extents nb with
      | none => Routine.stop .bmapExtentOverflow
      | some es => do
        setInode ip fun x => x.withExtents es
        if base = bn then pure nb
        else bmapAlloc ip bn n (base + 1) (lastAfter es nb last)

/-- Map logical block number `bn` to physical block, allocating as needed; 0 if out of disk
    space. -/
def bmap (ip bn : Nat) : FsM Nat := do
  let x ← inode ip
  match bmapScan bn x.din.extents.1 0 (0, 0) with
  | .inl b => pure b
  | .inr (base, last) => bmapAlloc ip bn (bn + 1 - base) base last

/-! ## 2. States between routines -/

section

variable (s : Fs) (ip : Nat) (x : Inode)

@[simp] theorem setSlot_itable :
    (s.setSlot ip x).itable = update s.itable ip x := rfl

@[simp] theorem view_setSlot : view (s.setSlot ip x) = view s := rfl

@[simp] theorem bits_setSlot : bits (s.setSlot ip x) = bits s := rfl

@[simp] theorem dinodes_setSlot :
    dinodes (s.setSlot ip x) = dinodes s := rfl

end

theorem bits_outside (s : Fs) : ∀ b, s.sb.size ≤ b → bits s b = true := by
  intro b hb
  exact if_neg (by omega)

/-- The inode slot `ip`. -/
def Frame.slot (ip : Nat) : Frame := ⟨fun _ => False, fun i => i = ip, False⟩

variable {ip inum : Nat}

theorem Frame.slot_le {F : Frame} (h : F.slots ip) : (Frame.slot ip).Le F :=
  ⟨fun _ h => h.elim, fun i hi => by rw [show i = ip from hi]; exact h, fun h => h.elim⟩

/-- **The file system is ready for the next routine**: the regions of the disk, the blocks before
    the data blocks in use, and no buffer held. -/
structure FsOk (G : Nat → Prop) (s : Fs) : Prop where
  layout : Layout s.sb
  metaIn : MetaIn G s.sb
  reserved : ∀ c < s.sb.dataStart, bits s c = true
  ready : Ready G s

/-- The part of it that does not speak of the bitmap. -/
structure Mounted (G : Nat → Prop) (s : Fs) : Prop where
  layout : Layout s.sb
  metaIn : MetaIn G s.sb
  ready : Ready G s

section Ok

variable {G : Nat → Prop} {F : Frame} {s s' : Fs}

theorem FsOk.mounted (h : FsOk G s) : Mounted G s := ⟨h.layout, h.metaIn, h.ready⟩

theorem Mounted.next (h : Mounted G s) (hsb : s'.sb = s.sb) (hr : Ready G s') : Mounted G s' :=
  ⟨hsb ▸ h.layout, hsb ▸ h.metaIn, hr⟩

theorem FsOk.next (h : FsOk G s) (hsb : s'.sb = s.sb) (hr : Ready G s')
    (hb : ∀ c < s.sb.dataStart, bits s c = true → bits s' c = true) : FsOk G s' :=
  ⟨hsb ▸ h.layout, hsb ▸ h.metaIn, by
    rw [hsb]
    exact fun c hc => hb c hc (h.reserved c hc), hr⟩

/-- After a routine that leaves the bitmap. -/
theorem FsOk.same (h : FsOk G s) (ht : Touch G F s s') (hr : Ready G s') (hb : bits s' = bits s) :
    FsOk G s' :=
  h.next ht.sb hr fun _ _ hc => hb ▸ hc

theorem ready_setSlot (h : Ready G s) (ip : Nat) (x : Inode) : Ready G (s.setSlot ip x) :=
  ⟨⟨h.cached.bufs, h.cached.clean⟩, h.nodup, h.len⟩

theorem touch_setSlot (s : Fs) (ip : Nat) (x : Inode) : Touch G (.slot ip) s (s.setSlot ip x) :=
  ⟨rfl, rfl, rfl, rfl, ⟨[], by simp [Fs.setSlot]⟩, fun h => h, fun _ _ => Or.inl rfl,
    fun _ hi => update_of_ne hi _ _, fun _ => rfl⟩

theorem Mounted.setSlot (h : Mounted G s) (ip : Nat) (x : Inode) : Mounted G (s.setSlot ip x) :=
  h.next rfl (ready_setSlot h.ready ip x)

theorem setInode_runs {P : Panic → Fs → Prop} {ip : Nat} (f : Inode → Inode) :
    (setInode ip f s).Runs (Touch G (.slot ip)) P s fun _ s' =>
      s' = s.setSlot ip (f (s.itable ip)) :=
  ⟨touch_setSlot s ip _, rfl⟩

/-- After a routine with no block in its frame. -/
theorem Mounted.still (h : Mounted G s) (ht : Touch G F s s') (hF : ∀ b, ¬ F.blocks b)
    (hr : Ready G s') : bits s' = bits s ∧ dinodes s' = dinodes s ∧ Mounted G s' :=
  ⟨ht.bits_eq h.layout h.metaIn fun b _ _ => hF b, ht.dinodes_eq h.layout h.metaIn fun b _ _ => hF b,
    h.next ht.sb hr⟩

theorem FsOk.still (h : FsOk G s) (ht : Touch G F s s') (hF : ∀ b, ¬ F.blocks b)
    (hr : Ready G s') : bits s' = bits s ∧ dinodes s' = dinodes s ∧ FsOk G s' := by
  obtain ⟨hb, hd, -⟩ := h.mounted.still ht hF hr
  exact ⟨hb, hd, h.same ht hr hb⟩

end Ok

/-! ## 3. Rules for the inode table -/

/-- The slot `iget` returns. -/
def igetSlot (t : Nat → Inode) (inum : Nat) : Option Nat := (findSlot t inum).or (emptySlot t)

/-- What `iget` makes of it. -/
def Inode.got (x : Inode) (inum : Nat) : Inode :=
  if 0 < x.ref then x.dup else x.fresh inum

variable {t : Nat → Inode}

theorem findSlot_some (h : findSlot t inum = some ip) :
    ip < NINODE ∧ 0 < (t ip).ref ∧ (t ip).inum = inum := by
  have h1 := List.mem_of_find?_eq_some h
  have h2 := List.find?_some h
  simp only [decide_eq_true_eq] at h2
  exact ⟨List.mem_range.mp h1, h2⟩

theorem findSlot_none (h : findSlot t inum = none) :
    ∀ ip < NINODE, 0 < (t ip).ref → (t ip).inum ≠ inum := by
  intro ip hip hr he
  have := List.find?_eq_none.mp h ip (List.mem_range.mpr hip)
  simp [hr, he] at this

theorem emptySlot_some (h : emptySlot t = some ip) :
    ip < NINODE ∧ (t ip).ref = 0 := by
  have h1 := List.mem_of_find?_eq_some h
  have h2 := List.find?_some h
  simp only [decide_eq_true_eq] at h2
  exact ⟨List.mem_range.mp h1, h2⟩

/-- The slot is the one of the inode, or an unused one when the inode has none. -/
theorem igetSlot_some (h : igetSlot t inum = some ip) :
    ip < NINODE ∧ ((0 < (t ip).ref ∧ (t ip).inum = inum) ∨
      ((t ip).ref = 0 ∧ ∀ i < NINODE, 0 < (t i).ref → (t i).inum ≠ inum)) := by
  unfold igetSlot at h
  cases hf : findSlot t inum with
  | some i =>
    rw [hf] at h
    obtain rfl := Option.some.inj h
    obtain ⟨h1, h2⟩ := findSlot_some hf
    exact ⟨h1, Or.inl h2⟩
  | none =>
    rw [hf] at h
    obtain ⟨h1, h2⟩ := emptySlot_some (h : emptySlot t = some ip)
    exact ⟨h1, Or.inr ⟨h2, findSlot_none hf⟩⟩

section Rules

variable {G : Nat → Prop} {F : Frame} {P : Panic → Fs → Prop} {s : Fs} {ip inum : Nat}

/-- **`iget`**. -/
theorem iget_runs (hF : ∀ ip, igetSlot s.itable inum = some ip → F.slots ip)
    (hnone : igetSlot s.itable inum = none → P .igetNoInodes s) :
    (iget inum s).Runs (Touch G F) P s fun ip s' =>
      igetSlot s.itable inum = some ip ∧ s' = s.setSlot ip ((s.itable ip).got inum) := by
  simp only [iget, Routine.gets_bind]
  cases hf : findSlot s.itable inum with
  | some ip =>
    have hs : igetSlot s.itable inum = some ip := by simp [igetSlot, hf]
    refine touch_bind (Frame.slot_le (hF ip hs)) (setInode_runs Inode.dup) fun _ s1 ht hq => ?_
    subst hq
    refine touch_pure ⟨hs, ?_⟩
    rw [Inode.got, if_pos (findSlot_some hf).2.1]
  | none =>
    cases he : emptySlot s.itable with
    | some ip =>
      have hs : igetSlot s.itable inum = some ip := by simp [igetSlot, hf, he]
      refine touch_bind (Frame.slot_le (hF ip hs)) (setInode_runs fun x => x.fresh inum)
        fun _ s1 ht hq => ?_
      subst hq
      refine touch_pure ⟨hs, ?_⟩
      rw [Inode.got, if_neg]
      have := (emptySlot_some he).2
      omega
    | none => exact runs_stop Touch.refl (hnone (by simp [igetSlot, hf, he]))

/-- The in-memory inode after `ilock`, with `d` on the disk. -/
def Inode.locked (x : Inode) (d : Dinode) : Inode := if x.valid then x else x.loaded d

section Mounted

variable (hP : ∀ p s, Exhausted p s → P p s) (hok : Mounted G s)
include hP hok

theorem Mounted.iload_runs (hi : (s.itable ip).inum < s.sb.ninodes)
    (htype : (s.itable ip).valid = false → (dinodes s (s.itable ip).inum).type = 0 →
      ∀ s', P .ilockNoType s') :
    (iload ip s).Runs (Touch G (.slot ip)) P s fun _ s' =>
      s'.itable = update s.itable ip
        ((s.itable ip).locked (dinodes s (s.itable ip).inum)) ∧ Ready G s' ∧
      ((s.itable ip).valid = false → (dinodes s (s.itable ip).inum).type ≠ 0) := by
  have hd : dinodes s (s.itable ip).inum =
      getDinode (view s (iblock s.sb (s.itable ip).inum)) ((s.itable ip).inum % IPB) := if_pos hi
  simp only [iload, inode, Routine.gets_bind]
  refine runs_ite (fun hv => ?_) fun hv => ?_
  · refine touch_pure ⟨?_, hok.ready, fun hf => by rw [hv] at hf; cases hf⟩
    rw [Inode.locked, if_pos hv, update_eq_self]
  · rw [Bool.not_eq_true] at hv
    rw [hd] at htype ⊢
    rw [Routine.gets_bind]
    refine touch_bind (Frame.nothing_le _) (bread_ready (starved_of hP) hok.ready) fun d s1 ht hq => ?_
    obtain ⟨rfl, -, hh⟩ := hq
    have ht1 : s1.itable = s.itable := ht.itable_eq fun _ hf => hf
    refine touch_bind (Frame.Le.refl _) (setInode_runs _) fun _ s2 ht2 hq2 => ?_
    subst hq2
    have hh2 : Holding G (iblock s.sb (s.itable ip).inum) (s1.setSlot ip ((s1.itable ip).loaded
        (getDinode (view s (iblock s.sb (s.itable ip).inum)) ((s1.itable ip).inum % IPB)))) :=
      ⟨⟨hh.cached.bufs, hh.cached.clean⟩, hh.nodup, hh.len, hh.clean⟩
    refine touch_bind (Frame.nothing_le _) (brelse_runs hh2) fun _ s3 ht3 hq3 => ?_
    refine runs_ite (fun h0 => runs_stop Touch.refl (htype hv h0 s3)) fun h0 => ?_
    refine touch_pure ⟨?_, hq3.2, fun _ => h0⟩
    rw [ht3.itable_eq fun _ hf => hf, setSlot_itable, ht1, Inode.locked, if_neg (by simp [hv])]

/-- **`ilock`** gives the inode as it is on the disk, unless it has been read before. -/
theorem ilock_runs (hi : 1 ≤ (s.itable ip).ref → (s.itable ip).inum < s.sb.ninodes)
    (href : (s.itable ip).ref < 1 → P .ilock s)
    (htype : (s.itable ip).valid = false → (dinodes s (s.itable ip).inum).type = 0 →
      ∀ s', P .ilockNoType s') :
    (ilock ip s).Runs (Touch G (.slot ip)) P s fun _ s' =>
      1 ≤ (s.itable ip).ref ∧
      s'.itable = update s.itable ip
        ((s.itable ip).locked (dinodes s (s.itable ip).inum)) ∧ Ready G s' ∧
      ((s.itable ip).valid = false → (dinodes s (s.itable ip).inum).type ≠ 0) := by
  simp only [ilock, inode, Routine.gets_bind]
  refine runs_ite (fun h => runs_stop Touch.refl (href h)) fun h => ?_
  exact (Mounted.iload_runs hP hok (hi (by omega)) htype).imp fun _ s' _ hq => ⟨by omega, hq⟩

omit hP in
/-- The disk after inode `inum` has been changed. -/
theorem Mounted.dinode_written {s' : Fs} {d : Dinode}
    (ht : Touch G (.block (iblock s.sb inum)) s s') (hi : inum < s.sb.ninodes)
    (hv : ∀ c, G c → view s' c = update (view s) (iblock s.sb inum)
      (putDinode (view s (iblock s.sb inum)) (inum % IPB) d) c) :
    dinodes s' = update (dinodes s) inum d ∧ bits s' = bits s := by
  refine ⟨dinodes_update hok.layout hok.metaIn ht.sb hi hv, ?_⟩
  refine ht.bits_eq hok.layout hok.metaIn fun b h1 _ hb => ?_
  have h2 := (iblock_bounds hok.layout hi).2
  rw [show b = iblock s.sb inum from hb] at h1
  omega

/-- **`iupdate`** makes the inode on the disk the one in memory. -/
theorem iupdate_runs (hi : (s.itable ip).inum < s.sb.ninodes) :
    (iupdate ip s).Runs (Touch G (.block (iblock s.sb (s.itable ip).inum))) P s fun _ s' =>
      dinodes s' = update (dinodes s) (s.itable ip).inum (s.itable ip).din ∧
      bits s' = bits s ∧ Ready G s' := by
  simp only [iupdate, inode, Routine.gets_bind]
  refine (poke_runs hP hok.ready fun d =>
    putDinode d ((s.itable ip).inum % IPB) (s.itable ip).din).imp fun _ s' ht hq => ?_
  obtain ⟨h1, h2⟩ := hok.dinode_written ht hi hq.1
  exact ⟨h1, h2, hq.2.2⟩

end Mounted

variable (hP : ∀ p s, Exhausted p s → P p s) (hok : FsOk G s)
include hP hok

/-- What `ialloc` does that should take inode `o`. -/
def Iallocs (G : Nat → Prop) (type : Int16) (s : Fs) (o : Option Nat) (r : Option Nat) (s' : Fs) :
    Prop :=
  match o with
  | none => r = none ∧ Touch G .nothing s s' ∧ Ready G s'
  | some inum => ∃ ip, r = some ip ∧ igetSlot s.itable inum = some ip ∧
      s'.itable = update s.itable ip ((s.itable ip).got inum) ∧
      dinodes s' = update (dinodes s) inum (Dinode.fresh type) ∧
      bits s' = bits s ∧ Ready G s'

theorem iallocLoop_runs {type : Int16} {n : Nat} (hn : inum + n ≤ s.sb.ninodes)
    (hF : ∀ i, (List.range' inum n).find? (fun i => decide ((dinodes s i).type = 0)) = some i →
      F.blocks (iblock s.sb i) ∧ ∀ ip, igetSlot s.itable i = some ip → F.slots ip)
    (hnone : ∀ s', P .igetNoInodes s') :
    (iallocLoop type n inum s).Runs (Touch G F) P s
      (Iallocs G type s
        ((List.range' inum n).find? fun i => decide ((dinodes s i).type = 0))) := by
  induction n generalizing s inum with
  | zero => exact touch_pure ⟨rfl, Touch.refl s, hok.ready⟩
  | succ n ih =>
    have hd : dinodes s inum = getDinode (view s (iblock s.sb inum)) (inum % IPB) :=
      if_pos (by omega)
    simp only [iallocLoop, Routine.gets_bind]
    rw [List.range'_succ, List.find?_cons] at hF ⊢
    refine touch_bind (Frame.nothing_le F) (bread_ready (starved_of hP) hok.ready) fun d s1 ht hq => ?_
    obtain ⟨rfl, -, hh⟩ := hq
    rw [← hd]
    refine runs_ite (fun h0 => ?_) fun h0 => ?_
    · simp only [h0, decide_true] at hF ⊢
      obtain ⟨hF1, hF2⟩ := hF inum rfl
      refine touch_bind (Frame.block_le hF1) (logUpdate_runs hP hh) fun _ s2 ht2 hq2 => ?_
      have hit : s2.itable = s.itable := by
        rw [ht2.itable_eq fun _ hf => hf, ht.itable_eq fun _ hf => hf]
      have ht12 := (ht.mono (Frame.nothing_le _)).trans ht2
      obtain ⟨h1, h2⟩ := hok.mounted.dinode_written (d := Dinode.fresh type) ht12 (by omega)
        fun c hc => by rw [hq2.1, ht.update_view hc]
      rw [← hit] at hF2
      refine touch_bind (Frame.Le.refl F) (iget_runs hF2 fun _ => hnone s2) fun ip s3 ht3 hq3 => ?_
      obtain ⟨h3, rfl⟩ := hq3
      rw [hit] at h3
      refine touch_pure ⟨ip, rfl, h3, ?_, h1, h2, ready_setSlot hq2.2.2 ip _⟩
      rw [setSlot_itable, hit]
    · simp only [h0, decide_false] at hF ⊢
      refine touch_bind (Frame.nothing_le F) (brelse_runs hh) fun _ s2 ht2 hq2 => ?_
      have ht12 := ht.trans ht2
      obtain ⟨hb, hdd, hok2⟩ := hok.still ht12 (fun _ hf => hf) hq2.2
      have hit : s2.itable = s.itable := ht12.itable_eq fun _ hf => hf
      have := @ih s2 (inum + 1) hok2 (by rw [ht12.sb]; omega)
        (by rw [hdd, hit, ht12.sb]; exact hF)
      rw [hdd] at this
      refine this.imp fun r s' _ hq => ?_
      generalize (List.range' (inum + 1) n).find? _ = o at hq ⊢
      cases o with
      | none => exact ⟨hq.1, ht12.trans hq.2.1, hq.2.2⟩
      | some i =>
        obtain ⟨ip, h1, h2, h3, h4, h5, h6⟩ := hq
        rw [hit] at h2 h3
        exact ⟨ip, h1, h2, h3, hdd ▸ h4, hb ▸ h5, h6⟩

/-- The inode `ialloc` takes. -/
def freeInum (s : Fs) : Option Nat :=
  (List.range' 1 (s.sb.ninodes - 1)).find? fun i => decide ((dinodes s i).type = 0)

omit hP hok in
theorem freeInum_some {i : Nat} (h : freeInum s = some i) :
    1 ≤ i ∧ i < s.sb.ninodes ∧ (dinodes s i).type = 0 := by
  have h1 := List.mem_range'_1.mp (List.mem_of_find?_eq_some h)
  have h2 := List.find?_some h
  simp only [decide_eq_true_eq] at h2
  exact ⟨h1.1, by omega, h2⟩

/-- **`ialloc`** takes the first free inode and references it. -/
theorem ialloc_runs {type : Int16}
    (hF : ∀ i, freeInum s = some i →
      F.blocks (iblock s.sb i) ∧ ∀ ip, igetSlot s.itable i = some ip → F.slots ip)
    (hnone : ∀ s', P .igetNoInodes s') :
    (ialloc type s).Runs (Touch G F) P s (Iallocs G type s (freeInum s)) := by
  simp only [ialloc, Routine.gets_bind]
  by_cases h1 : 1 ≤ s.sb.ninodes
  · exact iallocLoop_runs hP hok (by omega) hF hnone
  · have : s.sb.ninodes - 1 = 0 := by omega
    simp only [freeInum, this]
    exact touch_pure ⟨rfl, Touch.refl s, hok.ready⟩

end Rules

/-! ## 4. bmap -/

/-- **Inode `ip` has taken the free blocks `new`, zeroed, and has the extents `es`.** -/
structure Grown (G : Nat → Prop) (ip : Nat) (new : List Nat) (es : Extents) (s s' : Fs) : Prop where
  sb : s'.sb = s.sb
  free : ∀ c ∈ new, bits s c = false
  bits : bits s' = mark (bits s) new
  dinodes : dinodes s' = dinodes s
  itable : s'.itable = update s.itable ip ((s.itable ip).withExtents es)
  data : ∀ c, G c → s.sb.dataStart ≤ c → c ∉ new → view s' c = view s c
  zero : ∀ c ∈ new, G c → view s' c = fun _ => 0
  ok : FsOk G s'

section Bmap

variable {G : Nat → Prop} {F : Frame} {P : Panic → Fs → Prop} {s s1 s2 : Fs} {ip bn : Nat}
  {new new' : List Nat} {es es' : Extents}

theorem Grown.slot (h : Grown G ip new es s s1) :
    s1.itable ip = (s.itable ip).withExtents es := by
  rw [h.itable, update_self]

theorem Grown.nil (hok : FsOk G s) : Grown G ip [] (s.itable ip).din.extents s s :=
  ⟨rfl, by simp, (mark_nil _).symm, rfl, (update_eq_self ip s.itable).symm,
    fun _ _ _ _ => rfl, by simp, hok⟩

theorem Grown.trans (hok : FsOk G s) (h : Grown G ip new es s s1) (h' : Grown G ip new' es' s1 s2) :
    Grown G ip (new ++ new') es' s s2 := by
  have hfree' : ∀ c ∈ new', HaiOS.bits s c = false ∧ c ∉ new := fun c hc => by
    have := h'.free c hc
    rw [h.bits] at this
    exact mark_eq_false.mp this
  refine ⟨h'.sb.trans h.sb, ?_, ?_, h'.dinodes.trans h.dinodes, ?_, ?_, ?_, h'.ok⟩
  · intro c hc
    rcases List.mem_append.mp hc with hc | hc
    · exact h.free c hc
    · exact (hfree' c hc).1
  · rw [h'.bits, h.bits, mark_mark]
  · rw [h'.itable, h.itable, update_idem, update_self]
    rfl
  · intro c hG hd hc
    rw [List.mem_append, not_or] at hc
    rw [h'.data c hG (by rw [h.sb]; exact hd) hc.2, h.data c hG hd hc.1]
  · intro c hc hG
    by_cases hc' : c ∈ new'
    · exact h'.zero c hc' hG
    · have hcn : c ∈ new := (List.mem_append.mp hc).resolve_right hc'
      have hd := data_of_free hok.reserved (h.free c hcn)
      rw [h'.data c hG (by rw [h.sb]; exact hd) hc']
      exact h.zero c hcn hG

/-- An allocated block that the extents take. -/
theorem Took.grown {b : Nat} (h : Took G b s s1) (ht : Touch G (.took s.sb b) s s1) (hok : FsOk G s) :
    Grown G ip [b] es s (s1.setSlot ip ((s1.itable ip).withExtents es)) := by
  have hsb : s1.sb = s.sb := ht.sb
  refine ⟨hsb, by simpa using h.free, ?_, h.dinodes, ?_, ?_, by simpa using h.zero, ?_⟩
  · rw [bits_setSlot, h.bits, ← mark_cons, mark_nil]
  · rw [setSlot_itable, h.itable]
  · intro c hG hd hc
    refine ht.view c hG fun hf => ?_
    rcases hf with e | e
    · have := (bblock_bounds hok.layout h.lt).2
      omega
    · exact hc (by simp [e])
  · refine hok.next hsb (ready_setSlot h.ready ip _) fun c hc hb => ?_
    rw [bits_setSlot, h.bits]
    by_cases e : c = b
    · rw [e, update_self]
    · rw [update_of_ne e]
      exact hb

theorem lastAfter_eq {nb : Nat} {last : Nat × Nat} {c : Nat} (h : c ∈ blocksOf es.1) :
    lastAfter es nb last = lastExtent es.1 (0, 0) :=
  lastExtent_congr (exists_nonempty h) _ _

variable (hP : ∀ p s, Exhausted p s → P p s)
include hP

/-- **The allocation loop of `bmap`** for `n` more blocks. -/
theorem bmapAlloc_runs {n base : Nat} {g : Growth} (hok : FsOk G s) (hn : base + n = bn + 1)
    (h0 : n ≠ 0) (hlt : ∀ c ∈ blocksOf (s.itable ip).din.extents.1, c < s.sb.size)
    (hg : grow s.sb.size n (bits s) (s.itable ip).din.extents = g) (hslot : F.slots ip)
    (hF : ∀ c ∈ g.new, F.blocks (bblock s.sb c) ∧ F.blocks c)
    (hover : g.stop = .overflow → ∀ s', P .bmapExtentOverflow s') :
    (bmapAlloc ip bn n base (lastExtent (s.itable ip).din.extents.1 (0, 0)) s).Runs
      (Touch G F) P s fun r s' =>
        (g.stop = .done → g.new.getLast? = some r) ∧ (g.stop = .full → r = 0) ∧
        g.stop ≠ .overflow ∧ Grown G ip g.new g.es s s' := by
  induction n generalizing s base g with
  | zero => exact absurd rfl h0
  | succ n ih =>
    simp only [bmapAlloc]
    rcases grow_succ s.sb.size n (bits s) (s.itable ip).din.extents with
      ⟨hb, e⟩ | ⟨b, hb, he, e⟩ | ⟨b, es', hb, he, e⟩
    · -- the disk is full
      rw [e] at hg
      subst hg
      refine touch_bind (Frame.nothing_le F) (allocNear_runs hP hok.layout hok.metaIn
        hok.reserved hok.ready fun r hr => by rw [hb] at hr; cases hr) fun nb s1 ht hq => ?_
      rw [hb] at hq
      obtain ⟨rfl, ht1, hr1⟩ := hq
      refine runs_ite (fun _ => touch_pure ?_) fun h => absurd rfl h
      refine ⟨fun h => (by cases h), fun _ => rfl, by simp, ?_⟩
      obtain ⟨hbits, hdin, hok1⟩ := hok.still ht1 (fun _ hf => hf) hr1
      refine ⟨ht1.sb, by simp, by rw [hbits, mark_nil], hdin, ?_, fun c hG _ _ => ht1.view c hG
        fun hf => hf, by simp, hok1⟩
      rw [ht1.itable_eq fun _ hf => hf]
      exact (update_eq_self ip s.itable).symm
    all_goals
      have hFb : F.blocks (bblock s.sb b) ∧ F.blocks b := hF b (by rw [← hg, e]; simp)
      refine touch_bind (Frame.took_le hFb.1 hFb.2) (allocNear_runs (F := .took s.sb b) hP
        hok.layout hok.metaIn hok.reserved hok.ready fun r hr => ?_) fun nb s1 ht hq => ?_
      · rw [hb] at hr
        obtain rfl := Option.some.inj hr
        exact ⟨Or.inl rfl, Or.inr rfl⟩
      rw [hb] at hq
      obtain ⟨rfl, hT⟩ := hq
      refine runs_ite (fun h => absurd h (ne_zero_of_free hok.layout hok.reserved hT.free))
        fun _ => ?_
      have hslot1 : s1.itable ip = s.itable ip := congrFun hT.itable ip
      simp only [inode, Routine.gets_bind, hslot1, he]
    · -- the extents do not take it
      rw [e] at hg
      subst hg
      exact runs_stop Touch.refl (hover rfl s1)
    · rw [e] at hg
      subst hg
      refine touch_bind (Frame.slot_le hslot) (setInode_runs _) fun _ s2 ht2 hq2 => ?_
      subst hq2
      have hgrown : Grown G ip [nb] es' s (s1.setSlot ip ((s1.itable ip).withExtents es')) :=
        hT.grown ht hok
      refine runs_ite (fun hbase => touch_pure ?_) fun hbase => ?_
      · obtain rfl : n = 0 := by omega
        exact ⟨fun _ => rfl, fun h => (by cases h), by simp [grow], hgrown⟩
      · obtain ⟨hperm, -, hlt'⟩ := extentAppend_blocks (bits_outside s) hok.layout.small hlt hb he
        have hmem : nb ∈ blocksOf es'.1 := hperm.mem_iff.mpr (by simp)
        generalize hs2 : s1.setSlot ip ((s1.itable ip).withExtents es') = s2 at hgrown ⊢
        have hx : (s2.itable ip).din.extents = es' := by
          rw [hgrown.slot]
          rfl
        have hb2 : bits s2 = update (bits s) nb true := by
          rw [hgrown.bits, ← mark_cons, mark_nil]
        have hrun := @ih s2 (base + 1) _ hgrown.ok (by omega) (by omega)
          (by rw [hx, hgrown.sb]; exact hlt') rfl
          (by
            rw [hgrown.sb, hb2, hx]
            exact fun c hc => hF c (List.mem_cons_of_mem _ hc))
          (by rw [hgrown.sb, hb2, hx]; exact hover)
        rw [hgrown.sb, hb2, hx] at hrun
        rw [lastAfter_eq hmem]
        refine hrun.imp fun r s' _ hq => ?_
        obtain ⟨h1, h2, h3, h4⟩ := hq
        refine ⟨fun h => ?_, h2, h3, hgrown.trans hok h4⟩
        have hlast := h1 h
        rw [List.getLast?_cons, hlast]
        rfl

/-- **`bmap`** returns block `bn` of the file, which takes the blocks it needs for that; it
    panics exactly when its extents do not take one of them. -/
theorem bmap_runs {g : Growth} (hok : FsOk G s)
    (hlt : ∀ c ∈ blocksOf (s.itable ip).din.extents.1, c < s.sb.size)
    (hg : grow s.sb.size (bn + 1 - (blocksOf (s.itable ip).din.extents.1).length) (bits s)
      (s.itable ip).din.extents = g) (hslot : F.slots ip)
    (hF : ∀ c ∈ g.new, F.blocks (bblock s.sb c) ∧ F.blocks c)
    (hover : g.stop = .overflow → ∀ s', P .bmapExtentOverflow s') :
    (bmap ip bn s).Runs (Touch G F) P s fun r s' =>
      (g.stop = .done → (blocksOf (s.itable ip).din.extents.1 ++ g.new)[bn]? = some r) ∧
      (g.stop = .full → r = 0) ∧ g.stop ≠ .overflow ∧ Grown G ip g.new g.es s s' := by
  simp only [bmap, inode, Routine.gets_bind]
  rw [bmapScan_eq _ _ _ _ (Nat.zero_le bn), Nat.sub_zero]
  cases hb : (blocksOf (s.itable ip).din.extents.1)[bn]? with
  | some b =>
    have hlen := (List.getElem?_eq_some_iff.mp hb).1
    rw [Nat.sub_eq_zero_of_le hlen] at hg
    subst hg
    exact touch_pure ⟨fun _ => by simpa [grow] using hb, fun h => (by cases h), by simp [grow],
      Grown.nil hok⟩
  | none =>
    have hlen := List.getElem?_eq_none_iff.mp hb
    rw [Nat.zero_add]
    refine (bmapAlloc_runs hP hok (by omega) (by omega) hlt hg hslot hF hover).imp
      fun r s' _ hq => ⟨fun h => ?_, hq.2⟩
    have hnew := grow_done _ (hg ▸ h)
    rw [hg] at hnew
    rw [List.getElem?_append_right hlen]
    have := hq.1 h
    rw [List.getLast?_eq_getElem?, hnew] at this
    rw [← this]
    congr 1
    omega

end Bmap

end HaiOS
