/-
  File:      HaiOS/Fs/Reclaim.lean
  Subject:   FILE SYSTEM INITIALIZATION: the log is recovered and orphans are freed (kernel/fs.c:
             readsb, fsinit, ireclaim; kernel/log.c: initlog).

  The first process has its working directory before it calls `fsinit`, so the root inode has a
  reference while `ireclaim` scans the inodes, and it is not freed. Inode 0 is not scanned. An
  orphan is freed in one transaction, which logs its inode block and the bitmap blocks of its
  blocks. The inode block is logged twice, by `itrunc` and by `iput`, and the second `log_write`
  still needs a free entry of the log.

  * `turn_narrow` -- an orphan whose turn returns has its blocks in few bitmap blocks;
  * `orphans_reclaimed` -- after `fsinit` all orphans but the root are gone, nothing else has
    changed, and a second `ireclaim` changes nothing.
-/
import HaiOS.Fs.Files
import HaiOS.Fs.Image
import HaiOS.Log.Crash

namespace HaiOS.Reclaim

open Lib Crash Function

/-! ## 1. The routines -/

/-- The word at offset `off` of a block. -/
def wordAt (blk : Block) (off : Nat) : Nat := (wordOf (slice blk off 4)).toNat

/-- `memmove(sb, bp->data, sizeof(*sb))`. -/
def superOf (blk : Block) : Superblock where
  size := wordAt blk 8
  nblocks := wordAt blk 12
  ninodes := wordAt blk 16
  nlog := wordAt blk 20
  logstart := wordAt blk 24
  inodestart := wordAt blk 28
  bmapstart := wordAt blk 32

/-- Read the super block. The value is its magic number, which `fsinit` checks. -/
def readsb : FsM Nat := do
  let d ← bread 1
  Routine.update fun s => { s with sb := superOf d }
  brelse 1
  pure (wordAt d 0)

def initlog : FsM Unit := do
  Routine.update fun s => { s with log := { s.log with start := s.sb.logstart } }
  recoverFromLog

/-- `dip->type != 0 && dip->nlink == 0`. -/
def Orphan (d : Dinode) : Prop := d.type ≠ 0 ∧ d.nlink = 0

instance (d : Dinode) : Decidable (Orphan d) := inferInstanceAs (Decidable (_ ∧ _))

/-- The first half of a turn of `ireclaim`: a reference to inode `inum` if it is an orphan. -/
def scan (inum : Nat) : FsM (Option Nat) := do
  let sb ← Routine.gets (·.sb)
  let d ← bread (iblock sb inum)
  let ip ← if Orphan (getDinode d (inum % IPB)) then do
      let ip ← iget inum
      pure (some ip)
    else pure none
  brelse (iblock sb inum)
  pure ip

/-- `ilock(ip); iunlock(ip); iput(ip);` -/
def touchInode (ip : Nat) : FsM Unit := do
  ilock ip
  iunlock ip
  iput ip

/-- The second half, for `ip != 0`; `false` when `begin_op` sleeps. -/
def reclaim (ip : Nat) : FsM Bool := do
  let begun ← beginOp
  if begun then do
    touchInode ip
    endOp
    pure true
  else pure false

/-- A turn of the loop of `ireclaim`. -/
def turn (inum : Nat) : FsM Bool := do
  let r ← scan inum
  match r with
  | some ip => reclaim ip
  | none => pure true

/-- The loop over `n` inodes from `inum` on. -/
def ireclaimLoop : Nat → Nat → FsM Bool
  | 0, _ => pure true
  | n + 1, inum => do
    let awake ← turn inum
    if awake then ireclaimLoop n (inum + 1) else pure false

def ireclaim : FsM Bool := do
  let sb ← Routine.gets (·.sb)
  ireclaimLoop (sb.ninodes - 1) 1

/-- Init fs. -/
def fsinit : FsM Bool := do
  let magic ← readsb
  if magic = FSMAGIC then do
    initlog
    ireclaim
  else Routine.stop .invalidFileSystem

/-- `userinit` sets `p->cwd = namei("/")`; `forkret` then calls `fsinit(ROOTDEV)`. -/
def mount : FsM Bool := do
  let _ ← iget ROOTINO
  fsinit

/-! ## 2. States between the turns -/

/-- **The working directory is the only reference.** -/
structure Rooted (t : Nat → Inode) : Prop where
  ref : (t 0).ref = 1
  inum : (t 0).inum = ROOTINO
  rest : ∀ ip, ip ≠ 0 → (t ip).ref = 0

/-- **Between the turns**: the log is empty, no buffer is held. -/
structure Quiet (s : Fs) : Prop where
  mounted : Mounted All s
  log : s.log = ⟨s.sb.logstart, 0, false, []⟩
  table : Rooted s.itable

section Rooted

variable {t : Nat → Inode} {inum ip : Nat} {x : Inode}

theorem Rooted.slot_root (h : Rooted t) : igetSlot t ROOTINO = some 0 := by
  have hf : findSlot t ROOTINO = some 0 := by
    unfold findSlot
    rw [List.find?_eq_some_iff_getElem]
    exact ⟨by simp [h.ref, h.inum], 0, by decide, by simp, fun j hj => by omega⟩
  rw [igetSlot, hf]
  rfl

/-- Another inode gets a slot of its own. -/
theorem Rooted.slot_other (h : Rooted t) (hi : inum ≠ ROOTINO) :
    ∃ ip, igetSlot t inum = some ip ∧ ip ≠ 0 := by
  cases hs : igetSlot t inum with
  | none =>
    have he : emptySlot t = none := by
      rw [igetSlot, Option.or_eq_none_iff] at hs
      exact hs.2
    have h1 := List.find?_eq_none.mp he 1 (by decide)
    simp [h.rest 1 (by decide)] at h1
  | some ip =>
    refine ⟨ip, rfl, fun e => ?_⟩
    subst e
    rcases (igetSlot_some hs).2 with ⟨-, h1⟩ | ⟨h1, -⟩
    · exact hi (h1.symm.trans h.inum)
    · rw [h.ref] at h1
      cases h1

theorem Rooted.set_root (h : Rooted t) (hr : x.ref = 1) (hi : x.inum = ROOTINO) :
    Rooted (update t 0 x) := by
  refine ⟨?_, ?_, fun ip hip => ?_⟩
  · rw [update_self, hr]
  · rw [update_self, hi]
  · rw [update_of_ne hip]
    exact h.rest ip hip

theorem Rooted.set_other (h : Rooted t) (hip : ip ≠ 0) (hr : x.ref = 0) :
    Rooted (update t ip x) := by
  refine ⟨?_, ?_, fun jp hjp => ?_⟩
  · rw [update_of_ne hip.symm]
    exact h.ref
  · rw [update_of_ne hip.symm]
    exact h.inum
  · by_cases hj : jp = ip
    · subst hj
      rw [update_self, hr]
    · rw [update_of_ne hj]
      exact h.rest jp hjp

end Rooted

section Quiet

variable {s s' : Fs}

theorem view_clean (h : Ready All s) (hlh : s.log.lh = []) : view s = s.disk :=
  funext fun _ => h.clean trivial (by rw [hlh]; exact List.not_mem_nil)

theorem Quiet.view (h : Quiet s) : view s = s.disk := view_clean h.mounted.ready (by rw [h.log])

theorem Quiet.stored (h : Quiet s) : dinodes (Fs.boot s.sb s.disk) = dinodes s ∧
    bits (Fs.boot s.sb s.disk) = bits s := by
  have hv : ∀ c, HaiOS.view (Fs.boot s.sb s.disk) c = HaiOS.view s c := fun c => by
    rw [view_boot, h.view]
  exact ⟨dinodes_of_view h.mounted.layout (boot_sb ..) fun c _ _ => hv c,
    bits_of_view h.mounted.layout (boot_sb ..) fun c _ _ => hv c⟩

end Quiet

/-! ## 3. One turn -/

/-- Slots of the inode table. -/
def inTable : Frame := ⟨fun _ => False, fun _ => True, False⟩

/-- The inode in slot `ip` once it has been read. -/
def slotRead (s : Fs) (ip : Nat) : Inode := (s.itable ip).locked (dinodes s (s.itable ip).inum)

/-- The blocks that `iput` of `x` logs. -/
def logs (sb : Superblock) (x : Inode) : List Nat :=
  if x.last then iblock sb x.inum :: (blocksOf x.din.extents.1).map (bblock sb) else []

def putFrame (sb : Superblock) (ip : Nat) (x : Inode) : Frame :=
  ⟨fun c => c ∈ logs sb x, fun i => i = ip, False⟩

/-- **Slot `ip` has been put**; the inode is freed if this was the last reference. -/
structure Put (s : Fs) (ip : Nat) (s' : Fs) : Prop where
  mounted : Mounted All s'
  freed : (slotRead s ip).last →
    bits s' = unmark (bits s) (blocksOf (slotRead s ip).din.extents.1) ∧
    dinodes s' = update (dinodes s) (slotRead s ip).inum (slotRead s ip).freed.din ∧
    s'.itable = update s.itable ip (slotRead s ip).freed.drop
  kept : ¬ (slotRead s ip).last → bits s' = bits s ∧ dinodes s' = dinodes s ∧
    s'.itable = update s.itable ip (slotRead s ip).drop

section Turn

variable {s : Fs} {ip inum : Nat}

/-- The scan takes a reference to an orphan. -/
theorem scan_returns (hok : Mounted All s) (hlh : s.log.lh = []) (hi : inum < s.sb.ninodes)
    (hslot : igetSlot s.itable inum = some ip) :
    ∃ r s', scan inum s = .ok r s' ∧ Touch All inTable s s' ∧ Mounted All s' ∧
      bits s' = bits s ∧ dinodes s' = dinodes s ∧
      (Orphan (dinodes s inum) → r = some ip ∧
        s'.itable = update s.itable ip ((s.itable ip).got inum)) ∧
      (¬ Orphan (dinodes s inum) → r = none ∧ s'.itable = s.itable) := by
  have hd : dinodes s inum = getDinode (view s (iblock s.sb inum)) (inum % IPB) := if_pos hi
  have hruns : (scan inum s).Runs (Touch All inTable) Starved s fun r s' => Ready All s' ∧
      (Orphan (dinodes s inum) → r = some ip ∧
        s'.itable = update s.itable ip ((s.itable ip).got inum)) ∧
      (¬ Orphan (dinodes s inum) → r = none ∧ s'.itable = s.itable) := by
    rw [hd]
    unfold scan
    rw [Routine.gets_bind]
    refine touch_bind (Frame.nothing_le _) (bread_ready (fun _ _ h => h) hok.ready)
      fun d s1 ht1 hq => ?_
    obtain ⟨rfl, -, hh⟩ := hq
    have ht1' : s1.itable = s.itable := ht1.itable_eq fun _ hf => hf
    refine runs_ite (fun ho => ?_) fun ho => ?_
    · refine touch_bind (Frame.Le.refl _) (iget_runs (F := inTable) (fun _ _ => trivial) fun hn => ?_)
        fun jp s2 ht2 hq2 => ?_
      · rw [ht1', hslot] at hn
        cases hn
      obtain ⟨h2, rfl⟩ := hq2
      rw [ht1', hslot] at h2
      obtain rfl := Option.some.inj h2
      rw [Routine.pure_bind]
      have hh2 : Holding All (iblock s.sb inum) (s1.setSlot ip ((s1.itable ip).got inum)) :=
        ⟨⟨hh.cached.bufs, hh.cached.clean⟩, hh.nodup, hh.len, hh.clean⟩
      refine touch_bind (Frame.nothing_le _) (brelse_runs hh2) fun _ s3 ht3 hq3 => ?_
      refine touch_pure ⟨hq3.2, fun _ => ⟨rfl, ?_⟩, fun hn => absurd ho hn⟩
      rw [ht3.itable_eq fun _ hf => hf, setSlot_itable, ht1']
    · rw [Routine.pure_bind]
      refine touch_bind (Frame.nothing_le _) (brelse_runs hh) fun _ s3 ht3 hq3 => ?_
      refine touch_pure ⟨hq3.2, fun hn => absurd hn ho, fun _ => ⟨rfl, ?_⟩⟩
      rw [ht3.itable_eq fun _ hf => hf, ht1']
  obtain ⟨r, s', hrun, ht, hr, h1, h2⟩ := hruns.returns fun p s' ht hp => by
    have hlen := hp.2
    rw [ht.log_eq fun _ hf => hf, hlh] at hlen
    cases hlen
  obtain ⟨hb, hd', hm⟩ := hok.still ht (fun _ hf => hf) hr
  exact ⟨r, s', hrun, ht, hm, hb, hd', h1, h2⟩

/-- `ilock`, `iunlock` and `iput` of a slot in use. -/
theorem touchInode_runs (hok : Mounted All s) (hr : 0 < (s.itable ip).ref)
    (hi : (s.itable ip).inum < s.sb.ninodes)
    (htype : (s.itable ip).valid = false → (dinodes s (s.itable ip).inum).type ≠ 0)
    (hx : (slotRead s ip).last → Marked s (slotRead s ip)) :
    (touchInode ip s).Runs (Touch All (putFrame s.sb ip (slotRead s ip))) Exhausted s
      fun _ s' => Put s ip s' := by
  have hP : ∀ p s, Exhausted p s → Exhausted p s := fun _ _ h => h
  have hslot : (putFrame s.sb ip (slotRead s ip)).slots ip := rfl
  refine touch_bind (Frame.slot_le hslot) (ilock_runs hP hok (fun _ => hi) (fun h => ?_)
    fun hv h0 => absurd h0 (htype hv)) fun _ s1 ht1 hq1 => ?_
  · omega
  obtain ⟨-, hit1, hr1, -⟩ := hq1
  obtain ⟨hb1, hd1, hm1⟩ := hok.still ht1 (fun _ hf => hf) hr1
  have hx1 : s1.itable ip = slotRead s ip := by rw [hit1, update_self]; rfl
  have hlock : Locked s1 ip := by
    unfold Locked
    rw [hx1]
    unfold slotRead Inode.locked
    split
    · exact ⟨hr, ‹_›⟩
    · exact ⟨hr, rfl⟩
  rw [Routine.bind_ok (iunlock_valid hlock)]
  refine (Mounted.iput_runs hP hm1 (fun hl => ?_) (fun hl => ⟨fun b hb => ?_, ?_⟩) hslot).imp
    fun _ s2 ht2 hq2 => ?_
  · rw [hx1] at hl ⊢
    obtain ⟨h1, h2, h3, h4⟩ := hx hl
    exact ⟨by rw [ht1.sb]; exact h1, h2, by rw [hb1]; exact h3, by rw [ht1.sb]; exact h4⟩
  · rw [hx1] at hl hb
    rw [ht1.sb]
    show _ ∈ logs _ _
    rw [logs, if_pos hl]
    exact List.mem_cons_of_mem _ (List.mem_map_of_mem hb)
  · rw [hx1] at hl ⊢
    rw [ht1.sb]
    show _ ∈ logs _ _
    rw [logs, if_pos hl]
    exact List.mem_cons_self
  · obtain ⟨hm2, hlast, hnot⟩ := hq2
    rw [Emptied, hx1, hb1, hd1, hit1, update_idem] at hlast
    rw [hx1] at hnot
    refine ⟨hm2, hlast, fun hn => ?_⟩
    rw [hnot hn]
    refine ⟨hb1, hd1, ?_⟩
    rw [setSlot_itable, hit1, update_idem]

/-- The blocks that are logged lie between the log and the data blocks. -/
theorem mem_logs {sb : Superblock} {x : Inode} {c : Nat} (hL : Layout sb)
    (hi : x.inum < sb.ninodes) (hlt : x.last → ∀ b ∈ blocksOf x.din.extents.1, b < sb.size)
    (hc : c ∈ logs sb x) : sb.inodestart ≤ c ∧ c < sb.dataStart := by
  have h1 := hL.inode_le
  have h2 := hL.bmap_le
  unfold logs at hc
  split at hc
  · rename_i hl
    rcases List.mem_cons.mp hc with rfl | hc
    · have := iblock_bounds hL hi
      omega
    · obtain ⟨b, hb, rfl⟩ := List.mem_map.mp hc
      have := bblock_bounds hL (hlt hl b hb)
      omega
  · cases hc

/-- After a commit the slot is as it was put. -/
theorem Put.committed {s1 s' : Fs} (h : Put s ip s1) (hstart : s1.log.start = s1.sb.logstart)
    (hc : Committed All s1 s') : Put s ip s' := by
  have hL := h.mounted.layout
  have hout : ∀ c, s1.sb.inodestart ≤ c → ¬ s1.log.region c := fun c hc hr => by
    have := hL.log
    unfold Log.region at hr
    omega
  have hb : bits s' = bits s1 := bits_of_view hL hc.sb fun c h1 _ =>
    hc.view c trivial (hout c (le_trans hL.inode_le h1))
  have hd : dinodes s' = dinodes s1 := dinodes_of_view hL hc.sb fun c h1 _ =>
    hc.view c trivial (hout c h1)
  refine ⟨h.mounted.next hc.sb hc.ready, fun hl => ?_, fun hl => ?_⟩
  · rw [hb, hd, hc.itable]
    exact h.freed hl
  · rw [hb, hd, hc.itable]
    exact h.kept hl

/-- **The second half of a turn**, when the log has room for it. -/
theorem reclaim_returns (hok : Mounted All s) (hlog : s.log = ⟨s.sb.logstart, 0, false, []⟩)
    (hr : 0 < (s.itable ip).ref) (hi : (s.itable ip).inum < s.sb.ninodes)
    (htype : (s.itable ip).valid = false → (dinodes s (s.itable ip).inum).type ≠ 0)
    (hx : (slotRead s ip).last → Marked s (slotRead s ip))
    (hroom : (logs s.sb (slotRead s ip)).dedup.length < LOGBLOCKS) :
    ∃ s', reclaim ip s = .ok true s' ∧ Put s ip s' ∧ s'.sb = s.sb ∧ s'.log = s.log ∧
      (∀ c, Home s.sb c → c ∉ logs s.sb (slotRead s ip) → s'.disk c = s.disk c) ∧
      (¬ (slotRead s ip).last → s'.disk = s.disk ∧ s'.writes = s.writes) := by
  -- begin_op
  let s1 : Fs := { s with log := { s.log with outstanding := 1 } }
  have hbegin : beginOp s = .ok true s1 := by
    simp [beginOp, Log.beginOp, s1, hlog]
  have hok1 : Mounted All s1 := ⟨hok.layout, hok.metaIn,
    ⟨⟨hok.ready.cached.bufs, hok.ready.cached.clean⟩, hok.ready.nodup, hok.ready.len⟩⟩
  have hlh1 : s1.log.lh = [] := by simp [s1, hlog]
  have hn1 : s1.log.lh.Nodup := by rw [hlh1]; exact List.nodup_nil
  have hroom1 : (s1.log.lh ++ logs s.sb (slotRead s ip)).dedup.length < LOGBLOCKS := by
    rw [hlh1, List.nil_append]
    exact hroom
  have hx1 : (slotRead s ip).last → Marked s1 (slotRead s ip) := fun hl =>
    ⟨(hx hl).inum, (hx hl).nodup, (hx hl).used, (hx hl).lt⟩
  -- the inode is put
  obtain ⟨u, s2, h2, ht2, hput⟩ := (touchInode_runs hok1 hr hi htype hx1).returns fun p s' ht =>
    ht.not_exhausted hn1 (fun _ hc => hc) (by simp [s1]) hroom1
  have hlen : s2.log.lh.length ≤ (s1.log.lh ++ logs s.sb (slotRead s ip)).dedup.length :=
    ht2.length_lh hn1 fun _ hc => hc
  have hlh2 : ∀ c ∈ s2.log.lh, c ∈ logs s.sb (slotRead s ip) := fun c hc => by
    obtain ⟨new, h3, h4⟩ := ht2.lh
    rw [h3, hlh1, List.nil_append] at hc
    exact h4 c hc
  have hlog2 : s2.log = ⟨s.sb.logstart, 1, false, s2.log.lh⟩ := by
    rw [ht2.log]
    simp [s1, hlog]
  have hsb2 : s2.sb = s.sb := ht2.sb
  have hregion : ∀ c, s2.log.region c ↔ ¬ Home s.sb c := fun c => by
    unfold Log.region Home
    rw [hlog2, not_not]
  have hhome : ∀ c ∈ s2.log.lh, Home s.sb c := fun c hc => by
    have := mem_logs hok.layout (x := slotRead s ip) (by
      unfold slotRead Inode.locked
      split <;> exact hi) (fun hl => (hx hl).lt) (hlh2 c hc)
    have := hok.layout.log
    unfold Home
    omega
  -- end_op
  have hc := endOp_commits hput.mounted.ready (fun _ _ => trivial)
    (fun c hc => fun hr => (hregion c).mp hr (hhome c hc)) (by rw [hlog2]) (by rw [hlog2])
  cases he : endOp s2 with
  | fail p s3 =>
    rw [he] at hc
    have := hc.1
    have : LOGBLOCKS = NBUF := rfl
    omega
  | ok v s3 =>
    rw [he] at hc
    obtain ⟨hw, hc⟩ := hc
    have hrun : reclaim ip s = .ok true s3 := by
      unfold reclaim
      rw [Routine.bind_ok hbegin, if_pos rfl, Routine.bind_ok h2, Routine.bind_ok he]
      rfl
    refine ⟨s3, hrun, ?_, hc.sb.trans hsb2, ?_, fun c hcH hcl => ?_, fun hl => ?_⟩
    · have hp : Put s ip s2 := ⟨hput.mounted, hput.freed, hput.kept⟩
      exact hp.committed (by rw [hlog2, hsb2]) hc
    · rw [hc.log, hlog2, hlog]
    · have hnr : ¬ s2.log.region c := fun hr => (hregion c).mp hr hcH
      rw [hc.disk, applyWrites_commitWrites hput.mounted.ready.len hnr,
        if_neg fun hm => hcl (hlh2 c hm), ht2.disk]
    · have hnil : s2.log.lh = [] := List.eq_nil_iff_forall_not_mem.mpr fun c hc => by
        have := hlh2 c hc
        rw [logs, if_neg hl] at this
        cases this
      have hcw : commitWrites s2 = [] := by
        unfold commitWrites
        rw [if_pos hnil]
      rw [hc.disk, hw, hcw, ht2.disk, ht2.writes]
      exact ⟨rfl, List.append_nil _⟩

theorem Quiet.lh (h : Quiet s) : s.log.lh = [] := by rw [h.log]

theorem got_free {x : Inode} (h : x.ref = 0) (inum : Nat) : x.got inum = x.fresh inum :=
  if_neg (by omega)

/-- **The turn of an inode that stays**: no orphan, or the root. -/
theorem turn_keeps (h : Quiet s) (hi : inum < s.sb.ninodes)
    (hkeep : ¬ Orphan (dinodes s inum) ∨ inum = ROOTINO) :
    ∃ s', turn inum s = .ok true s' ∧ Quiet s' ∧ s'.sb = s.sb ∧ s'.disk = s.disk ∧
      s'.writes = s.writes ∧ bits s' = bits s ∧ dinodes s' = dinodes s ∧
      s'.itable = if Orphan (dinodes s inum) then update s.itable 0 (slotRead s 0)
        else s.itable := by
  have hslot : ∃ ip, igetSlot s.itable inum = some ip := by
    by_cases hroot : inum = ROOTINO
    · rw [hroot]
      exact ⟨0, h.table.slot_root⟩
    · obtain ⟨ip, hip, -⟩ := h.table.slot_other hroot
      exact ⟨ip, hip⟩
  obtain ⟨ip, hip⟩ := hslot
  obtain ⟨r, s1, hscan, ht, hm, hb, hd, hyes, hno⟩ := scan_returns h.mounted h.lh hi hip
  have hlog1 : s1.log = ⟨s1.sb.logstart, 0, false, []⟩ := by
    rw [ht.log_eq fun _ hf => hf, ht.sb, h.log]
  by_cases ho : Orphan (dinodes s inum)
  · -- the root keeps the reference of the working directory
    have hroot : inum = ROOTINO := hkeep.resolve_left fun hn => hn ho
    subst hroot
    rw [h.table.slot_root] at hip
    obtain rfl := Option.some.inj hip
    obtain ⟨rfl, hit⟩ := hyes ho
    have hx1 : s1.itable 0 = (s.itable 0).dup := by
      rw [hit, update_self, Inode.got, if_pos (by rw [h.table.ref]; exact Nat.one_pos)]
    have hread : slotRead s1 0 = (slotRead s 0).dup := by
      unfold slotRead
      rw [hx1, hd]
      unfold Inode.locked
      rw [show (s.itable 0).dup.valid = (s.itable 0).valid from rfl]
      split <;> rfl
    have href : (slotRead s 0).ref = 1 ∧ (slotRead s 0).inum = ROOTINO := by
      unfold slotRead Inode.locked
      split <;> exact ⟨h.table.ref, h.table.inum⟩
    have hlast : ¬ (slotRead s1 0).last := fun hl => by
      have h1 := hl.1
      rw [hread, Inode.dup, href.1] at h1
      cases h1
    have hinum1 : (s1.itable 0).inum = ROOTINO := by
      rw [hx1]
      exact h.table.inum
    obtain ⟨s2, hrec, hput, hsb2, hlog2, -, hsame⟩ := reclaim_returns hm hlog1
      (by rw [hx1]; exact Nat.succ_pos _) (by rw [hinum1, ht.sb]; exact hi)
      (fun _ => by rw [hinum1, hd]; exact ho.1) (fun hl => absurd hl hlast)
      (by rw [logs, if_neg hlast]; decide)
    obtain ⟨hb2, hd2, hit2⟩ := hput.kept hlast
    obtain ⟨hdisk, hwrites⟩ := hsame hlast
    have hit2' : s2.itable = update s.itable 0 (slotRead s 0) := by
      rw [hit2, hread, hit, update_idem]
      rfl
    refine ⟨s2, by rw [turn, Routine.bind_ok hscan]; exact hrec, ⟨hput.mounted, ?_, ?_⟩,
      hsb2.trans ht.sb, hdisk.trans ht.disk, hwrites.trans ht.writes, hb2.trans hb, hd2.trans hd, ?_⟩
    · rw [hlog2, hlog1, hsb2]
    · rw [hit2']
      exact h.table.set_root href.1 href.2
    · rw [if_pos ho, hit2']
  · obtain ⟨rfl, hit⟩ := hno ho
    refine ⟨s1, by rw [turn, Routine.bind_ok hscan]; rfl, ⟨hm, hlog1, ?_⟩, ht.sb, ht.disk, ht.writes,
      hb, hd, ?_⟩
    · rw [hit]
      exact h.table
    · rw [if_neg ho, hit]

/-- The number of bitmap blocks that have the bits of the blocks `l`. -/
def span (sb : Superblock) (l : List Nat) : Nat := (l.map (bblock sb)).dedup.length

/-- The inode after it has been freed. -/
def reclaimed (d : Dinode) : Dinode :=
  { d with type := 0, size := 0, checksum := 1, extents := clearFrom 0 d.extents }

theorem length_dedup_cons_le (a : Nat) (l : List Nat) : (a :: l).dedup.length ≤ l.dedup.length + 1 := by
  by_cases h : a ∈ l
  · rw [List.dedup_cons_of_mem h]
    exact Nat.le_succ _
  · rw [List.dedup_cons_of_notMem h]
    exact Nat.le_refl _

/-- **The scan has taken slot `ip` for the orphan `inum`.** -/
structure Taken (s : Fs) (inum ip : Nat) (s1 : Fs) : Prop where
  scan : scan inum s = .ok (some ip) s1
  free : ip ≠ 0
  touch : Touch All inTable s s1
  mounted : Mounted All s1
  bits : bits s1 = bits s
  dinodes : dinodes s1 = dinodes s
  log : s1.log = ⟨s1.sb.logstart, 0, false, []⟩
  itable : s1.itable = update s.itable ip ((s.itable ip).fresh inum)

theorem exists_taken (h : Quiet s) (hi : inum < s.sb.ninodes) (ho : Orphan (dinodes s inum))
    (hne : inum ≠ ROOTINO) : ∃ ip s1, Taken s inum ip s1 := by
  obtain ⟨ip, hip, hip0⟩ := h.table.slot_other hne
  obtain ⟨r, s1, hscan, ht, hm, hb, hd, hyes, -⟩ := scan_returns h.mounted h.lh hi hip
  obtain ⟨rfl, hit⟩ := hyes ho
  refine ⟨ip, s1, hscan, hip0, ht, hm, hb, hd, ?_, ?_⟩
  · rw [ht.log_eq fun _ hf => hf, ht.sb, h.log]
  · rw [hit, got_free (h.table.rest ip hip0)]

section Taken

variable {s1 : Fs} (h : Taken s inum ip s1)
include h

theorem Taken.slot : s1.itable ip = (s.itable ip).fresh inum := by
  rw [h.itable, update_self]

theorem Taken.inum_eq : (s1.itable ip).inum = inum := by
  rw [h.slot]
  rfl

theorem Taken.ref_pos : 0 < (s1.itable ip).ref := by
  rw [h.slot]
  exact Nat.one_pos

theorem Taken.read : slotRead s1 ip = ((s.itable ip).fresh inum).loaded (HaiOS.dinodes s inum) := by
  unfold slotRead
  rw [h.inum_eq, h.slot, h.dinodes]
  exact if_neg (by simp [Inode.fresh])

theorem Taken.read_inum : (slotRead s1 ip).inum = inum := by
  rw [h.read]
  rfl

variable (ho : Orphan (HaiOS.dinodes s inum))
include ho

theorem Taken.type_ne : (HaiOS.dinodes s1 (s1.itable ip).inum).type ≠ 0 := by
  rw [h.inum_eq, h.dinodes]
  exact ho.1

theorem Taken.last : (slotRead s1 ip).last := by
  rw [h.read]
  exact ⟨rfl, rfl, ho.2⟩

theorem Taken.blocks : blocksOf (slotRead s1 ip).din.extents.1 = owner s inum := by
  rw [h.read, owner, if_neg ho.1]
  rfl

theorem Taken.marked (hi : inum < s.sb.ninodes) (hn : (owner s inum).Nodup)
    (hused : ∀ b ∈ owner s inum, HaiOS.bits s b = true ∧ b < s.sb.size) :
    Marked s1 (slotRead s1 ip) := by
  refine ⟨?_, ?_, ?_, ?_⟩
  · rw [h.read_inum, h.touch.sb]
    exact hi
  · rw [h.blocks ho]
    exact hn
  · rw [h.blocks ho, h.bits]
    exact fun b hb => (hused b hb).1
  · rw [h.blocks ho, h.touch.sb]
    exact fun b hb => (hused b hb).2

theorem Taken.logs_eq : logs s1.sb (slotRead s1 ip) =
    iblock s.sb inum :: (owner s inum).map (bblock s.sb) := by
  rw [logs, if_pos (h.last ho), h.read_inum, h.blocks ho, h.touch.sb]

end Taken

/-- **The turn of an orphan.** -/
theorem turn_frees (h : Quiet s) (hi : inum < s.sb.ninodes) (ho : Orphan (dinodes s inum))
    (hne : inum ≠ ROOTINO) (hn : (owner s inum).Nodup)
    (hused : ∀ b ∈ owner s inum, bits s b = true ∧ b < s.sb.size)
    (hspan : span s.sb (owner s inum) ≤ LOGBLOCKS - 2) :
    ∃ s', turn inum s = .ok true s' ∧ Quiet s' ∧ s'.sb = s.sb ∧ s'.itable 0 = s.itable 0 ∧
      bits s' = unmark (bits s) (owner s inum) ∧
      dinodes s' = update (dinodes s) inum (reclaimed (dinodes s inum)) ∧
      ∀ c, Home s.sb c → c ≠ iblock s.sb inum → (∀ b ∈ owner s inum, c ≠ bblock s.sb b) →
        s'.disk c = s.disk c := by
  obtain ⟨ip, s1, hT⟩ := exists_taken h hi ho hne
  have hlogs := hT.logs_eq ho
  have hroom : (logs s1.sb (slotRead s1 ip)).dedup.length < LOGBLOCKS := by
    have := length_dedup_cons_le (iblock s.sb inum) ((owner s inum).map (bblock s.sb))
    unfold span at hspan
    rw [hlogs]
    simp only [LOGBLOCKS, MAXOPBLOCKS] at *
    omega
  obtain ⟨s2, hrec, hput, hsb2, hlog2, hdisk, -⟩ := reclaim_returns hT.mounted hT.log hT.ref_pos
    (by rw [hT.inum_eq, hT.touch.sb]; exact hi) (fun _ => hT.type_ne ho)
    (fun _ => hT.marked ho hi hn hused) hroom
  obtain ⟨hb2, hd2, hit2⟩ := hput.freed (hT.last ho)
  have hit2' : s2.itable = update s.itable ip (slotRead s1 ip).freed.drop := by
    rw [hit2, hT.itable, update_idem]
  refine ⟨s2, by rw [turn, Routine.bind_ok hT.scan]; exact hrec, ⟨hput.mounted, ?_, ?_⟩,
    hsb2.trans hT.touch.sb, ?_, by rw [hb2, hT.bits, hT.blocks ho], ?_, fun c hc h1 h2 => ?_⟩
  · rw [hlog2, hT.log, hsb2]
  · rw [hit2']
    refine h.table.set_other hT.free ?_
    rw [hT.read]
    rfl
  · rw [hit2', update_of_ne hT.free.symm]
  · rw [hd2, hT.read_inum, hT.dinodes, hT.read]
    rfl
  · rw [hdisk c (by rw [hT.touch.sb]; exact hc), hT.touch.disk]
    rw [hlogs, List.mem_cons, List.mem_map]
    rintro (e | ⟨b, hb, e⟩)
    · exact h1 e
    · exact h2 b hb e.symm

end Turn

/-! ## 4. The loop -/

/-- **Blocks are in use and belong to one inode.** -/
structure Tidy (d : Fs) : Prop where
  nodup : ∀ i, (owner d i).Nodup
  disjoint : ∀ i j, i ≠ j → ∀ b ∈ owner d i, b ∉ owner d j
  used : ∀ i, ∀ b ∈ owner d i, bits d b = true ∧ b < d.sb.size

/-- The orphans that the turns before inode `k` free. -/
def Freed (d : Fs) (k i : Nat) : Prop := ROOTINO < i ∧ i < k ∧ Orphan (dinodes d i)

/-- **What the turns before inode `k` have made of the disk `d`.** -/
structure Scanned (d : Fs) (k : Nat) (s : Fs) : Prop where
  quiet : Quiet s
  sb : s.sb = d.sb
  gone : ∀ i, Freed d k i → dinodes s i = reclaimed (dinodes d i)
  others : ∀ i, ¬ Freed d k i → dinodes s i = dinodes d i
  free : ∀ i, Freed d k i → ∀ b ∈ owner d i, bits s b = false
  kept : ∀ b, (∀ i, Freed d k i → b ∉ owner d i) → bits s b = bits d b
  disk : ∀ c, Home d.sb c → (∀ i, Freed d k i → c ≠ iblock d.sb i ∧
    ∀ b ∈ owner d i, c ≠ bblock d.sb b) → s.disk c = d.disk c
  /-- an orphan root has been read -/
  root : ROOTINO < k → Orphan (dinodes d ROOTINO) → (s.itable 0).valid = true

/-- The orphans can be freed: the log has room for their bitmap blocks. -/
def Narrow (d : Fs) (i : Nat) : Prop :=
  ROOTINO < i → Orphan (dinodes d i) → span d.sb (owner d i) ≤ LOGBLOCKS - 2

section Loop

variable {d s : Fs} {k : Nat}

theorem freed_succ (hk : ROOTINO < k) (ho : Orphan (dinodes d k)) (i : Nat) :
    Freed d (k + 1) i ↔ Freed d k i ∨ i = k := by
  unfold Freed
  constructor
  · intro h
    by_cases hi : i = k
    · exact Or.inr hi
    · exact Or.inl ⟨h.1, by omega, h.2.2⟩
  · rintro (h | rfl)
    · exact ⟨h.1, by omega, h.2.2⟩
    · exact ⟨hk, by omega, ho⟩

theorem freed_succ_of_kept (h : ¬ Orphan (dinodes d k) ∨ k = ROOTINO) :
    Freed d (k + 1) = Freed d k := by
  funext i
  unfold Freed
  refine propext ⟨fun hi => ⟨hi.1, ?_, hi.2.2⟩, fun hi => ⟨hi.1, by omega, hi.2.2⟩⟩
  have hik : i ≠ k := by
    rintro rfl
    rcases h with h | h
    · exact h hi.2.2
    · omega
  omega

theorem not_freed_self : ¬ Freed d k k := fun h => Nat.lt_irrefl _ h.2.1

theorem Scanned.owner_next (h : Scanned d k s) : owner s k = owner d k := by
  unfold owner
  rw [h.others k not_freed_self]

theorem Scanned.used_next (hd : Tidy d) (h : Scanned d k s) :
    ∀ b ∈ owner s k, bits s b = true ∧ b < s.sb.size := by
  intro b hb
  rw [h.owner_next] at hb
  rw [h.sb, h.kept b fun i hi => hd.disjoint k i (fun e => not_freed_self (e ▸ hi)) b hb]
  exact hd.used k b hb

/-- **One turn.** -/
theorem scanned_turn (hd : Tidy d) (h : Scanned d k s) (hk : ROOTINO ≤ k) (hi : k < d.sb.ninodes)
    (hspan : Narrow d k) : ∃ s', turn k s = .ok true s' ∧ Scanned d (k + 1) s' := by
  have hi' : k < s.sb.ninodes := by rw [h.sb]; exact hi
  have hself := h.others k not_freed_self
  by_cases hkeep : ¬ Orphan (dinodes d k) ∨ k = ROOTINO
  · obtain ⟨s', hrun, hq, hsb, hdisk, -, hb, hdin, hit⟩ := turn_keeps h.quiet hi' (by
      rw [hself]
      exact hkeep)
    refine ⟨s', hrun, ?_⟩
    have hF := freed_succ_of_kept hkeep
    refine ⟨hq, hsb.trans h.sb, ?_, ?_, ?_, ?_, ?_, fun _ ho => ?_⟩
    · rw [hF, hdin]
      exact h.gone
    · rw [hF, hdin]
      exact h.others
    · rw [hF, hb]
      exact h.free
    · rw [hF, hb]
      exact h.kept
    · rw [hF, hdisk]
      exact h.disk
    · rw [hit, hself]
      by_cases hroot : k = ROOTINO
      · subst hroot
        rw [if_pos ho, update_self]
        unfold slotRead Inode.locked
        split
        · assumption
        · rfl
      · rw [if_neg (hkeep.resolve_right hroot)]
        exact h.root (by omega) ho
  · have ho : Orphan (dinodes d k) := Classical.not_not.mp fun hn => hkeep (Or.inl hn)
    have hne : k ≠ ROOTINO := fun hn => hkeep (Or.inr hn)
    have hlt : ROOTINO < k := by omega
    have hown := h.owner_next
    obtain ⟨s', hrun, hq, hsb, hroot, hb, hdin, hdisk⟩ := turn_frees h.quiet hi' (by rw [hself]; exact ho)
      hne (by rw [hown]; exact hd.nodup k) (h.used_next hd)
      (by rw [hown, h.sb]; exact hspan hlt ho)
    rw [hown] at hb hdisk
    rw [h.sb] at hdisk
    refine ⟨s', hrun, ?_⟩
    have hF := freed_succ hlt ho
    refine ⟨hq, hsb.trans h.sb, fun i hi => ?_, fun i hi => ?_, fun i hi b hbi => ?_,
      fun b hall => ?_, fun c hc hall => ?_, fun _ hor => ?_⟩
    · rw [hdin]
      rcases (hF i).mp hi with hi | rfl
      · rw [update_of_ne (fun e => not_freed_self (e ▸ hi))]
        exact h.gone i hi
      · rw [update_self, hself]
    · rw [hF, not_or] at hi
      rw [hdin, update_of_ne hi.2]
      exact h.others i hi.1
    · rw [hb]
      rcases (hF i).mp hi with hi | rfl
      · simp [unmark, h.free i hi b hbi]
      · simp [unmark, hbi]
    · have h1 := h.kept b fun i hi => hall i ((hF i).mpr (Or.inl hi))
      have h2 := hall k ((hF k).mpr (Or.inr rfl))
      rw [hb]
      simp [unmark, h1, h2]
    · have h2 := hall k ((hF k).mpr (Or.inr rfl))
      rw [hdisk c hc h2.1 h2.2]
      exact h.disk c hc fun i hi => hall i ((hF i).mpr (Or.inl hi))
    · rw [hroot]
      exact h.root hlt hor

/-- **The whole loop.** -/
theorem loop_scanned (hd : Tidy d) (hspan : ∀ i, Narrow d i) {n : Nat} (h : Scanned d k s)
    (hk : ROOTINO ≤ k) (hn : n = d.sb.ninodes - k) :
    ∃ s', ireclaimLoop n k s = .ok true s' ∧ ∃ m, d.sb.ninodes ≤ m ∧ Scanned d m s' := by
  induction n generalizing k s with
  | zero => exact ⟨s, rfl, k, by omega, h⟩
  | succ n ih =>
    obtain ⟨s1, hrun, h1⟩ := scanned_turn hd h hk (by omega) (hspan k)
    obtain ⟨s2, hrun2, h2⟩ := ih h1 (by omega) (by omega)
    refine ⟨s2, ?_, h2⟩
    rw [ireclaimLoop, Routine.bind_ok hrun]
    exact hrun2

/-- Beside the buffers, two states are the same. -/
structure Unchanged (s s' : Fs) : Prop where
  sb : s'.sb = s.sb
  disk : s'.disk = s.disk
  writes : s'.writes = s.writes
  log : s'.log = s.log
  itable : s'.itable = s.itable

/-- **Without orphans the loop changes nothing.** -/
theorem loop_idle {n : Nat} (h : Quiet s) (hno : ∀ i, ROOTINO < i → ¬ Orphan (dinodes s i))
    (hroot : Orphan (dinodes s ROOTINO) → (s.itable 0).valid = true) (hk : ROOTINO ≤ k)
    (hn : n = s.sb.ninodes - k) :
    ∃ s', ireclaimLoop n k s = .ok true s' ∧ Unchanged s s' := by
  induction n generalizing k s with
  | zero => exact ⟨s, rfl, rfl, rfl, rfl, rfl, rfl⟩
  | succ n ih =>
    have hkeep : ¬ Orphan (dinodes s k) ∨ k = ROOTINO := by
      by_cases hr : k = ROOTINO
      · exact Or.inr hr
      · exact Or.inl (hno k (by omega))
    obtain ⟨s1, hrun, hq, hsb, hdisk, hwr, -, hdin, hit⟩ := turn_keeps h (by omega) hkeep
    have hit1 : s1.itable = s.itable := by
      rw [hit]
      split
      · rename_i ho
        obtain rfl := hkeep.resolve_left fun hn => hn ho
        unfold slotRead Inode.locked
        rw [if_pos (hroot ho), update_eq_self]
      · rfl
    obtain ⟨s2, hrun2, h2⟩ := ih (k := k + 1) hq (by rw [hdin]; exact hno)
      (by rw [hdin, hit1]; exact hroot) (by omega) (by rw [hsb]; omega)
    refine ⟨s2, ?_, h2.sb.trans hsb, h2.disk.trans hdisk, h2.writes.trans hwr, ?_,
      h2.itable.trans hit1⟩
    · rw [ireclaimLoop, Routine.bind_ok hrun]
      exact hrun2
    · rw [h2.log, hq.log, h.log, hsb]

end Loop

/-! ## 5. Orphans with too many bitmap blocks -/

section Wide

variable {d s : Fs} {k ip inum : Nat}

/-- `iupdate` needs a free entry of the log. -/
theorem iupdate_room (h : Ready All s) :
    (iupdate ip s).Sat (fun _ _ => s.log.lh.length < LOGBLOCKS) fun _ _ => True := by
  simp only [iupdate, inode, Routine.gets_bind]
  have hbread := (bread_ready (b := iblock s.sb (s.itable ip).inum) (P := fun _ _ => True)
    (fun _ _ _ => trivial) h).sat
  refine hbread.bind fun blk s1 hq => ?_
  have hlog : s1.log = s.log := hq.1.log_eq fun _ hf => hf
  unfold logUpdate
  rw [setData, Routine.update_bind]
  refine Outcome.Sat.bind (Q := fun _ _ => s.log.lh.length < LOGBLOCKS) ?_ fun _ _ hq => hq
  unfold logWrite
  simp only [hlog]
  cases hw : s.log.logWrite (iblock s.sb (s.itable ip).inum) with
  | error p => trivial
  | ok r =>
    obtain ⟨l, new⟩ := r
    have hroom := (Log.logWrite_ok hw).1
    cases new <;> exact hroom

variable {s' : Fs}

/-- A block whose contents have changed is in the log. -/
theorem mem_lh_of_changed {F : Frame} {c : Nat} (h : Ready All s) (hlh : s.log.lh = [])
    (ht : Touch All F s s') (h' : Ready All s') (hne : view s' c ≠ view s c) : c ∈ s'.log.lh := by
  by_contra hc
  refine hne ?_
  rw [h'.clean trivial hc, ht.disk, view_clean h hlh]

/-- After `itrunc` the log has the inode block and all bitmap blocks of the file. -/
theorem truncated_logged {F : Frame} {x : Inode} (hok : Mounted All s) (hlh : s.log.lh = [])
    (ht : Touch All F s s') (hok' : Mounted All s') (hx : Marked s x)
    (hne : blocksOf x.din.extents.1 ≠ []) (hdin : dinodes s x.inum = x.din)
    (hb : bits s' = unmark (bits s) (blocksOf x.din.extents.1))
    (hd : dinodes s' = update (dinodes s) x.inum x.truncated.din) :
    span s.sb (blocksOf x.din.extents.1) + 1 ≤ s'.log.lh.length := by
  -- the inode block
  have hib : iblock s.sb x.inum ∈ s'.log.lh := by
    refine mem_lh_of_changed hok.ready hlh ht hok'.ready fun he => hne ?_
    have h1 : dinodes s' x.inum = dinodes s x.inum := by
      unfold dinodes
      rw [ht.sb, he]
    rw [hd, update_self, hdin] at h1
    rw [← h1]
    exact blocksOf_cleared _
  -- the bitmap blocks
  have hbb : ∀ b ∈ blocksOf x.din.extents.1, bblock s.sb b ∈ s'.log.lh := fun b hbm => by
    refine mem_lh_of_changed hok.ready hlh ht hok'.ready fun he => ?_
    have h1 : bits s' b = bits s b := by
      unfold bits
      rw [ht.sb, he]
    rw [hb, hx.used b hbm] at h1
    simp [unmark, hbm] at h1
  have hnot : iblock s.sb x.inum ∉ ((blocksOf x.din.extents.1).map (bblock s.sb)).dedup := by
    rw [List.mem_dedup, List.mem_map]
    rintro ⟨b, hbm, e⟩
    have h1 := (iblock_bounds hok.layout hx.inum).2
    have h2 := (bblock_bounds hok.layout (hx.lt b hbm)).1
    omega
  suffices hsub : iblock s.sb x.inum :: ((blocksOf x.din.extents.1).map (bblock s.sb)).dedup ⊆
      s'.log.lh from ((List.nodup_cons.mpr ⟨hnot, List.nodup_dedup _⟩).subperm hsub).length_le
  intro c hc
  rcases List.mem_cons.mp hc with rfl | hc
  · exact hib
  · obtain ⟨b, hbm, rfl⟩ := List.mem_map.mp (List.mem_dedup.mp hc)
    exact hbb b hbm

/-- An inode that `iput` frees has its blocks in few bitmap blocks, or the log overflows. -/
theorem touchInode_narrow (hok : Mounted All s) (hlh : s.log.lh = [])
    (hi : (s.itable ip).inum < s.sb.ninodes) (hlast : (slotRead s ip).last) (hx : Marked s (slotRead s ip))
    (hdin : dinodes s (slotRead s ip).inum = (slotRead s ip).din) :
    (touchInode ip s).Sat
      (fun _ _ => span s.sb (blocksOf (slotRead s ip).din.extents.1) ≤ LOGBLOCKS - 2)
      fun _ _ => True := by
  have hP : ∀ p s, Exhausted p s → True := fun _ _ _ => trivial
  refine Outcome.Sat.bind (ilock_runs (P := fun _ _ => True) hP hok (fun _ => hi)
    (fun _ => trivial) fun _ _ _ => trivial).sat fun _ s1 hq1 => ?_
  obtain ⟨ht1, -, hit1, hr1, -⟩ := hq1
  obtain ⟨hb1, hd1, hm1⟩ := hok.still ht1 (fun _ hf => hf) hr1
  have hx1 : s1.itable ip = slotRead s ip := by rw [hit1, update_self]; rfl
  have hlock : Locked s1 ip := by
    unfold Locked
    rw [hx1, hlast.1]
    exact ⟨Nat.one_pos, hlast.2.1⟩
  have hlh1 : s1.log.lh = [] := by rw [ht1.log_eq fun _ hf => hf, hlh]
  have hmark1 : Marked s1 (slotRead s ip) := ⟨by rw [ht1.sb]; exact hx.inum, hx.nodup,
    by rw [hb1]; exact hx.used, by rw [ht1.sb]; exact hx.lt⟩
  rw [Routine.bind_ok (iunlock_valid hlock)]
  refine Outcome.Sat.bind (Q := fun _ _ => span s.sb (blocksOf (slotRead s ip).din.extents.1) ≤
    LOGBLOCKS - 2) ?_ fun _ _ hq => hq
  simp only [ifreeLast, inode, Routine.gets_bind, hx1, if_pos hlast]
  -- itrunc
  refine Outcome.Sat.bind (Mounted.itrunc_runs (P := fun _ _ => True)
    (F := ⟨fun _ => True, fun _ => True, True⟩) hP hm1 (by rw [hx1]; exact hmark1)
    ⟨fun _ _ => trivial, trivial⟩ trivial).sat fun _ s2 hq2 => ?_
  obtain ⟨ht2, ⟨hb2, hd2, -⟩, hm2⟩ := hq2
  rw [hx1] at hb2 hd2
  refine Outcome.Sat.bind (Q := fun _ s3 => Ready All s3 ∧ s3.log = s2.log)
    (m := setInode ip _) ⟨ready_setSlot hm2.ready ip _, rfl⟩ fun _ s3 hq3 => ?_
  -- the second iupdate
  refine (iupdate_room hq3.1).bind fun _ s4 hroom => ?_
  rw [hq3.2] at hroom
  by_cases hnil : blocksOf (slotRead s ip).din.extents.1 = []
  · rw [hnil]
    exact Nat.zero_le _
  · have hlen := truncated_logged hm1 hlh1 ht2 hm2 hmark1 hnil (by rw [hd1]; exact hdin) hb2 hd2
    rw [ht1.sb] at hlen
    show _ ≤ _
    omega

/-- **An orphan whose turn returns has its blocks in few bitmap blocks.** -/
theorem turn_narrow {r : Bool} {s' : Fs} (h : Quiet s) (hi : inum < s.sb.ninodes)
    (ho : Orphan (dinodes s inum)) (hne : inum ≠ ROOTINO) (hn : (owner s inum).Nodup)
    (hused : ∀ b ∈ owner s inum, bits s b = true ∧ b < s.sb.size)
    (hrun : turn inum s = .ok r s') : span s.sb (owner s inum) ≤ LOGBLOCKS - 2 := by
  obtain ⟨ip, s1, hT⟩ := exists_taken h hi ho hne
  rw [turn, Routine.bind_ok hT.scan] at hrun
  have hbegin : beginOp s1 = .ok true { s1 with log := { s1.log with outstanding := 1 } } := by
    simp [beginOp, Log.beginOp, hT.log]
  have hok1 : Mounted All { s1 with log := { s1.log with outstanding := 1 } } :=
    ⟨hT.mounted.layout, hT.mounted.metaIn, ⟨⟨hT.mounted.ready.cached.bufs,
      hT.mounted.ready.cached.clean⟩, hT.mounted.ready.nodup, hT.mounted.ready.len⟩⟩
  have hmark := hT.marked ho hi hn hused
  have hsat : (reclaim ip s1).Sat (fun _ _ => span s1.sb
      (blocksOf (slotRead s1 ip).din.extents.1) ≤ LOGBLOCKS - 2) fun _ _ => True := by
    unfold reclaim
    rw [Routine.bind_ok hbegin, if_pos rfl]
    refine (touchInode_narrow hok1 (by simp [hT.log])
      (by rw [show _ = inum from hT.inum_eq]; exact hT.touch.sb ▸ hi) (hT.last ho) ⟨hmark.inum, hmark.nodup, hmark.used, hmark.lt⟩ ?_).bind fun _ s2 hq => ?_
    · show dinodes s1 (slotRead s1 ip).inum = (slotRead s1 ip).din
      rw [hT.read_inum, hT.dinodes, hT.read]
      rfl
    · cases he : endOp s2 with
      | ok u s3 =>
        rw [Routine.bind_ok he]
        exact hq
      | fail p s3 =>
        rw [Routine.bind_fail he]
        trivial
  have := hsat.of_ok hrun
  rw [hT.blocks ho, hT.touch.sb] at this
  exact this

/-- **A loop that returns has met narrow orphans only.** -/
theorem loop_narrow {n : Nat} {r : Bool} (hd : Tidy d) (h : Scanned d k s) (hk : ROOTINO ≤ k)
    (hn : n = d.sb.ninodes - k) (hrun : ireclaimLoop n k s = .ok r s') :
    ∀ i, k ≤ i → Narrow d i := by
  induction n generalizing k s with
  | zero =>
    intro i hi _ ho
    refine absurd ?_ ho.1
    unfold dinodes
    rw [if_neg (by omega)]
    rfl
  | succ n ih =>
    have hnarrow : Narrow d k := fun hlt ho => by
      have hself := h.others k not_freed_self
      cases ht : turn k s with
      | fail p s1 =>
        rw [ireclaimLoop, Routine.bind_fail ht] at hrun
        cases hrun
      | ok b s1 =>
        have := turn_narrow h.quiet (by rw [h.sb]; omega) (by rw [hself]; exact ho) (by omega)
          (by rw [h.owner_next]; exact hd.nodup k) (h.used_next hd) ht
        rw [h.owner_next, h.sb] at this
        exact this
    obtain ⟨s1, ht, h1⟩ := scanned_turn hd h hk (by omega) hnarrow
    rw [ireclaimLoop, Routine.bind_ok ht, if_pos rfl] at hrun
    intro i hi
    by_cases hik : i = k
    · subst hik
      exact hnarrow
    · exact ih h1 (by omega) (by omega) hrun i (by omega)

end Wide

/-! ## 6. Boot -/

/-- `sb` before it is read. -/
def noSuper : Superblock := ⟨0, 0, 0, 0, 0, 0, 0⟩

/-- **A disk with a file system**: the magic number, the regions in order, and a log header that
    a commit can have written. -/
structure Formatted (disk : Nat → Block) : Prop where
  magic : wordAt (disk 1) 0 = FSMAGIC
  layout : Layout (superOf (disk 1))
  /-- `int inum` can count them -/
  inodes : (superOf (disk 1)).ninodes ≤ 2 ^ 31
  head : HeadOk (superOf (disk 1)).logstart (getHead (disk (superOf (disk 1)).logstart))

/-- What is stored on the disk, the committed transaction in the log included. -/
def stored (disk : Nat → Block) : Fs :=
  Fs.boot (superOf (disk 1)) (recovered (superOf (disk 1)).logstart disk)

section Boot

variable {s : Fs} {disk : Nat → Block}

theorem holding_withSuper {b : Nat} (h : Holding All b s) (sb : Superblock) :
    Holding All b { s with sb := sb } :=
  ⟨⟨h.cached.bufs, h.cached.clean⟩, h.nodup, h.len, h.clean⟩

theorem readsb_returns (h : Ready All s) (hlh : s.log.lh = []) :
    ∃ s', readsb s = .ok (wordAt (view s 1) 0) s' ∧ Ready All s' ∧ s'.sb = superOf (view s 1) ∧
      s'.disk = s.disk ∧ s'.log = s.log ∧ s'.itable = s.itable := by
  obtain ⟨d, s1, h1, ht1, rfl, hv1, hh⟩ := (bread_ready (b := 1) (fun _ _ h => h) h).returns
    fun p s' ht hp => by
      have hlen := hp.2
      rw [ht.log_eq fun _ hf => hf, hlh] at hlen
      cases hlen
  obtain ⟨u, s2, h2, ht2, -, hr2⟩ := (brelse_runs (P := fun _ _ => False)
    (holding_withSuper hh (superOf (view s 1)))).returns fun _ _ _ hf => hf
  refine ⟨s2, ?_, hr2, ht2.sb, ht2.disk.trans ht1.disk, ?_, ?_⟩
  · rw [readsb, Routine.bind_ok h1, Routine.update_bind, Routine.bind_ok h2]
    rfl
  · rw [ht2.log_eq fun _ hf => hf]
    exact ht1.log_eq fun _ hf => hf
  · rw [ht2.itable_eq fun _ hf => hf]
    exact ht1.itable_eq fun _ hf => hf

theorem initlog_returns {start : Nat} (h : Ready All s) (hlog : s.log = ⟨start, 0, false, []⟩)
    (hok : HeadOk s.sb.logstart (getHead (s.disk s.sb.logstart))) :
    ∃ s', initlog s = .ok () s' ∧ Ready All s' ∧ s'.sb = s.sb ∧ s'.itable = s.itable ∧
      s'.log = ⟨s.sb.logstart, 0, false, []⟩ ∧
      ∀ c, Home s.sb c → s'.disk c = recovered s.sb.logstart s.disk c := by
  have hcached : Cached (fun _ => True) (fun _ => 0)
      { s with log := { s.log with start := s.sb.logstart } } := by
    rw [← pinOf_nil]
    have hc := h.cached
    rw [hlog] at hc
    exact ⟨hc.bufs, hc.clean⟩
  have hi := recover_issues hcached hok
  rw [initlog, Routine.update_bind]
  cases ho : recoverFromLog { s with log := { s.log with start := s.sb.logstart } } with
  | fail p s1 =>
    rw [ho] at hi
    exact hi.1.elim
  | ok u s1 =>
    rw [ho] at hi
    obtain ⟨he, hlog1, hc1⟩ := hi
    have hdisk : s1.disk = applyWrites s.disk (recoverWrites s.sb.logstart s.disk) := he.disk
    obtain ⟨bc, lh, e⟩ := he
    have hlog1' : s1.log = ⟨s.sb.logstart, 0, false, []⟩ := by rw [hlog1, hlog]
    refine ⟨s1, rfl, ⟨?_, ?_, ?_⟩, by rw [e], by rw [e], hlog1', fun c hc => ?_⟩
    · rw [hlog1', pinOf_nil]
      exact hc1
    · rw [hlog1']
      exact List.nodup_nil
    · rw [hlog1']
      exact Nat.zero_le _
    · rw [hdisk, applyWrites_recoverWrites hc]

/-- **The state in which `ireclaim` starts.** -/
theorem mount_start (h : Formatted disk) :
    ∃ s, mount (Fs.boot noSuper disk) = ireclaim s ∧ Scanned (stored disk) ROOTINO s := by
  -- namei("/")
  have hroot : (iget ROOTINO (Fs.boot noSuper disk)).Runs (Touch All inTable) (fun _ _ => False)
      (Fs.boot noSuper disk) _ := iget_runs (fun _ _ => trivial)
    (by rw [igetSlot_boot]; exact fun h => by cases h)
  obtain ⟨ip, s0, h0, -, hslot, rfl⟩ := hroot.returns fun _ _ _ hf => hf
  rw [igetSlot_boot] at hslot
  obtain rfl := Option.some.inj hslot
  rw [got_free (boot_itable_ref ..)] at h0
  generalize hs0 : (Fs.boot noSuper disk).setSlot 0 (((Fs.boot noSuper disk).itable 0).fresh
    ROOTINO) = s0 at h0
  have hr0 : Ready All s0 := by
    rw [← hs0]
    exact ready_setSlot (ready_boot All noSuper disk) 0 _
  have hlog0 : s0.log = ⟨0, 0, false, []⟩ := by
    rw [← hs0]
    exact boot_log noSuper disk
  have hdisk0 : s0.disk = disk := by
    rw [← hs0]
    exact boot_disk noSuper disk
  have hview0 : view s0 = disk := by rw [view_clean hr0 (by rw [hlog0]), hdisk0]
  have htable : Rooted s0.itable := by
    rw [← hs0, setSlot_itable]
    refine ⟨by rw [update_self]; rfl, by rw [update_self]; rfl, fun jp hjp => ?_⟩
    rw [update_of_ne hjp, boot_itable_ref]
  -- readsb
  obtain ⟨s1, h1, hr1, hsb1, hdisk1, hlog1, hit1⟩ := readsb_returns hr0 (by rw [hlog0])
  rw [hview0] at h1 hsb1
  rw [hdisk0] at hdisk1
  -- initlog
  obtain ⟨s2, h2, hr2, hsb2, hit2, hlog2, hdisk2⟩ := initlog_returns hr1 (hlog1.trans hlog0) (by
    rw [hsb1, hdisk1]
    exact h.head)
  rw [hsb1, hdisk1] at hdisk2
  have hsb : s2.sb = superOf (disk 1) := hsb2.trans hsb1
  have hlog : s2.log = ⟨s2.sb.logstart, 0, false, []⟩ := by rw [hlog2, hsb2]
  have hview : view s2 = s2.disk := view_clean hr2 (by rw [hlog])
  have hL : Layout s2.sb := by
    rw [hsb]
    exact h.layout
  have hhome : ∀ c, s2.sb.inodestart ≤ c → view s2 c = view (stored disk) c := fun c hc => by
    rw [hview, stored, view_boot, hdisk2 c ?_]
    have := hL.log
    rw [hsb] at this hc
    unfold Home
    omega
  have hsb' : (stored disk).sb = s2.sb := (boot_sb ..).trans hsb.symm
  have hno : ∀ i, ¬ Freed (stored disk) ROOTINO i := fun i hi => by
    have h1 := hi.1
    have h2 := hi.2.1
    omega
  refine ⟨s2, ?_, ⟨⟨hL, fun _ _ => trivial, hr2⟩, hlog, ?_⟩, hsb'.symm, fun i hi => absurd hi (hno i),
    fun i _ => ?_, fun i hi => absurd hi (hno i), fun b _ => ?_, fun c hc _ => ?_,
    fun hlt => absurd hlt (Nat.lt_irrefl _)⟩
  · rw [mount, Routine.bind_ok h0, fsinit, Routine.bind_ok h1, if_pos h.magic, Routine.bind_ok h2]
  · rw [hit2, hit1]
    exact htable
  · have hd : dinodes (stored disk) = dinodes s2 := dinodes_of_view hL hsb' fun c h1 _ =>
      (hhome c h1).symm
    rw [hd]
  · have hb : bits (stored disk) = bits s2 := bits_of_view hL hsb' fun c h1 _ =>
      (hhome c (le_trans hL.inode_le h1)).symm
    rw [hb]
  · rw [hsb', hsb] at hc
    rw [hdisk2 c hc, stored, boot_disk]

/-- **Boot runs to its end** when the orphans are narrow. -/
theorem mount_scanned (h : Formatted disk) (hd : Tidy (stored disk))
    (hspan : ∀ i, Narrow (stored disk) i) :
    ∃ s, mount (Fs.boot noSuper disk) = .ok true s ∧
      ∃ m, (stored disk).sb.ninodes ≤ m ∧ Scanned (stored disk) m s := by
  obtain ⟨s0, h0, hs0⟩ := mount_start h
  obtain ⟨s1, hrun, h1⟩ := loop_scanned hd hspan hs0 (Nat.le_refl _) rfl
  refine ⟨s1, ?_, h1⟩
  rw [h0, ireclaim, Routine.gets_bind, hs0.sb]
  exact hrun

/-- **Otherwise it does not return.** -/
theorem mount_narrow {r : Bool} (h : Formatted disk) (hd : Tidy (stored disk))
    (hrun : mount (Fs.boot noSuper disk) = .ok r s) : ∀ i, Narrow (stored disk) i := by
  obtain ⟨s0, h0, hs0⟩ := mount_start h
  rw [h0, ireclaim, Routine.gets_bind, hs0.sb] at hrun
  intro i hi
  exact loop_narrow hd hs0 (Nat.le_refl _) rfl hrun i (by omega) hi

/-- A free inode beyond the inode table is no orphan. -/
theorem Orphan.lt {d : Fs} {i : Nat} (h : Orphan (dinodes d i)) : i < d.sb.ninodes := by
  by_contra hge
  refine h.1 ?_
  unfold dinodes
  rw [if_neg hge]
  rfl

/-- **The orphans but the root are gone, and nothing else has changed.** -/
structure Reclaimed (d d' : Fs) : Prop where
  none : ∀ i, ROOTINO < i → ¬ Orphan (dinodes d' i)
  free : ∀ i, ROOTINO < i → Orphan (dinodes d i) → ∀ b ∈ owner d i, bits d' b = false
  inodes : ∀ i, ¬ (ROOTINO < i ∧ Orphan (dinodes d i)) → dinodes d' i = dinodes d i
  bits : ∀ b, (∀ i, ROOTINO < i → Orphan (dinodes d i) → b ∉ owner d i) →
    bits d' b = HaiOS.bits d b
  blocks : ∀ c, Home d.sb c → (∀ i, ROOTINO < i → Orphan (dinodes d i) →
    c ≠ iblock d.sb i ∧ ∀ b ∈ owner d i, c ≠ bblock d.sb b) → d'.disk c = d.disk c

/-- **Boot reclaims every orphan.** On every disk with a file system, the inodes of which have
    blocks of their own, marked in the bitmap: `fsinit` returns, all orphans but the root are
    free inodes, their blocks are free, all other inodes, bits and blocks are as recovery leaves
    them, the working directory is the only reference, and a second `ireclaim` changes nothing.
    The bits of an orphan's blocks must not need more than `LOGBLOCKS - 2` bitmap blocks. -/
theorem orphans_reclaimed (h : Formatted disk) (hd : Tidy (stored disk))
    (hspan : ∀ i, Narrow (stored disk) i) :
    ∃ s, mount (Fs.boot noSuper disk) = .ok true s ∧
      Reclaimed (stored disk) (Fs.boot s.sb s.disk) ∧
      (∀ ip, (s.itable ip).ref = if ip = 0 then 1 else 0) ∧
      ∃ s', ireclaim s = .ok true s' ∧ Unchanged s s' := by
  obtain ⟨s, hrun, m, hm, hs⟩ := mount_scanned h hd hspan
  obtain ⟨hdin, hbits⟩ := hs.quiet.stored
  have hF : ∀ i, Freed (stored disk) m i ↔ ROOTINO < i ∧ Orphan (dinodes (stored disk) i) := fun i =>
    ⟨fun hi => ⟨hi.1, hi.2.2⟩, fun hi => ⟨hi.1, lt_of_lt_of_le hi.2.lt hm, hi.2⟩⟩
  have hnone : ∀ i, ROOTINO < i → ¬ Orphan (dinodes s i) := fun i hi ho => by
    by_cases hf : Freed (stored disk) m i
    · rw [hs.gone i hf] at ho
      exact ho.1 rfl
    · rw [hs.others i hf] at ho
      exact hf ((hF i).mpr ⟨hi, ho⟩)
  refine ⟨s, hrun, ⟨?_, ?_, ?_, ?_, ?_⟩, fun ip => ?_, ?_⟩
  · rw [hdin]
    exact hnone
  · rw [hbits]
    exact fun i hi ho => hs.free i ((hF i).mpr ⟨hi, ho⟩)
  · rw [hdin]
    exact fun i hi => hs.others i fun hf => hi ((hF i).mp hf)
  · rw [hbits]
    exact fun b hb => hs.kept b fun i hi => hb i ((hF i).mp hi).1 ((hF i).mp hi).2
  · rw [boot_disk]
    exact fun c hc hall => hs.disk c hc fun i hi => hall i ((hF i).mp hi).1 ((hF i).mp hi).2
  · split
    · rename_i h0
      rw [h0]
      exact hs.quiet.table.ref
    · exact hs.quiet.table.rest ip ‹_›
  · -- the second time
    have hroot : dinodes s ROOTINO = dinodes (stored disk) ROOTINO :=
      hs.others ROOTINO fun hf => Nat.lt_irrefl _ hf.1
    obtain ⟨s', hrun', hu⟩ := loop_idle hs.quiet hnone (fun ho => by
      rw [hroot] at ho
      exact hs.root (lt_of_lt_of_le ho.lt hm) ho) (Nat.le_refl ROOTINO) rfl
    refine ⟨s', ?_, hu⟩
    rw [ireclaim, Routine.gets_bind]
    exact hrun'

end Boot

/-! ## 7. Files of the kernel -/

section Span

variable {sb : Superblock}

theorem length_dedup_append_le (l l' : List Nat) :
    (l ++ l').dedup.length ≤ l.dedup.length + l'.dedup.length := by
  rw [← List.length_append]
  refine ((List.nodup_dedup (l ++ l')).subperm fun c hc => ?_).length_le
  simpa using hc

/-- The bits of an extent of at most `MAXFILE` blocks are in two bitmap blocks. -/
theorem span_extent {e : Extent} (h : e.len.toNat ≤ MAXFILE) : span sb e.blocks ≤ 2 := by
  have hsub : (e.blocks.map (bblock sb)).dedup ⊆
      [bblock sb e.start.toNat, bblock sb e.start.toNat + 1] := by
    intro c hc
    obtain ⟨b, hb, rfl⟩ := List.mem_map.mp (List.mem_dedup.mp hc)
    rw [Extent.mem_blocks] at hb
    simp only [List.mem_cons, List.not_mem_nil, or_false, bblock, BPB_eq]
    simp only [MAXFILE] at h
    omega
  exact ((List.nodup_dedup _).subperm hsub).length_le

theorem span_blocksOf {es : List Extent} (h : ∀ e ∈ es, e.len.toNat ≤ MAXFILE) :
    span sb (blocksOf es) ≤ 2 * es.length := by
  induction es with
  | nil => exact Nat.zero_le _
  | cons e es ih =>
    have h1 : span sb e.blocks ≤ 2 := span_extent (h e List.mem_cons_self)
    have h2 := ih fun x hx => h x (List.mem_cons_of_mem _ hx)
    have h3 := length_dedup_append_le (e.blocks.map (bblock sb)) ((blocksOf es).map (bblock sb))
    unfold span at *
    rw [blocksOf_cons, List.map_append, List.length_cons]
    omega

/-- **Every file of at most `MAXFILE` blocks is narrow.** -/
theorem narrow_of_maxfile {d : Fs} {i : Nat}
    (h : (blocksOf (dinodes d i).extents.1).length ≤ MAXFILE) : Narrow d i := by
  intro _ ho
  rw [owner, if_neg ho.1]
  have hle : ∀ e ∈ (dinodes d i).extents.1, e.len.toNat ≤ MAXFILE := fun e he => by
    have hsub : e.blocks.Sublist (blocksOf (dinodes d i).extents.1) := by
      rw [blocksOf, List.flatMap_def]
      exact List.sublist_flatten_of_mem (List.mem_map_of_mem he)
    have := hsub.length_le
    rw [Extent.length_blocks] at this
    omega
  have hspan : span d.sb _ ≤ _ := span_blocksOf hle
  rw [(dinodes d i).extents.2] at hspan
  exact hspan

end Span

/-! ## 8. Two disks -/

/-- The block of a super block. -/
def superBlock (sb : Superblock) : Block := patch (fun _ => 0) 0
  ([FSMAGIC, 2, sb.size, sb.nblocks, sb.ninodes, sb.nlog, sb.logstart, sb.inodestart,
    sb.bmapstart].flatMap (le 4))

/-- An image with a super block and an empty log. -/
def bootImage (sb : Superblock) (used : Nat → Bool) (dins : Nat → Dinode) : Nat → Block :=
  image sb used dins fun c => if c = 1 then superBlock sb else fun _ => 0

/-- One inode, number `i`. -/
def only (i : Nat) (d : Dinode) (j : Nat) : Dinode := if j = i then d else Dinode.zero

section Disks

variable {sb : Superblock} (hL : Layout sb) (h1 : 1 < sb.logstart)
  (hsuper : superOf (superBlock sb) = sb) (hmagic : wordAt (superBlock sb) 0 = FSMAGIC)
  (hn : sb.ninodes ≤ 2 ^ 31)
include hL h1 hsuper

/-- The image is what is stored on it. -/
theorem stored_bootImage (used : Nat → Bool) (dins : Nat → Dinode) :
    superOf (bootImage sb used dins 1) = sb ∧
    getHead (bootImage sb used dins sb.logstart) = [] ∧
    stored (bootImage sb used dins) = Fs.boot sb (bootImage sb used dins) := by
  have h2 := hL.log
  have h3 := hL.inode_le
  have hout : ∀ c, c < sb.inodestart → bootImage sb used dins c =
      if c = 1 then superBlock sb else fun _ => 0 := fun c hc => by
    rw [bootImage, image, if_neg (by omega), if_neg (by omega)]
  have hs : superOf (bootImage sb used dins 1) = sb := by
    rw [hout 1 (by omega), if_pos rfl]
    exact hsuper
  have hh : getHead (bootImage sb used dins sb.logstart) = [] := by
    rw [hout _ (by omega), if_neg (by omega)]
    decide
  refine ⟨hs, hh, ?_⟩
  rw [stored, hs, recovered_empty hh]

include hmagic hn in
theorem formatted_bootImage (used : Nat → Bool) (dins : Nat → Dinode) :
    Formatted (bootImage sb used dins) := by
  obtain ⟨hs, hh, -⟩ := stored_bootImage hL h1 hsuper used dins
  have h2 := hL.log
  have h3 := hL.inode_le
  refine ⟨?_, by rw [hs]; exact hL, by rw [hs]; exact hn, ?_⟩
  · rw [bootImage, image, if_neg (by omega), if_neg (by omega), if_pos rfl]
    exact hmagic
  · rw [hs, hh]
    exact headOk_nil _

/-- A disk with one inode, all blocks of which are in use. -/
theorem tidy_only (used : Nat → Bool) (d : Dinode) (i : Nat) (hi : i < sb.ninodes)
    (hout : ∀ b, sb.size ≤ b → used b = true) (hnd : (blocksOf d.extents.1).Nodup)
    (hused : ∀ b ∈ blocksOf d.extents.1, used b = true ∧ b < sb.size) :
    Tidy (stored (bootImage sb used (only i d))) ∧
    bits (stored (bootImage sb used (only i d))) = used ∧
    dinodes (stored (bootImage sb used (only i d))) = only i d := by
  obtain ⟨-, -, hst⟩ := stored_bootImage hL h1 hsuper used (only i d)
  have hbits := bits_image hL used (only i d)
    (fun c => if c = 1 then superBlock sb else fun _ => 0) hout
  have hdin := dinodes_image hL used (only i d)
    (fun c => if c = 1 then superBlock sb else fun _ => 0) fun j hj => if_neg (by omega)
  rw [hst]
  have hown : ∀ j, owner (Fs.boot sb (bootImage sb used (only i d))) j ⊆ blocksOf d.extents.1 ∧
      (j ≠ i → owner (Fs.boot sb (bootImage sb used (only i d))) j = []) ∧
      (owner (Fs.boot sb (bootImage sb used (only i d))) j).Nodup := fun j => by
    unfold owner
    rw [bootImage, hdin, only]
    by_cases hj : j = i
    · rw [if_pos hj]
      split
      · exact ⟨List.nil_subset _, fun hn => absurd hj hn, List.nodup_nil⟩
      · exact ⟨List.Subset.refl _, fun hn => absurd hj hn, hnd⟩
    · rw [if_neg hj]
      exact ⟨List.nil_subset _, fun _ => rfl, List.nodup_nil⟩
  refine ⟨⟨fun j => (hown j).2.2, fun j k hjk b hb hbk => ?_, fun j b hb => ?_⟩, hbits, hdin⟩
  · by_cases hj : j = i
    · rw [(hown k).2.1 fun e => hjk (hj.trans e.symm)] at hbk
      cases hbk
    · rw [(hown j).2.1 hj] at hb
      cases hb
  · rw [boot_sb, bootImage, hbits]
    exact hused b ((hown j).1 hb)

end Disks

theorem smallSb_super : superOf (superBlock smallSb) = smallSb ∧
    wordAt (superBlock smallSb) 0 = FSMAGIC := by
  decide +kernel

/-- A directory without a link. -/
def orphanDir (es : Extents) : Dinode := ⟨T_DIR, 0, 0, 0, 0, 1, es⟩

/-- Boot frees the orphan 2 and its block 35. -/
theorem orphans_reclaimed_two : ∃ (disk : Nat → Block) (s : Fs),
    Orphan (dinodes (stored disk) 2) ∧ bits (stored disk) 35 = true ∧
    mount (Fs.boot noSuper disk) = .ok true s ∧
    ¬ Orphan (dinodes (Fs.boot s.sb s.disk) 2) ∧ bits (Fs.boot s.sb s.disk) 35 = false := by
  have hdisk := tidy_only smallSb_layout (by decide) smallSb_super.1 oneBlock
    (orphanDir (Extents.one 35 1)) 2 (by decide) (fun b hb => decide_eq_true (Or.inr hb))
    (by decide) (by decide)
  obtain ⟨hT, hbits, hdin⟩ := hdisk
  have ho : Orphan (dinodes (stored (bootImage smallSb oneBlock
      (only 2 (orphanDir (Extents.one 35 1))))) 2) := by
    rw [hdin]
    decide
  obtain ⟨s, hrun, hrec, -⟩ := orphans_reclaimed (formatted_bootImage smallSb_layout (by decide)
    smallSb_super.1 smallSb_super.2 (by decide) _ _) hT fun i => narrow_of_maxfile (by
      rw [hdin, only]
      split <;> decide)
  refine ⟨_, s, ho, by rw [hbits]; decide, hrun, hrec.none 2 (by decide),
    hrec.free 2 (by decide) ho 35 ?_⟩
  rw [owner, if_neg ho.1, hdin]
  decide

/-- 30 bitmap blocks from block 34 on, and data blocks from block 64 on. -/
def wideSb : Superblock := ⟨245760, 245696, 8, 31, 2, 33, 34⟩

theorem wideSb_layout : Layout wideSb := ⟨by decide, by decide, by decide, by decide⟩

theorem wideSb_super : superOf (superBlock wideSb) = wideSb ∧
    wordAt (superBlock wideSb) 0 = FSMAGIC := by
  decide +kernel

/-- The bits of the extent are in 29 bitmap blocks. -/
theorem span_wide : 29 ≤ span wideSb (List.range' 64 229377) := by
  have hsub : List.range' 34 29 ⊆ ((List.range' 64 229377).map (bblock wideSb)).dedup := by
    intro c hc
    rw [List.mem_range'_1] at hc
    rw [List.mem_dedup, List.mem_map]
    refine ⟨64 + (c - 34) * 8192, ?_, ?_⟩
    · rw [List.mem_range'_1]
      omega
    · show (64 + (c - 34) * 8192) / BPB + 34 = c
      rw [BPB_eq]
      omega
  have hn : (List.range' 34 29).Nodup := List.nodup_range'
  have := (hn.subperm hsub).length_le
  rwa [List.length_range'] at this

/-- **A root without links stays, and an orphan may be too wide for the log**: boot then stops. -/
theorem orphans_left :
    (∃ (disk : Nat → Block) (s : Fs), Formatted disk ∧ Tidy (stored disk) ∧
      mount (Fs.boot noSuper disk) = .ok true s ∧ Orphan (dinodes (Fs.boot s.sb s.disk) ROOTINO)) ∧
    ∃ disk : Nat → Block, Formatted disk ∧ Tidy (stored disk) ∧
      ∀ r s, mount (Fs.boot noSuper disk) ≠ .ok r s := by
  constructor
  · have hdisk := tidy_only smallSb_layout (by decide) smallSb_super.1 oneBlock
      (orphanDir Extents.none) ROOTINO (by decide) (fun b hb => decide_eq_true (Or.inr hb))
      (by decide) (by decide)
    obtain ⟨hT, -, hdin⟩ := hdisk
    have hf := formatted_bootImage smallSb_layout (by decide) smallSb_super.1 smallSb_super.2
      (by decide) oneBlock (only ROOTINO (orphanDir Extents.none))
    obtain ⟨s, hrun, m, hm, hs⟩ := mount_scanned hf hT fun i => narrow_of_maxfile (by
      rw [hdin, only]
      split <;> decide)
    refine ⟨_, s, hf, hT, hrun, ?_⟩
    rw [hs.quiet.stored.1, hs.others ROOTINO fun hF => Nat.lt_irrefl _ hF.1, hdin]
    decide
  · have hblocks : blocksOf (orphanDir (Extents.one 64 229377)).extents.1 = List.range' 64 229377 := by
      have hrest : blocksOf (List.replicate 13 (⟨0, 0⟩ : Extent)) = [] := by decide
      show blocksOf (⟨64, 229377⟩ :: List.replicate 13 ⟨0, 0⟩) = _
      rw [blocksOf_cons, hrest, List.append_nil]
      rfl
    have hdisk := tidy_only wideSb_layout (by decide) wideSb_super.1 (fun _ => true)
      (orphanDir (Extents.one 64 229377)) 2 (by decide) (fun _ _ => rfl)
      (by rw [hblocks]; exact List.nodup_range') (fun b hb => ⟨rfl, by
        rw [hblocks, List.mem_range'_1] at hb
        show b < 245760
        omega⟩)
    obtain ⟨hT, -, hdin⟩ := hdisk
    have hf := formatted_bootImage wideSb_layout (by decide) wideSb_super.1 wideSb_super.2
      (by decide) (fun _ => true) (only 2 (orphanDir (Extents.one 64 229377)))
    refine ⟨_, hf, hT, fun r s hrun => ?_⟩
    have ho : Orphan (dinodes (stored (bootImage wideSb (fun _ => true)
        (only 2 (orphanDir (Extents.one 64 229377))))) 2) := by
      rw [hdin]
      exact ⟨by decide, by decide⟩
    have hle := mount_narrow hf hT hrun 2 (by decide) ho
    have hsb : (stored (bootImage wideSb (fun _ => true)
        (only 2 (orphanDir (Extents.one 64 229377))))).sb = wideSb := by
      rw [(stored_bootImage wideSb_layout (by decide) wideSb_super.1 _ _).2.2, boot_sb]
    have hwide := span_wide
    rw [owner, if_neg ho.1, hdin, hsb, only, if_pos rfl, hblocks] at hle
    simp only [LOGBLOCKS, MAXOPBLOCKS] at hle
    omega

end HaiOS.Reclaim
