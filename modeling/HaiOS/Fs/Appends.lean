/-
  File:      HaiOS/Fs/Appends.lean
  Subject:   BMAP AS AN APPEND-ONLY BLOCK LIST (kernel/fs.c: extent_append, bmap, itrunc).

  Here `bmap` and `itrunc` are calls of their own, in any order and with any other file in between.
  Between them the inode in memory has blocks that the inode on the disk does not have yet, so the
  invariant is about the inodes as memory has them.

  * `BmapCall` -- the calls; `Pending dins s` -- the invariant, with the inodes `dins` as they will
    be once every inode in memory has been written;
  * `bmap_appends` -- what `bmap` does to the list of blocks, in every reachable state.
-/
import HaiOS.Fs.Arrays

namespace HaiOS.Appends

open Lib Function

/-! ## 1. The calls -/

inductive BmapCall where
  | beginOp
  | endOp
  | iget (inum : Nat)
  | ilock (ip : Nat)
  | iupdate (ip : Nat)
  | bmap (ip bn : Nat)
  | itrunc (ip : Nat)

def BmapCall.exec : BmapCall → FsM Unit
  | .beginOp => do
    let _ ← HaiOS.beginOp
    pure ()
  | .endOp => HaiOS.endOp
  | .iget inum => do
    let _ ← HaiOS.iget inum
    pure ()
  | .ilock ip => HaiOS.ilock ip
  | .iupdate ip => HaiOS.iupdate ip
  | .bmap ip bn => do
    let _ ← HaiOS.bmap ip bn
    pure ()
  | .itrunc ip => HaiOS.itrunc ip

/-- The inode exists; for the last three, the caller has locked it. -/
def BmapCall.Legal (s : Fs) : BmapCall → Prop
  | .iget inum => inum < s.sb.ninodes
  | .iupdate ip | .bmap ip _ | .itrunc ip => Locked s ip
  | _ => True

/-- A call that returns. -/
def BmapStep (s : Fs) (c : BmapCall) (s' : Fs) : Prop := c.Legal s ∧ c.exec s = .ok () s'

/-! ## 2. The invariant -/

/-- The blocks of the inode `d`; a free inode has none. -/
def Dinode.owns (d : Dinode) : List Nat := if d.type = 0 then [] else blocksOf d.extents.1

/-- **The inodes, as memory has them, are `dins`**: their blocks are disjoint and those in use, and
    their empty slots come last. -/
structure Pending (dins : Nat → Dinode) (s : Fs) : Prop where
  journaled : Journaled All s
  slots : SlotsOk s.sb.ninodes dins s.itable
  owned : Owned (Reserved s.sb) (bits s) fun i => Dinode.owns (dins i)
  packed : ∀ i, (dins i).type ≠ 0 → Packed (dins i).extents.1
  /-- an inode that memory has not read -/
  clean : ∀ i, (∀ ip, 0 < (s.itable ip).ref → (s.itable ip).valid = true → (s.itable ip).inum ≠ i) →
    dinodes s i = dins i

section Facts

variable {dins : Nat → Dinode} {s s' : Fs} {ip : Nat} {F : Frame}

theorem owns_update (i : Nat) {d : Dinode} (ht : d.type ≠ 0) :
    (fun j => Dinode.owns (update dins i d j)) =
      update (fun j => Dinode.owns (dins j)) i (blocksOf d.extents.1) := by
  funext j
  by_cases hj : j = i
  · subst hj
    rw [update_self, update_self, Dinode.owns, if_neg ht]
  · rw [update_of_ne hj, update_of_ne hj]

section

variable (h : Pending dins s) (hl : Locked s ip)
include h hl

theorem Pending.owns_eq :
    Dinode.owns (dins (s.itable ip).inum) = blocksOf (s.itable ip).din.extents.1 := by
  obtain ⟨hd, ht⟩ := h.slots.sync ip hl.1 hl.2
  rw [Dinode.owns, if_neg ht, hd]

theorem Pending.type_ne_zero : (s.itable ip).din.type ≠ 0 := by
  obtain ⟨hd, ht⟩ := h.slots.sync ip hl.1 hl.2
  rw [hd]
  exact ht

theorem Pending.packed_slot : Packed (s.itable ip).din.extents.1 := by
  obtain ⟨hd, ht⟩ := h.slots.sync ip hl.1 hl.2
  rw [hd]
  exact h.packed _ ht

theorem Pending.holds : Holds s (s.itable ip) := by
  have ho := h.owns_eq hl
  refine ⟨h.slots.inums ip hl.1, ?_, fun b hb => ?_, fun b hb => ?_⟩
  · rw [← ho]
    exact h.owned.nodup (s.itable ip).inum
  · rw [← ho] at hb
    exact h.owned.used_of_mem (i := (s.itable ip).inum) hb
  · rw [← ho] at hb
    have := h.owned.apart (s.itable ip).inum b hb
    unfold Reserved at this
    omega

end

/-- What a call may write: any block past the log. -/
def pastLog (s : Fs) : Frame where
  blocks c := s.sb.inodestart ≤ c ∧ c < s.sb.size
  slots _ := True
  errs := False

theorem pastLog_bitmap (h : Journaled All s) {b : Nat} (hb : b < s.sb.size) :
    (pastLog s).blocks (bblock s.sb b) := by
  obtain ⟨h1, h2⟩ := bblock_bounds h.ok.layout hb
  have h3 := h.ok.layout.inode_le
  have h4 : s.sb.dataStart ≤ s.sb.size := Nat.sub_le _ _
  exact ⟨by omega, by omega⟩

theorem pastLog_inode (h : Journaled All s) {i : Nat} (hi : i < s.sb.ninodes) :
    (pastLog s).blocks (iblock s.sb i) := by
  obtain ⟨h1, h2⟩ := iblock_bounds h.ok.layout hi
  have h3 := h.ok.layout.bmap_le
  have h4 : s.sb.dataStart ≤ s.sb.size := Nat.sub_le _ _
  exact ⟨h1, by omega⟩

/-- The inode in slot `ip` becomes `y`, in memory and perhaps on the disk. -/
theorem Pending.update {y : Inode} (h : Pending dins s) (hl : Locked s ip)
    (hj : Journaled All s') (hsb : s'.sb = s.sb)
    (hit : s'.itable = update s.itable ip y) (hinum : y.inum = (s.itable ip).inum)
    (hr : 0 < y.ref) (hv : y.valid = true) (ht : y.din.type ≠ 0) (hp : Packed y.din.extents.1)
    (hd : ∀ i, i ≠ (s.itable ip).inum → dinodes s' i = dinodes s i)
    (ho : Owned (Reserved s.sb) (bits s')
      (update (fun i => Dinode.owns (dins i)) (s.itable ip).inum (blocksOf y.din.extents.1))) :
    Pending (update dins (s.itable ip).inum y.din) s' := by
  refine ⟨hj, ?_, ?_, fun i hti => ?_, fun i hi => ?_⟩
  · rw [hsb, hit]
    exact h.slots.write hl.1 hinum fun _ _ => ht
  · rw [hsb, owns_update _ ht]
    exact ho
  · by_cases he : i = (s.itable ip).inum
    · subst he
      rw [update_self]
      exact hp
    · rw [update_of_ne he] at hti ⊢
      exact h.packed i hti
  · have hne : i ≠ (s.itable ip).inum := fun e => by
      refine hi ip ?_ ?_ ?_ <;> rw [hit, update_self]
      · exact hr
      · exact hv
      · rw [hinum, e]
    rw [update_of_ne hne, hd i hne]
    refine h.clean i fun jp hjr hjv => ?_
    by_cases hjp : jp = ip
    · rw [hjp]
      exact hne.symm
    · have := hi jp
      rw [hit, update_of_ne hjp] at this
      exact this hjr hjv

/-- Only the log and the buffers change. -/
theorem Pending.seen (h : Pending dins s) (hj : Journaled All s') (hv : SameView All s s') :
    Pending dins s' := by
  refine ⟨hj, ?_, ?_, h.packed, fun i hi => ?_⟩
  · rw [hv.sb, hv.itable]
    exact h.slots
  · rw [hv.sb, hv.bits]
    exact h.owned
  · rw [hv.itable] at hi
    rw [hv.dinodes]
    exact h.clean i hi

end Facts

/-! ## 3. Every call keeps it -/

section Calls

variable {dins : Nat → Dinode} {s : Fs} {ip inum bn : Nat}

section

variable (h : Pending dins s)
include h

theorem beginOp_pending : (beginOp s).Sat (fun _ s' => Pending dins s') fun _ _ => True := by
  unfold beginOp
  cases hb : s.log.beginOp with
  | none => exact h
  | some l =>
    obtain ⟨-, -, rfl⟩ := Log.beginOp_some hb
    exact ⟨h.journaled.relog _, h.slots, h.owned, h.packed, h.clean⟩

theorem endOp_pending : (endOp s).Sat (fun _ s' => Pending dins s') fun _ _ => True :=
  (endOp_journaled (P := fun _ _ => True) (fun _ _ _ => trivial) h.journaled).imp fun _ _ hq =>
    h.seen hq.1 hq.2

theorem iget_pending (hi : inum < s.sb.ninodes) :
    (iget inum s).Sat (fun _ s' => Pending dins s') fun _ _ => True := by
  refine ((iget_runs (G := All) (F := pastLog s) (P := fun _ _ => True) (fun _ _ => trivial)
    fun _ => trivial).imp fun ip s' ht hq => ?_).sat.imp fun _ _ hq => hq.2
  obtain ⟨h1, rfl⟩ := hq
  refine ⟨h.journaled.next ht (fun _ hc => hc) (h.journaled.ok.setSlot ip _), h.slots.get h1 hi,
    h.owned, h.packed, fun i hi => h.clean i fun jp hr hv => ?_⟩
  have := hi jp
  by_cases hjp : jp = ip
  · subst hjp
    rw [setSlot_itable, update_self, Inode.got, if_pos hr] at this
    exact this (Nat.succ_pos _) hv
  · rw [setSlot_itable, update_of_ne hjp] at this
    exact this hr hv

theorem ilock_pending : (ilock ip s).Sat (fun _ s' => Pending dins s') fun _ _ => True := by
  refine ((ilock_runs (G := All) (P := fun _ _ => True) (fun _ _ _ => trivial) h.journaled.ok.mounted
    (fun hr => h.slots.inums ip hr) (fun _ => trivial) fun _ _ _ => trivial).imp
    fun _ s' ht hq => ?_).sat.imp fun _ _ hq => hq.2
  obtain ⟨hr, hit, hrd, htype⟩ := hq
  obtain ⟨hb, hd, hok⟩ := h.journaled.ok.still ht (fun _ hf => hf) hrd
  by_cases hv : (s.itable ip).valid = true
  · rw [Inode.locked, if_pos hv, update_eq_self] at hit
    exact ⟨h.journaled.next ht (fun _ hf => hf.elim) hok, by rw [ht.sb, hit]; exact h.slots, by
      rw [ht.sb, hb]
      exact h.owned, h.packed, by
      rw [hd, hit]
      exact h.clean⟩
  -- the inode is read: no slot has it, so on the disk it is as in `dins`
  have hdin : dinodes s (s.itable ip).inum = dins (s.itable ip).inum :=
    h.clean _ fun jp hjr hjv e => hv (by rw [← h.slots.unique jp ip hjr hr e]; exact hjv)
  rw [hdin] at hit htype
  refine ⟨h.journaled.next ht (fun _ hf => hf.elim) hok, ?_, ?_, h.packed, fun i hi => ?_⟩
  · rw [ht.sb, hit]
    exact h.slots.lock hr htype
  · rw [ht.sb, hb]
    exact h.owned
  · rw [hd]
    refine h.clean i fun jp hjr hjv => ?_
    have hjp : jp ≠ ip := fun e => hv (by rw [← e]; exact hjv)
    have := hi jp
    rw [hit, update_of_ne hjp] at this
    exact this hjr hjv

theorem iupdate_pending (hl : Locked s ip) :
    (iupdate ip s).Sat (fun _ s' => Pending dins s') fun _ _ => True := by
  have hi := h.slots.inums ip hl.1
  refine ((iupdate_runs (G := All) (P := fun _ _ => True) (fun _ _ _ => trivial) h.journaled.ok.mounted hi).imp
    fun _ s' ht hq => ?_).sat.imp fun _ _ hq => hq.2
  obtain ⟨hd, hb, hr⟩ := hq
  have hit : s'.itable = s.itable := ht.itable_eq fun _ hf => hf
  have hself : update dins (s.itable ip).inum (s.itable ip).din = dins := by
    rw [(h.slots.sync ip hl.1 hl.2).1, update_eq_self]
  have hj : Journaled All s' := h.journaled.next ht (fun c hc => by
    rw [show c = iblock s.sb (s.itable ip).inum from hc]
    exact pastLog_inode h.journaled hi) (h.journaled.ok.same ht hr hb)
  rw [← hself]
  refine h.update hl hj ht.sb (by rw [update_eq_self, hit]) rfl hl.1 hl.2
    (h.type_ne_zero hl) (h.packed_slot hl) (fun i hne => by rw [hd, update_of_ne hne]) ?_
  rw [← h.owns_eq hl, update_eq_self (s.itable ip).inum fun i => Dinode.owns (dins i), hb]
  exact h.owned

theorem itrunc_pending (hl : Locked s ip) :
    (itrunc ip s).Sat (fun _ s' => Pending (update dins (s.itable ip).inum
      (s.itable ip).truncated.din) s') fun _ _ => True := by
  have hx := h.holds hl
  refine ((itrunc_runs (G := All) (F := pastLog s) (P := fun _ _ => True) (fun _ _ _ => trivial)
    h.journaled.ok hx ⟨fun b hb => pastLog_bitmap h.journaled (hx.data b hb).2,
      pastLog_inode h.journaled hx.inum⟩ trivial).imp fun _ s' ht hq => ?_).sat.imp fun _ _ hq => hq.2
  obtain ⟨⟨hb, hd, hit⟩, hok⟩ := hq
  refine h.update hl (h.journaled.next ht (fun _ hc => hc) hok) ht.sb hit rfl hl.1 hl.2
    (h.type_ne_zero hl) (packed_cleared _) (fun i hne => by rw [hd, update_of_ne hne]) ?_
  rw [show blocksOf (s.itable ip).truncated.din.extents.1 = [] from blocksOf_cleared _]
  refine h.owned.release fun b => ?_
  rw [hb, h.owns_eq hl]
  simp [unmark]

end

/-- **What `bmap` does to the slot `ip`**: its blocks grow by `new`. -/
structure Appended (ip : Nat) (g : Growth) (s s' : Fs) : Prop where
  grown : Grown All ip g.new g.es s s'
  blocks : blocksOf g.es.1 = blocksOf (s.itable ip).din.extents.1 ++ g.new
  packed : Packed g.es.1

theorem bmap_pending (h : Pending dins s) (hl : Locked s ip) {g : Growth}
    (hg : grow s.sb.size (bn + 1 - (blocksOf (s.itable ip).din.extents.1).length) (bits s)
      (s.itable ip).din.extents = g) :
    (bmap ip bn s).Sat (fun r s' =>
      (g.stop = .done → (blocksOf (s.itable ip).din.extents.1 ++ g.new)[bn]? = some r) ∧
      (g.stop = .full → r = 0) ∧ g.stop ≠ .overflow ∧ Appended ip g s s' ∧
      Pending (update dins (s.itable ip).inum
        ((s.itable ip).withExtents g.es).din) s') fun _ _ => True := by
  have hx := h.holds hl
  have hok := h.journaled.ok
  have hfresh : g.new.Nodup ∧ ∀ b ∈ g.new, bits s b = false ∧ b < s.sb.size := by
    rw [← hg]
    exact grow_fresh (bits_outside s) _
  have hfree : ∀ c, bits s c = false → s.sb.inodestart ≤ c := fun c hc => by
    have h1 := data_of_free hok.reserved hc
    have h2 := hok.layout.inode_le
    have h3 := hok.layout.bmap_le
    omega
  refine ((bmap_runs (G := All) (F := pastLog s) (P := fun _ _ => True) (fun _ _ _ => trivial) hok
    (fun c hc => (hx.data c hc).2) hg trivial (fun c hc => ?_) fun _ _ => trivial).imp
    fun r s' ht hq => ?_).sat.imp fun _ _ hq => hq.2
  · obtain ⟨hc0, hlt⟩ := hfresh.2 c hc
    exact ⟨pastLog_bitmap h.journaled hlt, hfree c hc0, hlt⟩
  · obtain ⟨hdone, hfull, hstop, hgr⟩ := hq
    have hgb := (grow_blocks (bits_outside s) hok.layout.small _ (fun c hc => (hx.data c hc).2)
      (by rw [hg]; exact hstop)).2 (h.packed_slot hl)
    rw [hg] at hgb
    obtain ⟨hblocks, hpacked⟩ := hgb
    refine ⟨hdone, hfull, hstop, ⟨hgr, hblocks, hpacked⟩, ?_⟩
    refine h.update hl (h.journaled.next ht (fun _ hc => hc) hgr.ok) ht.sb hgr.itable rfl hl.1 hl.2
      (h.type_ne_zero hl) hpacked (fun i _ => by rw [hgr.dinodes]) ?_
    refine h.owned.take hgr.free hfresh.1 ?_ fun b => ?_
    · rw [show ((s.itable ip).withExtents g.es).din.extents = g.es from rfl, hblocks, h.owns_eq hl]
    · rw [hgr.bits]
      simp [mark]

/-- The inode whose extents the call changes, and what they become. -/
def BmapCall.makes (s : Fs) : BmapCall → Option (Nat × Extents)
  | .bmap ip bn => some ((s.itable ip).inum,
      (grow s.sb.size (bn + 1 - (blocksOf (s.itable ip).din.extents.1).length) (bits s)
        (s.itable ip).din.extents).es)
  | .itrunc ip => some ((s.itable ip).inum, clearFrom 0 (s.itable ip).din.extents)
  | _ => none

/-- The inodes `dins'` are `dins`, with other extents for the inode of the call. -/
def BmapCall.Changes (c : BmapCall) (s : Fs) (dins dins' : Nat → Dinode) : Prop :=
  ∀ i, (dins' i).type = (dins i).type ∧
    ((dins' i).extents = (dins i).extents ∨ c.makes s = some (i, (dins' i).extents))

variable {c : BmapCall}

theorem BmapCall.Changes.refl : c.Changes s dins dins := fun _ => ⟨rfl, Or.inl rfl⟩

theorem BmapCall.changes_update {es : Extents} {y : Inode} (h : Pending dins s) (hl : Locked s ip)
    (hc : c.makes s = some ((s.itable ip).inum, es)) (ht : y.din.type = (s.itable ip).din.type)
    (he : y.din.extents = es) :
    c.Changes s dins (update dins (s.itable ip).inum y.din) := by
  intro i
  by_cases hi : i = (s.itable ip).inum
  · subst hi
    rw [update_self]
    exact ⟨by rw [ht, (h.slots.sync ip hl.1 hl.2).1], Or.inr (by rw [hc, he])⟩
  · rw [update_of_ne hi]
    exact ⟨rfl, Or.inl rfl⟩

/-- **Every call keeps the invariant**, and changes the extents of one inode at most. -/
theorem exec_pending (h : Pending dins s) (hc : c.Legal s) :
    (c.exec s).Sat (fun _ s' => ∃ dins', Pending dins' s' ∧ c.Changes s dins dins')
      fun _ _ => True := by
  cases c with
  | beginOp => exact (beginOp_pending h).bind fun _ _ h' => ⟨dins, h', .refl⟩
  | endOp => exact (endOp_pending h).imp fun _ _ h' => ⟨dins, h', .refl⟩
  | iget inum => exact (iget_pending h hc).bind fun _ _ h' => ⟨dins, h', .refl⟩
  | ilock ip => exact (ilock_pending h).imp fun _ _ h' => ⟨dins, h', .refl⟩
  | iupdate ip => exact (iupdate_pending h hc).imp fun _ _ h' => ⟨dins, h', .refl⟩
  | bmap ip bn =>
    exact (bmap_pending h hc rfl).bind fun _ _ h' =>
      ⟨_, h'.2.2.2.2, BmapCall.changes_update h hc rfl rfl rfl⟩
  | itrunc ip =>
    exact (itrunc_pending h hc).imp fun _ _ h' =>
      ⟨_, h', BmapCall.changes_update h hc rfl rfl rfl⟩

end Calls

/-! ## 4. Every reachable state -/

variable {disk : Nat → Block}

theorem boot_pending {sb : Superblock} {disk : Nat → Block} (hi : Arrays.Image sb disk) :
    Pending (dinodes (Fs.boot sb disk)) (Fs.boot sb disk) := by
  have h := hi.boot (G := All) fun _ _ => trivial
  exact ⟨h.inv.journaled, h.inv.slots, h.inv.owned, fun i ht => (h.sound i ht).packed, fun _ _ => rfl⟩

theorem reach_pending {sb : Superblock} (hi : Arrays.Image sb disk) {s : Fs} {l : List BmapCall}
    (hr : Trace BmapStep (Fs.boot sb disk) l s) : ∃ dins, Pending dins s := by
  refine hr.invariant (I := fun s => ∃ dins, Pending dins s) (P := fun _ => True)
    (fun s c s' _ h hst => ?_) (fun _ _ => trivial) ⟨_, boot_pending hi⟩
  obtain ⟨dins, h⟩ := h
  obtain ⟨dins', h', -⟩ := (exec_pending h hst.1).of_ok hst.2
  exact ⟨dins', h'⟩

/-- What `bmap` of the next block does, when it returns `b`: the disk is full and nothing has
    changed, or `b` was free, is marked and zeroed, and comes after the blocks of the file. -/
def NextBlock (ip : Nat) (s : Fs) (b : Nat) (s' : Fs) : Prop :=
  (b = 0 ∧ s'.itable = s.itable ∧ bits s' = bits s ∧ dinodes s' = dinodes s) ∨
  (b ≠ 0 ∧ blocksOf (s'.itable ip).din.extents.1 = blocksOf (s.itable ip).din.extents.1 ++ [b] ∧
    Packed (s'.itable ip).din.extents.1 ∧ bits s b = false ∧
    bits s' = update (bits s) b true ∧ view s' b = fun _ => 0)

theorem bmap_next {dins : Nat → Dinode} {s : Fs} {ip : Nat} (h : Pending dins s) (hl : Locked s ip) :
    (bmap ip (blocksOf (s.itable ip).din.extents.1).length s).Sat (NextBlock ip s)
      fun _ _ => True := by
  have hone : (blocksOf (s.itable ip).din.extents.1).length + 1 -
      (blocksOf (s.itable ip).din.extents.1).length = 1 := by omega
  refine (bmap_pending h hl rfl).imp fun b s' hq => ?_
  rw [hone] at hq
  obtain ⟨hdone, hfull, hstop, ⟨hgr, hblocks, hpacked⟩, -⟩ := hq
  rcases grow_succ s.sb.size 0 (bits s) (s.itable ip).din.extents with
    ⟨-, e⟩ | ⟨c, -, -, e⟩ | ⟨c, es', hc, -, e⟩
  · -- no block is free
    rw [e] at hgr hfull
    refine Or.inl ⟨hfull rfl, ?_, by rw [hgr.bits, mark_nil], hgr.dinodes⟩
    rw [hgr.itable]
    exact update_eq_self ..
  · rw [e] at hstop
    exact absurd rfl hstop
  · rw [e] at hgr hblocks hpacked hdone
    have hb : some c = some b := by
      have := hdone rfl
      rwa [List.getElem?_append_right (le_refl _), Nat.sub_self] at this
    obtain rfl := Option.some.inj hb
    have hfree := (nextBlock_free (bits_outside s) hc).1
    have hslot : (s'.itable ip).din.extents = es' := by
      rw [hgr.itable, update_self]
      rfl
    refine Or.inr ?_
    rw [hslot]
    refine ⟨ne_zero_of_free h.journaled.ok.layout h.journaled.ok.reserved hfree, hblocks,
      hpacked, hfree, ?_, hgr.zero c (List.mem_singleton_self c) trivial⟩
    rw [hgr.bits, ← mark_cons]
    exact mark_nil _

/-- **`bmap` is an append-only list of blocks.** In every state that is reached from a consistent
    image by any sequence of `bmap` and `itrunc` on any inodes: the empty slots of a locked inode
    come last; `bmap` of a block the file has returns that block and changes nothing; and `bmap` of
    the next block, if it returns, appends a free block or finds none. -/
theorem bmap_appends {sb : Superblock} {disk : Nat → Block} (hi : Arrays.Image sb disk) {s : Fs}
    {l : List BmapCall} (hr : Trace BmapStep (Fs.boot sb disk) l s) {ip : Nat} (hl : Locked s ip) :
    Packed (s.itable ip).din.extents.1 ∧
    (∀ bn b, (blocksOf (s.itable ip).din.extents.1)[bn]? = some b → bmap ip bn s = .ok b s) ∧
    (bmap ip (blocksOf (s.itable ip).din.extents.1).length s).Sat (NextBlock ip s)
      fun _ _ => True := by
  obtain ⟨dins, h⟩ := reach_pending hi hr
  exact ⟨h.packed_slot hl, fun _ _ hb => bmap_hit hb, bmap_next h hl⟩

instance (s : Fs) : (c : BmapCall) → Decidable (c.Legal s)
  | .beginOp | .endOp | .ilock _ => isTrue trivial
  | .iget _ => inferInstanceAs (Decidable (_ < _))
  | .iupdate _ | .bmap .. | .itrunc _ => inferInstanceAs (Decidable (_ ∧ _))

/-- The file of five bytes is truncated and gets two blocks. -/
theorem bmap_appends_two :
    ∃ s, Arrays.Image smallSb Arrays.fiveDisk ∧
      Trace BmapStep (Fs.boot smallSb Arrays.fiveDisk)
        [.iget 1, .beginOp, .ilock 0, .itrunc 0, .bmap 0 1] s ∧
      blocksOf (s.itable 0).din.extents.1 = [35, 36] ∧
      bmap 0 1 s = .ok 36 s := by
  have hrun : (afterLegal (fun s c => c.Legal s) BmapCall.exec [.iget 1, .beginOp, .ilock 0, .itrunc 0, .bmap 0 1]
      (Fs.boot smallSb Arrays.fiveDisk)).map (fun s =>
        (decide (Locked s 0), blocksOf (s.itable 0).din.extents.1)) = some (true, [35, 36]) := by
    decide +kernel
  obtain ⟨s, hr, hd⟩ := Option.map_eq_some_iff.mp hrun
  obtain ⟨hl, hb⟩ := Prod.mk.inj hd
  have htrace : Trace BmapStep _ _ s := trace_of_afterLegal (fun _ _ _ _ hc hrun => ⟨hc, hrun⟩) hr
  exact ⟨s, Arrays.image_fiveDisk, htrace, hb,
    (bmap_appends Arrays.image_fiveDisk htrace (of_decide_eq_true hl)).2.1 1 36 (by rw [hb]; rfl)⟩

end HaiOS.Appends
