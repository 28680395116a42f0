/-
  File:      HaiOS/Dir/World.lean
  Subject:   THE INODE LAYER AS ITS CALLERS SEE IT: inodes, files, and references to inodes.

  * `World` -- the inodes and the files, the references that are held, and the slots that have
    been read from the disk;
  * `Sees sb w s` -- the state `s` shows the world `w`: every `ref` is the number of references
    held, and every directory cache is right;
  * `iget_sees`, `iunlock_sees`, `iput_sees`, ... -- each routine of the inode layer as a change of
    the world. Only `Resource` panics are left: the callers' references exclude the others.
-/
import HaiOS.Dir.Lookup
import Mathlib.Data.Multiset.AddSub
import Mathlib.Data.Set.Insert

namespace HaiOS

open Lib Function

/-! ## 1. References -/

/-- A reference to an inode: the slot of the inode table, and the inode in it. -/
structure Handle where
  slot : Nat
  inum : Nat
  deriving DecidableEq, Repr

/-- **The table `t` has the references `held`**, and the slots in `read` have been read. -/
structure HeldIn (held : Multiset Handle) (read : Set Nat) (t : Nat → Inode) : Prop where
  refs : ∀ ip, (t ip).ref = held.count ⟨ip, (t ip).inum⟩
  inums : ∀ h ∈ held, (t h.slot).inum = h.inum
  read : ∀ ip ∈ read, 0 < (t ip).ref ∧ (t ip).valid = true

/-- The slots that stay read when the reference `h` is dropped. -/
def stillRead (held : Multiset Handle) (read : Set Nat) (h : Handle) : Set Nat :=
  {ip ∈ read | h ∈ held.erase h ∨ ip ≠ h.slot}

namespace HeldIn

variable {held : Multiset Handle} {read : Set Nat} {t : Nat → Inode} {h h' : Handle} {y : Inode}

theorem count (hh : HeldIn held read t) (hm : h ∈ held) : (t h.slot).ref = held.count h := by
  rw [hh.refs, hh.inums h hm]

theorem ref_pos (hh : HeldIn held read t) (hm : h ∈ held) : 0 < (t h.slot).ref := by
  rw [hh.count hm]
  exact Multiset.count_pos.mpr hm

variable {ip : Nat}

theorem mem (hh : HeldIn held read t) (hr : 0 < (t ip).ref) :
    ⟨ip, (t ip).inum⟩ ∈ held := by
  rw [hh.refs] at hr
  exact Multiset.count_pos.mp hr

theorem eq_of_slot (hh : HeldIn held read t) (hm : h ∈ held) (hm' : h' ∈ held)
    (e : h.slot = h'.slot) : h = h' := by
  have h1 := hh.inums h hm
  have h2 := hh.inums h' hm'
  cases h
  cases h'
  simp only at e h1 h2
  subst e
  rw [← h1, ← h2]

theorem mono {read' : Set Nat} (hh : HeldIn held read t) (hle : read' ⊆ read) : HeldIn held read' t :=
  ⟨hh.refs, hh.inums, fun ip hip => hh.read ip (hle hip)⟩

/-- The slot of a new reference. -/
theorem cons_ne (hne : ip ≠ h.slot) (i : Nat) :
    (h ::ₘ held).count ⟨ip, i⟩ = held.count ⟨ip, i⟩ :=
  Multiset.count_cons_of_ne (fun e => hne (congrArg Handle.slot e)) held

variable (hh : HeldIn held read t)
include hh

/-- A slot keeps its inode and its references. -/
theorem same (hi : y.inum = (t ip).inum) (hr : y.ref = (t ip).ref) (hv : ip ∈ read → y.valid = true) :
    HeldIn held read (update t ip y) := by
  have hat : ∀ jp, (update t ip y jp).inum = (t jp).inum ∧
      (update t ip y jp).ref = (t jp).ref := by
    intro jp
    by_cases hj : jp = ip
    · subst hj
      rw [update_self]
      exact ⟨hi, hr⟩
    · rw [update_of_ne hj]
      exact ⟨rfl, rfl⟩
  refine ⟨fun jp => ?_, fun h hm => ?_, fun jp hjp => ⟨?_, ?_⟩⟩
  · rw [(hat jp).1, (hat jp).2]
    exact hh.refs jp
  · rw [(hat _).1]
    exact hh.inums h hm
  · rw [(hat jp).2]
    exact (hh.read jp hjp).1
  · by_cases hj : jp = ip
    · subst hj
      rw [update_self]
      exact hv hjp
    · rw [update_of_ne hj]
      exact (hh.read jp hjp).2

theorem lock (hr : 0 < (t ip).ref) (hv : (t ip).valid = true) : HeldIn held (insert ip read) t := by
  refine ⟨hh.refs, hh.inums, fun jp hjp => ?_⟩
  rcases Set.mem_insert_iff.mp hjp with rfl | hjp
  · exact ⟨hr, hv⟩
  · exact hh.read jp hjp

/-- `ip->ref++`. -/
theorem dup (hm : h ∈ held) : HeldIn (h ::ₘ held) read (update t h.slot (t h.slot).dup) := by
  refine ⟨fun jp => ?_, fun h' hm' => ?_, fun jp hjp => ?_⟩
  · by_cases hj : jp = h.slot
    · subst hj
      rw [update_self]
      show (t h.slot).ref + 1 = (h ::ₘ held).count ⟨h.slot, (t h.slot).inum⟩
      rw [hh.inums h hm, hh.count hm, Multiset.count_cons_self]
    · rw [update_of_ne hj, cons_ne hj]
      exact hh.refs jp
  · have hi : (update t h.slot (t h.slot).dup h'.slot).inum = (t h'.slot).inum := by
      by_cases hj : h'.slot = h.slot
      · rw [hj, update_self]
        rfl
      · rw [update_of_ne hj]
    rw [hi]
    rcases Multiset.mem_cons.mp hm' with rfl | hm'
    · exact hh.inums h' hm
    · exact hh.inums h' hm'
  · by_cases hj : jp = h.slot
    · subst hj
      rw [update_self]
      exact ⟨Nat.succ_pos _, (hh.read _ hjp).2⟩
    · rw [update_of_ne hj]
      exact hh.read jp hjp

/-- An unused slot is taken. -/
theorem fresh (h0 : (t h.slot).ref = 0) :
    HeldIn (h ::ₘ held) read (update t h.slot ((t h.slot).fresh h.inum)) := by
  -- nobody has a reference to the slot
  have hno : ∀ h' ∈ held, h'.slot ≠ h.slot := fun h' hm e => by
    have := hh.ref_pos hm
    rw [e, h0] at this
    exact Nat.lt_irrefl 0 this
  refine ⟨fun jp => ?_, fun h' hm' => ?_, fun jp hjp => ?_⟩
  · by_cases hj : jp = h.slot
    · subst hj
      rw [update_self]
      show 1 = (h ::ₘ held).count h
      rw [Multiset.count_cons_self, Multiset.count_eq_zero.mpr fun hm => hno h hm rfl]
    · rw [update_of_ne hj, cons_ne hj]
      exact hh.refs jp
  · rcases Multiset.mem_cons.mp hm' with rfl | hm'
    · rw [update_self]
      rfl
    · rw [update_of_ne (hno h' hm')]
      exact hh.inums h' hm'
  · have hj : jp ≠ h.slot := fun e => by
      have := (hh.read jp hjp).1
      rw [e, h0] at this
      exact Nat.lt_irrefl 0 this
    rw [update_of_ne hj]
    exact hh.read jp hjp

/-- `ip->ref--`. -/
theorem drop (hm : h ∈ held) (hi : y.inum = (t h.slot).inum) (hr : y.ref = (t h.slot).ref - 1)
    (hv : h ∈ held.erase h → (t h.slot).valid = true → y.valid = true) :
    HeldIn (held.erase h) (stillRead held read h) (update t h.slot y) := by
  refine ⟨fun jp => ?_, fun h' hm' => ?_, fun jp hjp => ?_⟩
  · by_cases hj : jp = h.slot
    · subst hj
      rw [update_self, hi, hh.inums h hm, hr, hh.count hm]
      exact (Multiset.count_erase_self h held).symm
    · rw [update_of_ne hj,
        Multiset.count_erase_of_ne fun e => hj (congrArg Handle.slot e)]
      exact hh.refs jp
  · have hm2 := Multiset.mem_of_mem_erase hm'
    by_cases hj : h'.slot = h.slot
    · obtain rfl := hh.eq_of_slot hm2 hm hj
      rw [update_self, hi]
      exact hh.inums h' hm
    · rw [update_of_ne hj]
      exact hh.inums h' hm2
  · obtain ⟨hjr, hor⟩ := hjp
    by_cases hj : jp = h.slot
    · have hmore := hor.resolve_right fun hne => hne hj
      subst hj
      rw [update_self]
      refine ⟨?_, hv hmore (hh.read _ hjr).2⟩
      rw [hr, hh.count hm, ← Multiset.count_erase_self h held]
      exact Multiset.count_pos.mpr hmore
    · rw [update_of_ne hj]
      exact hh.read jp hjr

end HeldIn

/-! ## 2. Worlds -/

/-- **The inodes, the files, the references held and the slots read.** -/
structure World where
  dins : Nat → Dinode
  files : Nat → List UInt8
  /-- one element for each reference -/
  held : Multiset Handle
  read : Set Nat

/-- **The state `s` shows the world `w`.** -/
structure Sees (sb : Superblock) (w : World) (s : Fs) : Prop where
  ok : FilesOk All s
  sb : s.sb = sb
  dins : dinodes s = w.dins
  files : file s = w.files
  caches : CachesOk s.itable w.files
  refs : HeldIn w.held w.read s.itable

/-- An inode without contents. -/
def Dinode.truncated (d : Dinode) : Dinode :=
  { d with extents := clearFrom 0 d.extents, size := 0, checksum := 1 }

/-- A free inode. -/
def Dinode.freed (d : Dinode) : Dinode := { d.truncated with type := 0 }

namespace World

/-- A reference is taken. -/
def take (w : World) (h : Handle) : World := { w with held := h ::ₘ w.held }

/-- A slot has been read. -/
def lock (w : World) (ip : Nat) : World := { w with read := insert ip w.read }

/-- The slots in `R` have been read. -/
def seen (w : World) (R : Set Nat) : World := { w with read := R }

/-- A reference is dropped. -/
def drop (w : World) (h : Handle) : World :=
  { w with held := w.held.erase h, read := stillRead w.held w.read h }

/-- An inode has other fields. -/
def setDin (w : World) (i : Nat) (d : Dinode) : World := { w with dins := update w.dins i d }

/-- An inode has other fields and other contents. -/
def setFile (w : World) (i : Nat) (d : Dinode) (l : List UInt8) : World :=
  { w with dins := update w.dins i d, files := update w.files i l }

/-- The reference is the last one, and the inode has no links. -/
def Last (w : World) (h : Handle) : Prop := w.held.count h = 1 ∧ (w.dins h.inum).nlink = 0

instance (w : World) (h : Handle) : Decidable (w.Last h) := inferInstanceAs (Decidable (_ ∧ _))

/-- `iput`. -/
def put (w : World) (h : Handle) : World :=
  if w.Last h then (w.drop h).setFile h.inum (w.dins h.inum).freed [] else w.drop h

end World

/-- Memory may change, but no block. -/
def Frame.unlogged : Frame := ⟨fun _ => False, fun _ => True, True⟩

theorem Frame.le_unlogged {F : Frame} (h : ∀ b, ¬ F.blocks b) : F.Le .unlogged :=
  ⟨fun b hb => (h b hb).elim, fun _ _ => trivial, fun _ => trivial⟩

/-- A panic for want of a resource. -/
def Resource (p : Panic) (_ : Fs) : Prop := resourcePanic p = true

theorem starved_is_resource (p : Panic) (s : Fs) (h : Starved p s) : Resource p s :=
  exhausted_resource (Or.inl h)

section Facts

variable {sb : Superblock} {w : World} {s s' : Fs} {h h' : Handle} {ip : Nat}

section

variable (hs : Sees sb w s)
include hs

theorem Sees.ref_pos (hm : h ∈ w.held) : 0 < (s.itable h.slot).ref :=
  hs.refs.ref_pos hm

theorem Sees.inum (hm : h ∈ w.held) : (s.itable h.slot).inum = h.inum :=
  hs.refs.inums h hm

theorem Sees.inum_lt (hm : h ∈ w.held) : h.inum < sb.ninodes := by
  have := hs.ok.inv.slots.inums h.slot (hs.ref_pos hm)
  rwa [hs.inum hm, hs.sb] at this

theorem Sees.eq_of_inum (hm : h ∈ w.held) (hm' : h' ∈ w.held) (e : h.inum = h'.inum) : h = h' := by
  have hslot := hs.ok.inv.slots.unique h.slot h'.slot (hs.ref_pos hm) (hs.ref_pos hm')
    (by rw [hs.inum hm, hs.inum hm', e])
  exact hs.refs.eq_of_slot hm hm' hslot

theorem Sees.locked (hr : ip ∈ w.read) : Locked s ip := hs.refs.read ip hr

theorem Sees.held_of_read (hr : ip ∈ w.read) : ∃ h ∈ w.held, h.slot = ip :=
  ⟨_, hs.refs.mem (hs.locked hr).1, rfl⟩

theorem Sees.din (hm : h ∈ w.held) (hr : h.slot ∈ w.read) : (s.itable h.slot).din = w.dins h.inum := by
  rw [hs.ok.inv.din_eq (hs.locked hr), hs.inum hm, hs.dins]

theorem Sees.type_ne_zero (hm : h ∈ w.held) (hr : h.slot ∈ w.read) : (w.dins h.inum).type ≠ 0 := by
  rw [← hs.din hm hr]
  exact hs.ok.inv.type_ne_zero (hs.locked hr)

theorem Sees.mono {R : Set Nat} (hle : R ⊆ w.read) : Sees sb (w.seen R) s :=
  ⟨hs.ok, hs.sb, hs.dins, hs.files, hs.caches, hs.refs.mono hle⟩

theorem Sees.full : Sees sb (w.seen {ip | Locked s ip}) s :=
  ⟨hs.ok, hs.sb, hs.dins, hs.files, hs.caches, hs.refs.refs, hs.refs.inums, fun _ h => h⟩

/-- A routine that changes no inode, no file and no slot. -/
theorem Sees.of_same (hsame : Same All s s') (hit : s'.itable = s.itable) : Sees sb w s' :=
  ⟨hsame.ok, hsame.sb.trans hs.sb, hsame.dinodes.trans hs.dins, (hsame.file all_all).trans hs.files,
    by rw [hit]; exact hs.caches, by rw [hit]; exact hs.refs⟩

theorem Sees.becomes (hsame : Same All s s') : Becomes All w.dins w.files s s' := by
  rw [← hs.dins, ← hs.files]
  exact hsame

end

variable {files : Nat → List UInt8}

/-- A routine that changes one slot. -/
theorem Sees.next {dins : Nat → Dinode} {files : Nat → List UInt8} {y : Inode} {held : Multiset Handle}
    {read : Set Nat} (hs : Sees sb w s) (hb : Becomes All dins files s s')
    (hit : s'.itable = update s.itable ip y)
    (hf : ∀ jp, jp ≠ ip → 0 < (s.itable jp).ref →
      files (s.itable jp).inum = w.files (s.itable jp).inum)
    (hy : 0 < y.ref → y.valid = true → y.din.type = T_DIR → CacheOf y (files y.inum))
    (hh : HeldIn held read (update s.itable ip y)) :
    Sees sb ⟨dins, files, held, read⟩ s' :=
  ⟨hb.ok, hb.sb.trans hs.sb, hb.dinodes, hb.file all_all, by rw [hit]; exact hs.caches.set hf hy,
    by rw [hit]; exact hh⟩

theorem Sees.files_free {i : Nat} (hs : Sees sb w s) (h0 : (w.dins i).type = 0) : w.files i = [] := by
  rw [← hs.files, file, if_pos]
  rw [hs.dins]
  exact h0

/-- The other slots have other inodes. -/
theorem Sees.other_file {l : List UInt8} (hs : Sees sb w s) (hm : h ∈ w.held)
    (hfiles : files = update w.files h.inum l) :
    ∀ jp, jp ≠ h.slot → 0 < (s.itable jp).ref →
      files (s.itable jp).inum = w.files (s.itable jp).inum := by
  intro jp hj hr
  have hne := hs.ok.inv.slots.ne_inum (hs.ref_pos hm) jp hj hr
  rw [hs.inum hm] at hne
  rw [hfiles, update_of_ne hne]

end Facts

/-! ## 3. Rules -/

section Rules

variable {sb : Superblock} {w : World} {s : Fs} {h : Handle} {i : Nat}

theorem beginOp_sees (hs : Sees sb w s) : (beginOp s).Sat (fun _ s' => Sees sb w s') Resource := by
  refine (beginOp_inv hs.ok.inv).imp fun _ s' hq => ?_
  obtain ⟨hinv, k, rfl⟩ := hq
  exact hs.of_same (hs.ok.same hinv rfl rfl fun _ _ _ => rfl) rfl

theorem endOp_sees (hs : Sees sb w s) : (endOp s).Sat (fun _ s' => Sees sb w s') Resource :=
  (endOp_file (fun _ _ hp => hp) hs.ok).imp fun _ _ hq => hs.of_same hq.2 hq.1.itable

/-- The reference is one to the slot `iget` takes. -/
theorem HeldIn.got {held : Multiset Handle} {read : Set Nat} {t : Nat → Inode} {ip : Nat}
    (hh : HeldIn held read t) (hslot : igetSlot t i = some ip) :
    HeldIn (⟨ip, i⟩ ::ₘ held) read (update t ip ((t ip).got i)) := by
  unfold Inode.got
  rcases (igetSlot_some hslot).2 with ⟨hr, rfl⟩ | ⟨h0, -⟩
  · rw [if_pos hr]
    exact hh.dup (hh.mem hr)
  · rw [if_neg (by omega)]
    exact hh.fresh (h := ⟨ip, i⟩) h0

/-- `iget` does not touch a cache that counts. -/
theorem CachesOk.got {t : Nat → Inode} {files : Nat → List UInt8} (hc : CachesOk t files) {ip : Nat} :
    0 < ((t ip).got i).ref → ((t ip).got i).valid = true → ((t ip).got i).din.type = T_DIR →
      CacheOf ((t ip).got i) (files ((t ip).got i).inum) := by
  unfold Inode.got
  split
  · rename_i hr
    exact fun _ hv ht => hc ip hr hv ht
  · exact fun _ hv => by cases hv

variable {P : Panic → Fs → Prop}

/-- **`iget`** takes a reference, if there is a slot for the inode. -/
theorem iget_sees (hs : Sees sb w s) (hi : i < sb.ninodes)
    (hfull : igetSlot s.itable i = none → P .igetNoInodes s) :
    (iget i s).Runs (Touch All .unlogged) P s fun ip s' => Sees sb (w.take ⟨ip, i⟩) s' := by
  refine (iget_runs (fun _ _ => trivial) hfull).imp fun ip s' _ hq => ?_
  obtain ⟨hslot, rfl⟩ := hq
  have hinv := hs.ok.inv.setSlot (hs.ok.inv.slots.get hslot (by rw [hs.sb]; exact hi))
  exact hs.next (hs.becomes (hs.ok.same hinv rfl rfl fun _ _ _ => rfl)) rfl (fun _ _ _ => rfl)
    hs.caches.got (hs.refs.got hslot)

/-- **`idup`** takes another one. -/
theorem idup_sees (hs : Sees sb w s) (hm : h ∈ w.held) :
    (idup h.slot s).Sat (fun ip s' => ip = h.slot ∧ Sees sb (w.take h) s') Resource := by
  have hrun : idup h.slot s = .ok h.slot (s.setSlot h.slot (s.itable h.slot).dup) := rfl
  obtain ⟨ht, hinv, -⟩ := (idup_inv (P := Resource) hs.ok.inv (hs.ref_pos hm)).of_ok hrun
  have hsame := hs.ok.still ht (fun _ hf => hf) hinv
  rw [hrun]
  exact ⟨rfl, hs.next (hs.becomes hsame) rfl (fun _ _ _ => rfl)
    (fun _ hv hd => hs.caches _ (hs.ref_pos hm) hv hd) (hs.refs.dup hm)⟩

/-- **`ilock`** reads the inode, if it is allocated. -/
theorem ilock_reads {P : Panic → Fs → Prop} (hP : ∀ p s, Exhausted p s → P p s)
    (hs : Sees sb w s) (hm : h ∈ w.held)
    (ht : (w.dins h.inum).type = 0 → ∀ s', P .ilockNoType s') :
    (ilock h.slot s).Runs (Touch All .unlogged) P s fun _ s' => Sees sb (w.lock h.slot) s' := by
  have hr := hs.ref_pos hm
  refine ((ilock_file hP hs.ok (fun h0 => absurd hr (by omega)) fun _ h0 => ht ?_).mono
    (fun _ hto => hto.mono (Frame.le_unlogged fun _ hb => hb)) fun _ _ hp => hp).imp fun _ s' _ hq => ?_
  · rwa [hs.inum hm, hs.dins] at h0
  obtain ⟨hsame, hl, hit⟩ := hq
  have hy : ∀ d, ((s.itable h.slot).locked d).inum = (s.itable h.slot).inum ∧
      ((s.itable h.slot).locked d).ref = (s.itable h.slot).ref ∧
      ((s.itable h.slot).locked d).valid = true := by
    intro d
    unfold Inode.locked
    split
    · exact ⟨rfl, rfl, ‹_›⟩
    · exact ⟨rfl, rfl, rfl⟩
  have hn := hs.next (hs.becomes hsame) hit (fun _ _ _ => rfl) (fun _ hv hd => ?_)
    (hs.refs.same (hy _).1 (hy _).2.1 fun _ => (hy _).2.2)
  · exact ⟨hn.ok, hn.sb, hn.dins, hn.files, hn.caches, hn.refs.lock hl.1 hl.2⟩
  · rw [(hy _).1]
    unfold Inode.locked at hv hd ⊢
    split
    · rename_i hval
      rw [if_pos hval] at hv hd
      exact hs.caches _ hr hv hd
    · exact cacheOf_reset rfl

/-- **`iunlock`** does nothing to the world. -/
theorem iunlock_sees (hs : Sees sb w s) (hm : h ∈ w.held) :
    (iunlock h.slot s).Sat (fun _ s' => s' = s) Resource := by
  have hr := hs.ref_pos hm
  exact (iunlock_inv hs.ok.inv fun h0 => absurd hr (by omega)).sat.imp fun _ _ hq => hq.2.1

/-- **`iput`** drops a reference; the last one to an inode without links frees it, if it has been
    read. -/
theorem iput_cases (hs : Sees sb w s) (hm : h ∈ w.held) :
    (iput h.slot s).Sat (fun _ s' =>
      (w.Last h ∧ (s.itable h.slot).valid = true ∧
        Sees sb ((w.drop h).setFile h.inum (w.dins h.inum).freed []) s') ∨
      (¬ (w.Last h ∧ (s.itable h.slot).valid = true) ∧ Sees sb (w.drop h) s')) Resource := by
  have hr := hs.ref_pos hm
  have hcount := hs.refs.count hm
  have hdin : (s.itable h.slot).valid = true → (s.itable h.slot).din = w.dins h.inum := fun hv => by
    rw [hs.ok.inv.din_eq ⟨hr, hv⟩, hs.inum hm, hs.dins]
  -- the code tests the fields in memory
  have hiff : (s.itable h.slot).last ↔ w.Last h ∧ (s.itable h.slot).valid = true := by
    unfold Inode.last World.Last
    rw [hcount]
    refine ⟨fun hl => ⟨⟨hl.1, ?_⟩, hl.2.1⟩, fun hl => ⟨hl.1.1, hl.2, ?_⟩⟩
    · rw [← hdin hl.2.1]
      exact hl.2.2
    · rw [hdin hl.2]
      exact hl.1.2
  refine (iput_file (fun _ _ hp => hp) hs.ok).sat.imp fun _ s' hq => ?_
  rcases hq.2 with ⟨hl, hit, hb⟩ | ⟨hl, rfl, hsame⟩
  · obtain ⟨hwl, hv⟩ := hiff.mp hl
    have hfreed : (s.itable h.slot).freed.din = (w.dins h.inum).freed := by
      rw [← hdin hv]
      rfl
    rw [hfreed, hs.inum hm, hs.dins, hs.files] at hb
    refine Or.inl ⟨hwl, hv, hs.next hb hit (hs.other_file hm rfl) (fun _ hv => by cases hv)
      (hs.refs.drop hm rfl rfl fun hmore => ?_)⟩
    have := Multiset.count_pos.mpr hmore
    rw [Multiset.count_erase_self, hwl.1] at this
    exact absurd this (Nat.lt_irrefl 0)
  · exact Or.inr ⟨fun hwl => hl (hiff.mpr hwl), hs.next (hs.becomes hsame) rfl (fun _ _ _ => rfl)
      (fun _ hv hd => hs.caches _ hr hv hd) (hs.refs.drop hm rfl rfl fun _ hv => hv)⟩

/-- **`iput`**, when an inode without links has been read. -/
theorem iput_sees (hs : Sees sb w s) (hm : h ∈ w.held) (hlast : w.Last h → h.slot ∈ w.read) :
    (iput h.slot s).Sat (fun _ s' => Sees sb (w.put h) s') Resource := by
  refine (iput_cases hs hm).imp fun _ s' hq => ?_
  unfold World.put
  rcases hq with ⟨hl, -, h'⟩ | ⟨hn, h'⟩
  · rw [if_pos hl]
    exact h'
  · rw [if_neg fun hl => hn ⟨hl, (hs.locked (hlast hl)).2⟩]
    exact h'

/-- **`ialloc`** takes the first free inode. -/
theorem ialloc_sees {type : Int16} (hs : Sees sb w s) :
    (ialloc type s).Sat (fun r s' => match r with
      | none => (∀ i, 1 ≤ i → i < sb.ninodes → (w.dins i).type ≠ 0) ∧ Sees sb w s'
      | some ip => ∃ i, 1 ≤ i ∧ i < sb.ninodes ∧ (w.dins i).type = 0 ∧
          Sees sb ((w.take ⟨ip, i⟩).setDin i (Dinode.fresh type)) s') Resource := by
  refine (ialloc_file (fun _ _ hp => hp) hs.ok).sat.imp fun r s' hq => ?_
  obtain ⟨-, hq⟩ := hq
  cases hf : freeInum s with
  | none =>
    rw [hf] at hq
    obtain ⟨rfl, hit, hsame⟩ := hq
    refine ⟨fun i h1 h2 h0 => ?_, hs.of_same hsame hit⟩
    have := List.find?_eq_none.mp hf i (List.mem_range'_1.mpr ⟨h1, by rw [hs.sb]; omega⟩)
    rw [hs.dins] at this
    simp [h0] at this
  | some i =>
    rw [hf] at hq
    obtain ⟨ip, rfl, hslot, hit, hb⟩ := hq
    obtain ⟨h1, h2, h0⟩ := freeInum_some hf
    rw [hs.dins] at h0 hb
    rw [hs.files] at hb
    exact ⟨i, h1, by rw [← hs.sb]; exact h2, h0,
      hs.next hb hit (fun _ _ _ => rfl) hs.caches.got (hs.refs.got hslot)⟩

/-- **Assign to fields of the inode, then `iupdate`.** -/
theorem amend_sees {f : Dinode → Dinode} (hf : Dinode.Amends f) (hs : Sees sb w s) (hm : h ∈ w.held)
    (hr : h.slot ∈ w.read) :
    (amend h.slot f s).Sat (fun _ s' => Sees sb (w.setDin h.inum (f (w.dins h.inum))) s') Resource := by
  refine (amend_file (fun _ _ hp => hp) hf hs.ok (hs.locked hr)).sat.imp fun _ s' hq => ?_
  obtain ⟨-, -, hit, hb⟩ := hq
  have hdin := hs.din hm hr
  rw [hdin, hs.inum hm, hs.dins, hs.files] at hb
  refine hs.next hb hit (fun _ _ _ => rfl) (fun _ _ hd => ?_)
    (hs.refs.same rfl rfl fun _ => (hs.locked hr).2)
  have hc := hs.caches _ (hs.ref_pos hm) (hs.locked hr).2 (by rw [← hf.type]; exact hd)
  intro hv hsz
  exact hc hv (by rw [← hf.size]; exact hsz)

/-- **`itrunc`** empties the file. -/
theorem itrunc_sees (hs : Sees sb w s) (hm : h ∈ w.held) (hr : h.slot ∈ w.read) :
    (itrunc h.slot s).Sat
      (fun _ s' => Sees sb (w.setFile h.inum (w.dins h.inum).truncated []) s') Resource := by
  refine (itrunc_file (fun _ _ hp => hp) hs.ok (hs.locked hr)).sat.imp fun _ s' hq => ?_
  obtain ⟨-, -, hit, hb⟩ := hq
  have hdin : (s.itable h.slot).truncated.din = (w.dins h.inum).truncated := by
    rw [← hs.din hm hr]
    rfl
  rw [hdin, hs.inum hm, hs.dins, hs.files] at hb
  exact hs.next hb hit (hs.other_file hm rfl) (fun _ _ _ => cacheOf_reset rfl)
    (hs.refs.same rfl rfl fun _ => (hs.locked hr).2)

end Rules

end HaiOS
