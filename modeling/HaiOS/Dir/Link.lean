/-
  File:      HaiOS/Dir/Link.lean
  Subject:   DIRECTORIES IN THE WORLD: dirlookup, dirlink, isdirempty and the clearing of an entry,
             as changes of the world.

  * `OpenDir sb w h` -- `h` is a reference to a directory that has been read, whose entries name
    inodes of the disk.
-/
import HaiOS.Dir.World
import HaiOS.Fs.Arrays

namespace HaiOS

open Lib Function

/-! ## 1. Scans -/

section Scan

variable {name : List UInt8} {l : List Dirent} {i off k : Nat}

theorem scanFrom_some (h : scanFrom name k l = some (i, off)) :
    ∃ j e, l[j]? = some e ∧ e.hasName name = true ∧ i = e.inum.toNat ∧ off = DIRENT_SIZE * (k + j) := by
  induction l generalizing k with
  | nil => cases h
  | cons e l ih =>
    rw [scanFrom] at h
    split at h
    · rename_i hn
      cases h
      exact ⟨0, e, rfl, hn, rfl, rfl⟩
    · obtain ⟨j, e', hj, hn, hi, ho⟩ := ih h
      exact ⟨j + 1, e', hj, hn, hi, by rw [ho]; congr 1; omega⟩

/-- **A scan that finds something** finds a live entry with the name. -/
theorem scan_some (h : scan name l = some (i, off)) :
    ∃ j e, l[j]? = some e ∧ e.hasName name = true ∧ i = e.inum.toNat ∧ off = DIRENT_SIZE * j := by
  obtain ⟨j, e, hj, hn, hi, ho⟩ := scanFrom_some h
  exact ⟨j, e, hj, hn, hi, by rw [ho, Nat.zero_add]⟩

theorem Dirent.hasName_iff {e : Dirent} :
    e.hasName name = true ↔ e.live = true ∧ cname name = cname e.name := by
  rw [Dirent.hasName, Bool.and_eq_true, decide_eq_true_eq, namecmp_eq_zero]

end Scan

/-! ## 2. Dropping what was taken -/

/-- Only slots with a reference count as read. -/
def World.Closed (w : World) : Prop := ∀ ip ∈ w.read, ∃ h ∈ w.held, h.slot = ip

section Back

variable {sb : Superblock} {w : World} {s : Fs} {h : Handle}

theorem World.Closed.take (hw : w.Closed) (h : Handle) : (w.take h).Closed := fun ip hr =>
  (hw ip hr).imp fun _ hm => ⟨Multiset.mem_cons_of_mem hm.1, hm.2⟩

theorem World.Closed.lock (hw : w.Closed) (h : Handle) : ((w.take h).lock h.slot).Closed :=
  fun ip hr => by
    rcases Set.mem_insert_iff.mp hr with rfl | hr
    · exact ⟨h, Multiset.mem_cons_self _ _, rfl⟩
    · exact hw.take h ip hr

theorem Sees.closed (hs : Sees sb w s) : w.Closed := fun _ hr => hs.held_of_read hr

/-- Dropping a new reference to `h` frees nothing: there is another one or a link, or the inode is
    free already. -/
def World.Kept (w : World) (h : Handle) : Prop :=
  h ∈ w.held ∨ (w.dins h.inum).nlink ≠ 0 ∨ (w.dins h.inum).type = 0

theorem World.Kept.not_last {R : Set Nat} (hk : w.Kept h) (hs : Sees sb ((w.take h).seen R) s) :
    ¬ (s.itable h.slot).last := fun hl => by
  have hm : h ∈ h ::ₘ w.held := Multiset.mem_cons_self h w.held
  have hlock : Locked s h.slot := ⟨hs.ref_pos hm, hl.2.1⟩
  have hdin : (s.itable h.slot).din = w.dins h.inum := by
    rw [hs.ok.inv.din_eq hlock, hs.inum hm, hs.dins]
    rfl
  rcases hk with hin | hne | h0
  · have h1 : (h ::ₘ w.held).count h = 1 := (hs.refs.count hm).symm.trans hl.1
    have h2 := Multiset.count_pos.mpr hin
    rw [Multiset.count_cons_self] at h1
    omega
  · exact hne (hdin ▸ hl.2.2)
  · exact hs.ok.inv.type_ne_zero hlock (hdin ▸ h0)

/-- **A reference is dropped that was taken before**, and the world is as it was. -/
theorem iput_back {R : Set Nat} (hw : w.Closed) (hs : Sees sb ((w.take h).seen R) s)
    (hR : w.read ⊆ R) (hk : w.Kept h) :
    (iput h.slot s).Sat (fun _ s' => Sees sb w s') Resource := by
  have hm : h ∈ h ::ₘ w.held := Multiset.mem_cons_self h w.held
  refine (iput_cases hs hm).imp fun _ s' hq => ?_
  rcases hq with ⟨hl, hv, -⟩ | ⟨-, hq⟩
  · have hdin : (s.itable h.slot).din = w.dins h.inum := by
      rw [hs.ok.inv.din_eq ⟨hs.ref_pos hm, hv⟩, hs.inum hm, hs.dins]
      rfl
    exact absurd ⟨(hs.refs.count hm).trans hl.1, hv, hdin ▸ hl.2⟩ (hk.not_last hs)
  have herase : (h ::ₘ w.held).erase h = w.held := Multiset.erase_cons_head h w.held
  have hdrop : ((w.take h).seen R).drop h = w.seen (stillRead (h ::ₘ w.held) R h) := by
    show World.mk _ _ ((h ::ₘ w.held).erase h) _ = _
    rw [herase]
    rfl
  rw [hdrop] at hq
  refine hq.mono fun ip hip => ⟨hR hip, ?_⟩
  rw [herase]
  by_cases he : ip = h.slot
  · obtain ⟨h', hm', hslot⟩ := hw ip hip
    rw [hs.refs.eq_of_slot hm (Multiset.mem_cons_of_mem hm') (he.symm.trans hslot.symm)]
    exact Or.inl hm'
  · exact Or.inr he

theorem World.dins_setDin (w : World) (i : Nat) (d : Dinode) : (w.setDin i d).dins i = d :=
  update_self ..

theorem World.dins_setDin_ne (w : World) {i j : Nat} (d : Dinode) (hj : j ≠ i) :
    (w.setDin i d).dins j = w.dins j :=
  update_of_ne hj ..

@[simp] theorem World.setDin_self (w : World) (i : Nat) : w.setDin i (w.dins i) = w := by
  rw [World.setDin, update_eq_self]

end Back

/-! ## 3. Rules -/

/-- **A reference to a directory that has been read.** -/
structure OpenDir (sb : Superblock) (w : World) (h : Handle) : Prop where
  held : h ∈ w.held
  read : h.slot ∈ w.read
  type : (w.dins h.inum).type = T_DIR
  aligned : Aligned (w.files h.inum)
  inums : ∀ e ∈ dirents (w.files h.inum), e.live = true → e.inum.toNat < sb.ninodes

/-- The inode after a write to the directory. -/
structure Dinode.Linked (d d' : Dinode) : Prop where
  type : d'.type = d.type
  nlink : d'.nlink = d.nlink

/-- The same inode, but for the checksum. -/
structure Dinode.Resummed (d d' : Dinode) : Prop extends Dinode.Linked d d' where
  size : d'.size = d.size
  extents : d'.extents = d.extents

theorem Dinode.Resummed.refl (d : Dinode) : d.Resummed d := ⟨⟨rfl, rfl⟩, rfl, rfl⟩

section Rules

variable {sb : Superblock} {w : World} {s s' : Fs} {h : Handle} {name : List UInt8}

section

variable (hs : Sees sb w s) (hd : OpenDir sb w h)
include hs hd

theorem Sees.dirAt : DirAt h.slot (s.itable h.slot) (w.files h.inum) s :=
  ⟨hs.ok, rfl, hs.ref_pos hd.held, (hs.locked hd.read).2,
    by rw [hs.inum hd.held, hs.files], hd.aligned⟩

/-- Reading a directory changes at most its cache. -/
theorem Sees.dirRead (hr : DirRead h.slot s s')
    (hc : CacheOf (s'.itable h.slot) (w.files h.inum)) : Sees sb w s' := by
  refine hs.next (hs.becomes hr.same) hr.itable (fun _ _ _ => rfl) (fun _ _ _ => ?_)
    (hs.refs.same rfl rfl fun _ => (hs.locked hd.read).2)
  show CacheOf _ (w.files (s.itable h.slot).inum)
  rw [hs.inum hd.held]
  have hx : s'.itable h.slot = (s.itable h.slot).recache (s'.itable h.slot).cache := by
    conv_lhs => rw [hr.itable, update_self]
  rw [← hx]
  exact hc

theorem Sees.cacheOf : CacheOf (s.itable h.slot) (w.files h.inum) := by
  have hdin := hs.din hd.held hd.read
  have := hs.caches h.slot (hs.ref_pos hd.held) (hs.locked hd.read).2 (by rw [hdin]; exact hd.type)
  rwa [hs.inum hd.held] at this

end

/-- **`dirlookup`** finds what a scan finds, and takes a reference to it. -/
theorem dirlookup_sees {P : Panic → Fs → Prop} (hP : ∀ p s, Starved p s → P p s) (hs : Sees sb w s)
    (hd : OpenDir sb w h) (hfull : ∀ i off s1, scan name (dirents (w.files h.inum)) = some (i, off) →
      Sees sb w s1 → igetSlot s1.itable i = none → P .igetNoInodes s1) :
    (dirlookup h.slot name s).Runs (Touch All .unlogged) P s fun r s' =>
      match scan name (dirents (w.files h.inum)) with
      | none => r = none ∧ Sees sb w s'
      | some (i, off) => ∃ ip, r = some (ip, off) ∧ Sees sb (w.take ⟨ip, i⟩) s' := by
  have hdin := hs.din hd.held hd.read
  simp only [dirlookup, inode, Routine.gets_bind]
  rw [if_neg fun hne => hne (by rw [hdin]; exact hd.type)]
  refine touch_bind (Frame.le_unlogged fun _ hb => hb) (dirfind_runs hP (hs.dirAt hd) (hs.cacheOf hd))
    fun r s1 _ hq => ?_
  obtain ⟨rfl, c, hat, hread, hc⟩ := hq
  have h1 := hs.dirRead hd hread (by rw [hat.slot]; exact hc)
  cases hsc : scan name (dirents (w.files h.inum)) with
  | none => exact touch_pure ⟨rfl, h1⟩
  | some r =>
    obtain ⟨i, off⟩ := r
    obtain ⟨j, e, hj, hn, rfl, -⟩ := scan_some hsc
    have hi := hd.inums e (List.mem_of_getElem? hj) (Dirent.hasName_iff.mp hn).1
    exact touch_bind (Frame.Le.refl _) (iget_sees h1 hi (hfull _ off s1 hsc h1)) fun ip s2 _ hq =>
      touch_pure ⟨ip, rfl, hq⟩

/-- The same, with any want of a resource. -/
theorem dirlookup_resource (hs : Sees sb w s) (hd : OpenDir sb w h) :
    (dirlookup h.slot name s).Sat (fun r s' =>
      match scan name (dirents (w.files h.inum)) with
      | none => r = none ∧ Sees sb w s'
      | some (i, off) => ∃ ip, r = some (ip, off) ∧ Sees sb (w.take ⟨ip, i⟩) s') Resource :=
  (dirlookup_sees starved_is_resource hs hd fun _ _ _ _ _ _ => rfl).sat.imp fun _ _ hq => hq.2

/-- **`isdirempty`** looks at the entries from the third on. -/
theorem isdirempty_sees (hs : Sees sb w s) (hd : OpenDir sb w h) :
    (isdirempty h.slot s).Sat (fun r s' =>
      (r = true ↔ ∀ e ∈ (dirents (w.files h.inum)).drop 2, e.live = false) ∧ Sees sb w s') Resource := by
  refine (isdirempty_runs starved_is_resource (hs.dirAt hd)).sat.imp fun r s' hq => ?_
  exact ⟨hq.2.1, hs.of_same hq.2.2.read.same hq.2.2.itable⟩

theorem Dirent.slice_src {de : Dirent} (hde : de.name.length = DIRSIZ) :
    slice de.src.bytes 0 DIRENT_SIZE = de.bytes := by
  have hlen := Dirent.length_bytes hde
  apply List.ext_getElem
  · rw [length_slice, hlen]
  · intro k h1 h2
    rw [getElem_slice, Nat.zero_add]
    show de.bytes.getD k 0 = _
    rw [List.getD_eq_getElem?_getD, List.getElem?_eq_getElem h2]
    rfl

/-- **A write of one entry is planned**: it is made, or there is no block for it and nothing
    changes. -/
theorem entry_planned {size off k : Nat} {used : Nat → Bool} {es es' : Extents} {new : List Nat}
    (hp : Planned (growTo size used es (off + DIRENT_SIZE)) DIRENT_SIZE new es' k)
    (hal : off % DIRENT_SIZE = 0) (hoff : off ≤ BSIZE * (blocksOf es.1).length)
    (hcov : off + k ≤ BSIZE * (blocksOf es'.1).length) :
    k = DIRENT_SIZE ∨ (k = 0 ∧ es' = es ∧ BSIZE * (blocksOf es.1).length = off) := by
  by_cases hfit : off + DIRENT_SIZE ≤ BSIZE * (blocksOf es.1).length
  · rw [growTo_covered hfit] at hp
    exact Or.inl (hp.done rfl)
  · have hend : BSIZE * (blocksOf es.1).length = off := by
      simp only [DIRENT_SIZE, BSIZE] at *
      omega
    have h1 : needed (off + DIRENT_SIZE) (blocksOf es.1).length = 1 := by
      unfold needed
      simp only [DIRENT_SIZE, BSIZE] at *
      omega
    rw [growTo, h1] at hp
    rcases grow_succ size 0 used es with ⟨-, hg⟩ | ⟨b, -, -, hg⟩ | ⟨b, es1, -, -, hg⟩
    · rw [hg] at hp
      have hes : es' = es := hp.es
      rw [hes, hend] at hcov
      exact Or.inr ⟨by omega, hes, hend⟩
    · rw [hg] at hp
      exact absurd rfl hp.stop
    · rw [hg] at hp
      exact Or.inl (hp.done rfl)

/-- **An entry is written**; only a new entry at the end can fail. -/
theorem putDirent_sees {de : Dirent} {k : Nat} (hs : Sees sb w s) (hd : OpenDir sb w h)
    (hde : de.name.length = DIRSIZ) (hk : k ≤ (dirents (w.files h.inum)).length) :
    (putDirent h.slot de (DIRENT_SIZE * k) s).Sat (fun r s' =>
      (r = true ∧ ∃ d', (w.dins h.inum).Linked d' ∧ Sees sb (w.setFile h.inum d'
        (overwrite (w.files h.inum) (DIRENT_SIZE * k) de.bytes)) s') ∨
      (r = false ∧ k = (dirents (w.files h.inum)).length ∧ ∃ d', (w.dins h.inum).Resummed d' ∧
        Sees sb (w.setDin h.inum d') s')) Resource := by
  have hat := hs.dirAt hd
  have hl := hs.locked hd.read
  have hdin := hs.din hd.held hd.read
  have hsize : (w.dins h.inum).size.toNat = (w.files h.inum).length := by
    rw [← hdin]
    exact hat.size
  have hsmall := hat.small
  obtain ⟨hle, hoff⟩ := hat.off hk
  have h16 : (16 : UInt32).toNat = DIRENT_SIZE := rfl
  refine Outcome.Sat.bind (writei_file (fun _ _ hp => hp) hs.ok hl (Or.inr fun _ e => by cases e)).sat
    fun r s1 hq => ?_
  obtain ⟨-, ⟨hno, rfl, rfl⟩ | ⟨-, n, new, y, rfl, hw, -, hb⟩⟩ := hq
  · -- the directory has its largest size
    refine Or.inr ⟨rfl, ?_, _, .refl _, by rw [World.setDin_self]; exact hs⟩
    by_contra hne
    refine hno ((Arrays.writable_iff hs.ok hl _ _).mp ⟨?_, ?_⟩)
    · rw [hs.inum hd.held, hs.files, hoff]
      exact hle
    · rw [hoff, h16]
      rw [length_dirents] at hk hne
      simp only [DIRENT_SIZE, MAXFILE, BSIZE] at *
      omega
  · have hcov := (hs.ok.sound_eq hl).covered
    have hy := hw.sound.covered
    rw [hw.size] at hy
    have hplan := hw.planned fun _ e => by cases e
    rw [hoff, h16] at hplan
    rw [hoff] at hy
    rw [hdin, hsize] at hcov hy
    have hends := entry_planned hplan (Nat.mul_mod_right _ _)
      (by rw [hdin]; omega) (by omega)
    rw [hs.inum hd.held, hs.dins, hs.files, hoff] at hb
    have hkept := hw.kept
    have hnext : Sees sb (w.setFile h.inum y.din (overwrite (w.files h.inum) (DIRENT_SIZE * k)
        (slice de.src.bytes 0 n))) s1 :=
      hs.next hb hw.upd.itable (hs.other_file hd.held rfl)
        (fun _ _ _ => cacheOf_reset (c := (s.itable h.slot).cache) (by
          rw [hw.cache, if_pos (by rw [hdin]; exact hd.type)]))
        (hs.refs.same hkept.inum hkept.ref fun _ => by rw [hkept.valid]; exact hl.2)
    have hlink : (w.dins h.inum).Linked y.din := by
      rw [← hdin]
      exact ⟨hkept.type, hkept.nlink⟩
    rcases hends with rfl | ⟨rfl, hes, hend⟩
    · rw [Dirent.slice_src hde] at hnext
      exact Or.inl ⟨rfl, y.din, hlink, hnext⟩
    · rw [slice_zero, overwrite_nil] at hnext
      have hsame : w.setFile h.inum y.din (w.files h.inum) = w.setDin h.inum y.din := by
        rw [World.setFile, update_eq_self]
        rfl
      rw [hsame] at hnext
      rw [hdin] at hend hes
      refine Or.inr ⟨rfl, ?_, y.din, ⟨hlink, ?_, hes⟩, hnext⟩
      · rw [length_dirents]
        rw [length_dirents] at hk
        simp only [DIRENT_SIZE] at *
        omega
      · apply UInt32.toNat_inj.mp
        have := hw.size
        rw [hdin, hoff, hsize, Nat.add_zero, Nat.max_eq_left hle] at this
        rw [this, hsize]

/-- The entry that `dirlink` writes. -/
def newDirent (name : List UInt8) (inum : Nat) : Dirent := ⟨UInt16.ofNat inum, strncpy name DIRSIZ⟩

/-- **The name is not there**: a new entry is written over a free one or at the end, unless there
    is no block for it. -/
theorem dirlinkNew_sees {inum : Nat} (hs : Sees sb w s) (hd : OpenDir sb w h) :
    (dirlinkNew h.slot name inum s).Sat (fun r s' =>
      (r = -1 ∧ ∃ d', (w.dins h.inum).Resummed d' ∧ Sees sb (w.setDin h.inum d') s') ∨
      (r = 0 ∧ ∃ d' k, (w.dins h.inum).Linked d' ∧ k ≤ (dirents (w.files h.inum)).length ∧
        (∀ e, (dirents (w.files h.inum))[k]? = some e → e.live = false) ∧
        Sees sb (w.setFile h.inum d'
          (overwrite (w.files h.inum) (DIRENT_SIZE * k) (newDirent name inum).bytes)) s')) Resource := by
  have hat := hs.dirAt hd
  simp only [dirlinkNew, inode, Routine.gets_bind]
  refine Outcome.Sat.bind (emptySpot_runs starved_is_resource (k := 0) hat (Nat.zero_le _) hat.fuel).sat
    fun off s1 hq => ?_
  obtain ⟨-, ⟨k, rfl, hk, hfree⟩, hread⟩ := hq
  have h1 := hs.of_same hread.read.same hread.itable
  refine (putDirent_sees h1 hd (length_strncpy _ _) hk).bind fun done s2 hq2 => ?_
  rcases hq2 with ⟨rfl, d', hlink, h2⟩ | ⟨rfl, -, d', hsum, h2⟩
  · exact Or.inr ⟨rfl, d', k, hlink, hk, hfree, h2⟩
  · exact Or.inl ⟨rfl, d', hsum, h2⟩

end Rules

end HaiOS
