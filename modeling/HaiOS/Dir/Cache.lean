/-
  File:      HaiOS/Dir/Cache.lean
  Subject:   THE DIRECTORY CACHE IS TRANSPARENT.

  The inode layer as a machine: references are taken and dropped, inodes are locked (and read again
  when their slot has been reused), allocated, freed and truncated, names are looked up, linked and
  cleared, in any order and on any inodes.

  * `DirsOk` -- directories consist of entries that name inodes of the disk;
  * `exec_ok` -- what every call keeps: the state shows a world, with every cache right;
  * `dirlookup_transparent` -- so `dirlookup` always answers as the plain scan.
-/
import HaiOS.Dir.Link

namespace HaiOS.Cache

open Lib Function

/-! ## 1. The machine -/

inductive DirCall where
  | beginOp
  | endOp
  | iget (inum : Nat)
  | idup (ip : Nat)
  | ialloc (type : Int16)
  | ilock (ip : Nat)
  | iunlock (ip : Nat)
  | iput (ip : Nat)
  /-- `ip->major = ...; ip->minor = ...; ip->nlink = ...; iupdate(ip)` -/
  | amend (ip : Nat) (major minor nlink : Int16)
  | itrunc (ip : Nat)
  | dirlookup (dp : Nat) (name : List UInt8)
  | dirlink (dp : Nat) (name : List UInt8) (inum : Nat)
  /-- `sys_unlink`: look the name up and clear its entry -/
  | unlink (dp : Nat) (name : List UInt8)

/-- `memset(&de, 0, sizeof(de)); if(writei(dp, 0, (uint64)&de, off, sizeof(de)) != sizeof(de))
    panic("unlink: writei");` -/
def clearDirent (dp off : Nat) : FsM Unit := do
  let done ← putDirent dp .zero off
  if done then pure () else Routine.stop .unlinkWritei

/-- The lookup and the clearing in `sys_unlink`. The reference to the inode found is kept. -/
def unlinkName (dp : Nat) (name : List UInt8) : FsM Unit := do
  let r ← HaiOS.dirlookup dp name
  match r with
  | some (_, off) => clearDirent dp off
  | none => pure ()

def DirCall.exec : DirCall → FsM Unit
  | .beginOp => do
    let _ ← HaiOS.beginOp
    pure ()
  | .endOp => HaiOS.endOp
  | .iget inum => do
    let _ ← HaiOS.iget inum
    pure ()
  | .idup ip => do
    let _ ← HaiOS.idup ip
    pure ()
  | .ialloc type => do
    let _ ← HaiOS.ialloc type
    pure ()
  | .ilock ip => HaiOS.ilock ip
  | .iunlock ip => HaiOS.iunlock ip
  | .iput ip => HaiOS.iput ip
  | .amend ip major minor nlink => HaiOS.amend ip (links major minor nlink)
  | .itrunc ip => HaiOS.itrunc ip
  | .dirlookup dp name => do
    let _ ← HaiOS.dirlookup dp name
    pure ()
  | .dirlink dp name inum => do
    let _ ← HaiOS.dirlink dp name inum
    pure ()
  | .unlink dp name => unlinkName dp name

/-- The caller has a reference, and for a call on the contents the lock; an inode number is one of
    the disk. -/
def DirCall.Legal (s : Fs) : DirCall → Prop
  | .beginOp | .endOp | .ialloc _ => True
  | .iget inum => inum < s.sb.ninodes
  | .idup ip | .ilock ip | .iunlock ip | .iput ip => 0 < (s.itable ip).ref
  | .amend ip _ _ _ | .itrunc ip => Locked s ip
  | .dirlookup dp _ | .unlink dp _ => Locked s dp
  | .dirlink dp _ inum => Locked s dp ∧ inum < s.sb.ninodes

/-- A call that returns. -/
structure DirStep (s : Fs) (c : DirCall) (s' : Fs) : Prop where
  legal : c.Legal s
  run : c.exec s = .ok () s'

/-! ## 2. What every call keeps -/

/-- **Directories consist of entries that name inodes of the disk.** -/
structure DirsOk (ninodes : Nat) (dins : Nat → Dinode) (files : Nat → List UInt8) : Prop where
  aligned : ∀ i, (dins i).type = T_DIR → Aligned (files i)
  inums : ∀ i, (dins i).type = T_DIR → ∀ e ∈ dirents (files i), e.live = true →
    e.inum.toNat < ninodes

section DirsOk

variable {n : Nat} {dins : Nat → Dinode} {files : Nat → List UInt8} {i : Nat} {d : Dinode}
  {l : List UInt8}

theorem DirsOk.update (h : DirsOk n dins files) (ha : d.type = T_DIR → Aligned l)
    (hi : d.type = T_DIR → ∀ e ∈ dirents l, e.live = true → e.inum.toNat < n) :
    DirsOk n (Function.update dins i d) (Function.update files i l) := by
  refine ⟨fun j hj => ?_, fun j hj => ?_⟩ <;> by_cases hji : j = i
  · subst hji
    rw [update_self] at hj ⊢
    exact ha hj
  · rw [update_of_ne hji] at hj ⊢
    exact h.aligned j hj
  · subst hji
    rw [update_self] at hj ⊢
    exact hi hj
  · rw [update_of_ne hji] at hj ⊢
    exact h.inums j hj

theorem DirsOk.setDin (h : DirsOk n dins files) (ht : d.type = T_DIR → (dins i).type = T_DIR) :
    DirsOk n (Function.update dins i d) files := by
  have := h.update (i := i) (l := files i) (fun hd => h.aligned i (ht hd)) fun hd => h.inums i (ht hd)
  rwa [update_eq_self] at this

end DirsOk

/-- An entry after one has been written is an old one or the new one. -/
theorem mem_overwrite {l : List UInt8} {e e' : Dirent} {k : Nat} (ha : Aligned l)
    (he : e.name.length = DIRSIZ) (hk : k ≤ (dirents l).length)
    (hm : e' ∈ dirents (overwrite l (DIRENT_SIZE * k) e.bytes)) : e' ∈ dirents l ∨ e' = e := by
  rw [dirents_overwrite ha he hk] at hm
  split at hm
  · exact List.mem_or_eq_of_mem_set hm
  · rcases List.mem_append.mp hm with hm | hm
    · exact Or.inl hm
    · exact Or.inr (List.mem_singleton.mp hm)

/-- **The state shows a world whose directories consist of entries.** -/
structure WorldOk (sb : Superblock) (w : World) (s : Fs) : Prop where
  sees : Sees sb w s
  dirs : DirsOk sb.ninodes w.dins w.files

/-- What every call keeps. -/
def Ok (sb : Superblock) (s : Fs) : Prop := ∃ w, WorldOk sb w s

/-- No panic is excluded. -/
def Any (_ : Panic) (_ : Fs) : Prop := True

section Steps

variable {sb : Superblock} {w : World} {s : Fs} {h : Handle} {ip dp : Nat} {name : List UInt8}

theorem any_of_resource {α : Type} {o : Outcome Panic Fs α} {Q : α → Fs → Prop}
    (h : o.Sat Q Resource) : o.Sat Q Any :=
  h.mono (fun _ _ hq => hq) fun _ _ _ => trivial

/-- The references and the slots that have been read, by the table. -/
theorem Ok.full (h : Ok sb s) : ∃ w, WorldOk sb w s ∧ (∀ ip, Locked s ip → ip ∈ w.read) ∧
    ∀ ip, 0 < (s.itable ip).ref → ⟨ip, (s.itable ip).inum⟩ ∈ w.held := by
  obtain ⟨w, hs, hd⟩ := h
  exact ⟨_, ⟨hs.full, hd⟩, fun _ hl => hl, fun _ hr => hs.refs.mem hr⟩

/-- A locked directory. -/
theorem WorldOk.openDir (h : WorldOk sb w s) (hm : ⟨dp, (s.itable dp).inum⟩ ∈ w.held)
    (hr : dp ∈ w.read) (ht : (s.itable dp).din.type = T_DIR) :
    OpenDir sb w ⟨dp, (s.itable dp).inum⟩ := by
  have hdin := h.sees.din (h := ⟨dp, (s.itable dp).inum⟩) hm hr
  rw [hdin] at ht
  exact ⟨hm, hr, ht, h.dirs.aligned _ ht, h.dirs.inums _ ht⟩

theorem iput_ok (h : WorldOk sb w s) (hm : ⟨ip, (s.itable ip).inum⟩ ∈ w.held) :
    (iput ip s).Sat (fun _ s' => Ok sb s') Resource := by
  refine (iput_cases h.sees (h := ⟨ip, (s.itable ip).inum⟩) hm).imp fun _ s' hq => ?_
  rcases hq with ⟨-, -, h'⟩ | ⟨-, h'⟩
  · exact ⟨_, h', h.dirs.update (fun e => by cases e) fun e => by cases e⟩
  · exact ⟨_, h', h.dirs⟩

theorem ialloc_ok {type : Int16} (h : WorldOk sb w s) :
    (ialloc type s).Sat (fun _ s' => Ok sb s') Resource := by
  refine (ialloc_sees h.sees).imp fun r s' hq => ?_
  cases r with
  | none => exact ⟨_, hq.2, h.dirs⟩
  | some ip =>
    obtain ⟨i, -, -, h0, h'⟩ := hq
    -- the new inode has no contents
    have hd := h.dirs.update (i := i) (d := Dinode.fresh type) (l := []) (fun _ => rfl)
      fun _ e he => by cases he
    rw [← h.sees.files_free h0, update_eq_self] at hd
    exact ⟨_, h', hd⟩

theorem dirlookup_ok (h : WorldOk sb w s) (hd : OpenDir sb w ⟨dp, (s.itable dp).inum⟩) :
    (dirlookup dp name s).Sat (fun r s' => ∃ w', WorldOk sb w' s' ∧
      OpenDir sb w' ⟨dp, (s.itable dp).inum⟩ ∧ w'.files = w.files ∧
      ∀ ip off, r = some (ip, off) → ∃ i, scan name (dirents (w.files (s.itable dp).inum)) = some (i, off))
      Resource := by
  refine (dirlookup_resource h.sees hd).imp fun r s' hq => ?_
  split at hq
  · rename_i hsc
    exact ⟨w, ⟨hq.2, h.dirs⟩, hd, rfl, fun ip off e => by rw [hq.1] at e; cases e⟩
  · rename_i i off hsc
    obtain ⟨ip, rfl, h'⟩ := hq
    refine ⟨_, ⟨h', h.dirs⟩, ⟨Multiset.mem_cons_of_mem hd.held, hd.read, hd.type, hd.aligned, hd.inums⟩,
      rfl, fun ip' off' e => ?_⟩
    cases e
    exact ⟨i, hsc⟩

/-- An entry of the directory is written over. -/
theorem DirsOk.put {de : Dirent} {k i : Nat} {d' : Dinode} (h : DirsOk sb.ninodes w.dins w.files)
    (ht : (w.dins i).type = T_DIR) (hde : de.name.length = DIRSIZ)
    (hk : k ≤ (dirents (w.files i)).length) (hi : de.live = true → de.inum.toNat < sb.ninodes) :
    DirsOk sb.ninodes (Function.update w.dins i d')
      (Function.update w.files i (overwrite (w.files i) (DIRENT_SIZE * k) de.bytes)) := by
  refine h.update (fun _ => ?_) fun _ e he hl => ?_
  · exact (h.aligned i ht).overwrite hde (by rwa [length_dirents] at hk)
  · rcases mem_overwrite (h.aligned i ht) hde hk he with he | rfl
    · exact h.inums i ht e he hl
    · exact hi hl

theorem dirlink_ok {inum : Nat} (h : WorldOk sb w s) (hd : OpenDir sb w ⟨dp, (s.itable dp).inum⟩)
    (hi : inum < sb.ninodes) : (dirlink dp name inum s).Sat (fun _ s' => Ok sb s') Resource := by
  refine (dirlookup_resource h.sees hd).bind fun r s1 hq => ?_
  split at hq
  · obtain ⟨rfl, h1⟩ := hq
    refine (dirlinkNew_sees h1 hd).imp fun r s2 hq2 => ?_
    rcases hq2 with ⟨-, d', hsum, h2⟩ | ⟨-, d', k, hlink, hk, -, h2⟩
    · exact ⟨_, h2, h.dirs.setDin fun ht => by rw [← hsum.type]; exact ht⟩
    · refine ⟨_, h2, h.dirs.put hd.type (length_strncpy _ _) hk fun _ => ?_⟩
      have hmod : (UInt16.ofNat inum).toNat = inum % 65536 := UInt16.toNat_ofNat'
      exact lt_of_le_of_lt (hmod.trans_le (Nat.mod_le _ _)) hi
  · obtain ⟨ip, rfl, h1⟩ := hq
    rename_i i off _
    have hm : (⟨ip, i⟩ : Handle) ∈ (w.take ⟨ip, i⟩).held := Multiset.mem_cons_self _ _
    have hw1 : WorldOk sb (w.take ⟨ip, i⟩) s1 := ⟨h1, h.dirs⟩
    have hi1 : (s1.itable ip).inum = i := h1.inum hm
    have hput : (iput ip s1).Sat (fun _ s' => Ok sb s') Resource :=
      iput_ok hw1 (by rw [hi1]; exact hm)
    refine hput.bind fun _ s2 h2 => h2

theorem unlinkName_ok (h : WorldOk sb w s) (hd : OpenDir sb w ⟨dp, (s.itable dp).inum⟩) :
    (unlinkName dp name s).Sat (fun _ s' => Ok sb s') Resource := by
  refine (dirlookup_ok h hd).bind fun r s1 hq => ?_
  obtain ⟨w1, h1, hd1, hf1, hoff⟩ := hq
  cases r with
  | none => exact ⟨w1, h1⟩
  | some r =>
    obtain ⟨ip, off⟩ := r
    obtain ⟨i, hsc⟩ := hoff ip off rfl
    obtain ⟨k, e, hk, -, -, rfl⟩ := scan_some hsc
    rw [← hf1] at hk
    have hlt := (List.getElem?_eq_some_iff.mp hk).1
    have hput := putDirent_sees h1.sees hd1 (show Dirent.zero.name.length = DIRSIZ from rfl) hlt.le
    refine hput.bind fun done s2 hq2 => ?_
    rcases hq2 with ⟨rfl, d', hlink, h2⟩ | ⟨-, hend, -⟩
    · exact ⟨_, h2, h1.dirs.put hd1.type rfl hlt.le fun hl => by cases hl⟩
    · exact absurd hend hlt.ne

theorem dirlookup_notDir (ht : (s.itable dp).din.type ≠ T_DIR) :
    dirlookup dp name s = .fail .dirlookupNotDir s := by
  simp only [dirlookup, inode, Routine.gets_bind]
  rw [if_pos ht]
  rfl

/-- **Every call keeps it.** -/
theorem exec_ok {c : DirCall} (h : Ok sb s) (hl : c.Legal s) :
    (c.exec s).Sat (fun _ s' => Ok sb s') Any := by
  obtain ⟨w, hw, hread, hheld⟩ := h.full
  have hs := hw.sees
  cases c with
  | beginOp => exact any_of_resource ((beginOp_sees hs).bind fun _ s1 h1 => ⟨w, h1, hw.dirs⟩)
  | endOp => exact any_of_resource ((endOp_sees hs).imp fun _ s1 h1 => ⟨w, h1, hw.dirs⟩)
  | iget inum =>
    have hi : inum < sb.ninodes := hs.sb ▸ hl
    exact any_of_resource (Outcome.Sat.bind (iget_sees hs hi fun _ => rfl).sat fun _ s1 h1 => ⟨_, h1.2, hw.dirs⟩)
  | idup ip =>
    exact any_of_resource ((idup_sees hs (hheld ip hl)).bind
      fun _ s1 h1 => ⟨_, h1.2, hw.dirs⟩)
  | ialloc type => exact any_of_resource ((ialloc_ok hw).bind fun _ s1 h1 => h1)
  | ilock ip =>
    refine (ilock_reads (P := Any) (fun _ _ _ => trivial) hs (hheld ip hl) fun _ _ => trivial).sat.imp
      fun _ s1 h1 => ⟨_, h1.2, hw.dirs⟩
  | iunlock ip =>
    refine any_of_resource ((iunlock_sees hs (hheld ip hl)).imp fun _ s1 h1 => ?_)
    subst h1
    exact ⟨w, hw⟩
  | iput ip => exact any_of_resource (iput_ok hw (hheld ip hl))
  | amend ip major minor nlink =>
    exact any_of_resource ((amend_sees (links_amends major minor nlink) hs (hheld ip hl.1)
      (hread ip hl)).imp fun _ s1 h1 => ⟨_, h1, hw.dirs.setDin fun ht => ht⟩)
  | itrunc ip =>
    exact any_of_resource ((itrunc_sees hs (hheld ip hl.1) (hread ip hl)).imp
      fun _ s1 h1 => ⟨_, h1, hw.dirs.update (fun _ => rfl) fun _ e he => by cases he⟩)
  | dirlookup dp name =>
    by_cases ht : (s.itable dp).din.type = T_DIR
    · have hd := hw.openDir (hheld dp hl.1) (hread dp hl) ht
      exact any_of_resource ((dirlookup_ok hw hd).bind fun _ s1 h1 =>
        ⟨_, h1.choose_spec.1⟩)
    · simp only [DirCall.exec]
      rw [Routine.bind_fail (dirlookup_notDir ht)]
      trivial
  | dirlink dp name inum =>
    by_cases ht : (s.itable dp).din.type = T_DIR
    · have hd := hw.openDir (hheld dp hl.1.1) (hread dp hl.1) ht
      have hi : inum < sb.ninodes := hs.sb ▸ hl.2
      exact any_of_resource ((dirlink_ok hw hd hi).bind fun _ s1 h1 => h1)
    · simp only [DirCall.exec, HaiOS.dirlink]
      rw [Routine.bind_fail (Routine.bind_fail (dirlookup_notDir ht))]
      trivial
  | unlink dp name =>
    by_cases ht : (s.itable dp).din.type = T_DIR
    · have hd := hw.openDir (hheld dp hl.1) (hread dp hl) ht
      exact any_of_resource (unlinkName_ok hw hd)
    · simp only [DirCall.exec, unlinkName]
      rw [Routine.bind_fail (dirlookup_notDir ht)]
      trivial

end Steps

/-! ## 3. Every run -/

/-- The directories of the image consist of entries that name its inodes. -/
def DirsOn (sb : Superblock) (disk : Nat → Block) : Prop :=
  DirsOk sb.ninodes (dinodes (Fs.boot sb disk)) (file (Fs.boot sb disk))

variable {disk : Nat → Block}

theorem boot_sees {sb : Superblock} (h : Arrays.Image sb disk) :
    Sees sb ⟨dinodes (Fs.boot sb disk), file (Fs.boot sb disk), 0, ∅⟩ (Fs.boot sb disk) := by
  refine ⟨h.boot fun _ _ => trivial, boot_sb sb disk, rfl, rfl, fun ip hr => ?_, fun ip => ?_,
    fun _ hm => absurd hm (Multiset.notMem_zero _), fun _ hm => hm.elim⟩
  · rw [boot_itable_ref] at hr
    exact absurd hr (Nat.lt_irrefl 0)
  · rw [boot_itable_ref, Multiset.count_zero]

theorem ok_of_run {sb : Superblock} {s : Fs} {l : List DirCall} (hi : Arrays.Image sb disk)
    (hd : DirsOn sb disk) (hr : Trace DirStep (Fs.boot sb disk) l s) :
    Ok sb s := by
  refine hr.invariant (I := Ok sb) (P := fun _ => True) (fun s c s' _ h hst => ?_)
    (fun _ _ => trivial) ⟨_, ⟨boot_sees hi, hd⟩⟩
  exact (exec_ok h hst.legal).of_ok hst.run

/-- **The directory cache is transparent.** In every state reached, for every directory that is
    locked and every name, `dirlookup` answers as the plain scan of the contents does: not found,
    or the same inode and the same offset. So does the linear loop of `dirlookup` by itself. The
    only panics are for want of buffers, log space or inode slots. -/
theorem dirlookup_transparent {sb : Superblock} {disk : Nat → Block} (hi : Arrays.Image sb disk)
    (hd : DirsOn sb disk) {s : Fs} {l : List DirCall} (hr : Trace DirStep (Fs.boot sb disk) l s)
    {dp : Nat} (hl : Locked s dp) (ht : (s.itable dp).din.type = T_DIR) (name : List UInt8) :
    (dirlookup dp name s).Sat
      (fun r s' => r.map (fun p => ((s'.itable p.1).inum, p.2)) =
        scan name (dirents (file s (s.itable dp).inum)))
      (fun p _ => resourcePanic p = true) ∧
    (dirlookupLoop dp name (s.itable dp).din.size.toNat 0 s).Sat
      (fun r _ => r = scan name (dirents (file s (s.itable dp).inum)))
      (fun p _ => resourcePanic p = true) := by
  obtain ⟨w, hw, hread, hheld⟩ := (ok_of_run hi hd hr).full
  have hs := hw.sees
  have hopen := hw.openDir (hheld dp hl.1) (hread dp hl) ht
  rw [hs.files]
  refine ⟨(dirlookup_resource hs hopen).imp fun r s' hq => ?_, ?_⟩
  · split at hq
    · rename_i hsc
      rw [hq.1, hsc]
      rfl
    · rename_i i off hsc
      obtain ⟨ip, rfl, h'⟩ := hq
      rw [hsc, Option.map_some, h'.inum (h := ⟨ip, i⟩) (Multiset.mem_cons_self _ _)]
  · have hat := hs.dirAt hopen
    exact (dirlookupLoop_runs starved_is_resource (k := 0) hat hat.fuel).sat.imp fun r s' hq => hq.2.1

instance (s : Fs) : (c : DirCall) → Decidable (c.Legal s)
  | .beginOp | .endOp | .ialloc _ => isTrue trivial
  | .iget _ => inferInstanceAs (Decidable (_ < _))
  | .idup _ | .ilock _ | .iunlock _ | .iput _ => inferInstanceAs (Decidable (_ < _))
  | .amend .. | .itrunc _ => inferInstanceAs (Decidable (Locked _ _))
  | .dirlookup .. | .unlink .. => inferInstanceAs (Decidable (Locked _ _))
  | .dirlink .. => inferInstanceAs (Decidable (_ ∧ _))

/-- A directory with a free entry between two live ones. -/
def holedEntries : List UInt8 :=
  (newDirent [46] 1).bytes ++ Dirent.zero.bytes ++ (newDirent [97] 1).bytes

def holedDir : Dinode :=
  { Dinode.fresh T_DIR with nlink := 1, size := 48, checksum := adler32 holedEntries,
                            extents := Extents.one 35 1 }

/-- A small disk with that directory. -/
def holedDisk : Nat → Block :=
  image smallSb oneBlock (oneInode holedDir) fun _ => patch (fun _ => 0) 0 holedEntries

theorem image_holedDisk : Arrays.Image smallSb holedDisk :=
  Arrays.image_one (by decide) rfl ⟨by decide, by decide, by decide⟩ _

theorem dirsOn_holedDisk : DirsOn smallSb holedDisk := by
  have hfile : Aligned (file (Fs.boot smallSb holedDisk) 1) ∧
      ∀ e ∈ dirents (file (Fs.boot smallSb holedDisk) 1), e.live = true → e.inum.toNat < 8 := by
    decide +kernel
  have hd : dinodes (Fs.boot smallSb holedDisk) = oneInode holedDir := dinodes_one ..
  have hone : ∀ i, (dinodes (Fs.boot smallSb holedDisk) i).type = T_DIR → i = 1 := fun i ht =>
    oneInode_only (d := holedDir) (by rw [← hd, ht]; decide)
  refine ⟨fun i ht => ?_, fun i ht => ?_⟩ <;> rw [hone i ht]
  · exact hfile.1
  · exact hfile.2

/-- A name is linked over the free entry, another one is cleared, and the new name is looked up. -/
theorem dirlookup_transparent_holed :
    ∃ l s, Arrays.Image smallSb holedDisk ∧ DirsOn smallSb holedDisk ∧
      Trace DirStep (Fs.boot smallSb holedDisk) l s ∧ Locked s 0 ∧ (s.itable 0).din.type = T_DIR ∧
      scan [98] (dirents (file s (s.itable 0).inum)) = some (1, 16) ∧
      (dirlookup 0 [98] s).Sat
        (fun r s' => r.map (fun p => ((s'.itable p.1).inum, p.2)) =
          scan [98] (dirents (file s (s.itable 0).inum)))
        (fun p _ => resourcePanic p = true) := by
  have hrun : (afterLegal (fun s c => c.Legal s) DirCall.exec [.beginOp, .iget 1, .ilock 0, .dirlookup 0 [97], .dirlink 0 [98] 1,
      .unlink 0 [97]] (Fs.boot smallSb holedDisk)).map (fun s =>
        decide (Locked s 0 ∧ (s.itable 0).din.type = T_DIR ∧
          scan [98] (dirents (file s (s.itable 0).inum)) = some (1, 16))) = some true := by
    decide +kernel
  obtain ⟨s, hr, hq⟩ := Option.map_eq_some_iff.mp hrun
  obtain ⟨hl, ht, hsc⟩ := of_decide_eq_true hq
  have htr : Trace DirStep _ _ s := trace_of_afterLegal (fun _ _ _ _ hc hrun => ⟨hc, hrun⟩) hr
  exact ⟨_, s, image_holedDisk, dirsOn_holedDisk, htr, hl, ht, hsc,
    (dirlookup_transparent image_holedDisk dirsOn_holedDisk htr hl ht [98]).1⟩

end HaiOS.Cache
