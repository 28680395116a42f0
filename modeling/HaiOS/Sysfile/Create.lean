/-
  File:      HaiOS/Sysfile/Create.lean
  Subject:   create AS A CHANGE OF THE WORLD, and with it sys_mkdir and sys_mknod.

  * `born` -- the new inode; `created` -- the world with it and with its entry;
  * `create_at` -- the call: the inode that is there, a new one, or an untouched world.
-/
import HaiOS.Sysfile.Unlink

namespace HaiOS.Sysfile

open Lib Function

/-! ## 1. Worlds -/

/-- The new inode before anything is written to it. -/
def born (type major minor : Int16) : Dinode := links major minor 1 (Dinode.fresh type)

/-- The new inode `h` is locked beside the directory `g`, with the contents `l`. -/
def filled (w : World) (g h : Handle) (d1 : Dinode) (l : List UInt8) : World :=
  (lockBoth w g h).setFile h.inum d1 l

/-- The directory has an entry for it. -/
def entered (w : World) (g h : Handle) (name : List UInt8) (d1 : Dinode) (l : List UInt8)
    (d2 : Dinode) (j : Nat) : World :=
  bindName (filled w g h d1 l) g.inum name h.inum d2 j

/-- `dp->nlink++` for a directory. -/
def adopted (w : World) (g h : Handle) (name : List UInt8) (type : Int16) (d1 : Dinode)
    (l : List UInt8) (d2 : Dinode) (j : Nat) : World :=
  if type = T_DIR then (entered w g h name d1 l d2 j).setDin g.inum (d2.addLinks 1)
  else entered w g h name d1 l d2 j

/-- **The world after `create` of a new inode**, which is still locked. -/
def created (w : World) (g h : Handle) (name : List UInt8) (type : Int16) (d1 : Dinode)
    (l : List UInt8) (d2 : Dinode) (j : Nat) : World :=
  (adopted w g h name type d1 l d2 j).put g

/-- The contents of a new inode: a directory has its dots. -/
def NewContents (type : Int16) (i d : Nat) (l : List UInt8) : Prop :=
  if type = T_DIR then Aligned l ∧ (∀ e ∈ dirents l, e = newDirent DOT i ∨ e = newDirent DOTDOT d) ∧
    ((newDirent DOT i).live = true → dirents l = [newDirent DOT i, newDirent DOTDOT d])
  else l = []

/-- **`create` finds a free inode and a place for its name.** -/
structure Creating (sb : Superblock) (w : World) (cwd : Nat) (path : List UInt8) (g h : Handle)
    (name : List UInt8) (type : Int16) (d1 : Dinode) (l : List UInt8) (d2 : Dinode) (j : Nat) :
    Prop where
  parent : w.findParent (startInum cwd path) (components path) = some (g.inum, name)
  fresh : (w.dins h.inum).type = 0
  inum : 1 ≤ h.inum ∧ h.inum < sb.ninodes
  apart : h.slot ≠ g.slot
  isType : d1.type = type
  isLinked : d1.nlink = 1
  contents : NewContents type h.inum g.inum l
  entry : NewEntry w g.inum name d2 j
  calm : Calm sb (created w g h name type d1 l d2 j)

section Create

variable {sb : Superblock} {w : World} {L B : List Nat} {k : Ks} {n : Nat} {A : Halt → Prop}
  {c h g : Handle} {path name : List UInt8} {type major minor : Int16} {d1 d2 : Dinode}
  {l : List UInt8} {j : Nat}

/-- **The new inode is nobody else's.** -/
structure Newborn (sb : Superblock) (w : World) (g h : Handle) : Prop where
  calm : Calm sb w
  closed : w.Closed
  dir : (w.dins g.inum).type = T_DIR
  fresh : (w.dins h.inum).type = 0
  bound : h.inum < sb.ninodes
  empty : w.files h.inum = []

theorem Newborn.ne (hb : Newborn sb w g h) : h.inum ≠ g.inum := fun e => by
  have := hb.fresh
  rw [e, hb.dir] at this
  cases this

theorem Newborn.notMem (hb : Newborn sb w g h) : h ∉ w.held := fun hm => hb.calm.used h hm hb.fresh

/-- The directory is as before. -/
theorem Newborn.openDir (hb : Newborn sb w g h) : OpenDir sb (filled w g h d1 l) g := by
  have hne := hb.ne.symm
  have hf : (filled w g h d1 l).files g.inum = w.files g.inum := update_of_ne hne _ _
  have hd : (filled w g h d1 l).dins g.inum = w.dins g.inum := update_of_ne hne _ _
  refine ⟨Multiset.mem_cons_of_mem (Multiset.mem_cons_self _ _), Set.mem_insert_of_mem _ (Set.mem_insert _ _),
    ?_, ?_, ?_⟩
  · rw [hd]
    exact hb.dir
  · rw [hf]
    exact hb.calm.dirs.aligned _ hb.dir
  · rw [hf]
    exact hb.calm.dirs.inums _ hb.dir

/-! ## 2. The entries -/

theorem dirents_single (e : Dirent) (he : e.name.length = DIRSIZ) :
    dirents (overwrite [] (DIRENT_SIZE * 0) e.bytes) = [e] := by
  rw [dirents_overwrite (show Aligned [] from rfl) he (Nat.zero_le _), if_neg (by decide)]
  rfl

theorem scan_dotdot (i : Nat) : scan DOTDOT [newDirent DOT i] = none := by
  have hno : (newDirent DOT i).hasName DOTDOT = false := by
    rw [Dirent.hasName, show (newDirent DOT i).name = strncpy DOT DIRSIZ from rfl,
      show decide (namecmp DOTDOT (strncpy DOT DIRSIZ) = 0) = false by decide, Bool.and_false]
  unfold scan
  rw [scanFrom, if_neg (by rw [hno]; decide)]
  rfl

theorem filled_setDin (d' : Dinode) : (filled w g h d1 l).setDin h.inum d' = filled w g h d' l := by
  unfold filled World.setDin World.setFile
  simp only [update_idem]

theorem filled_setFile (d' : Dinode) (l' : List UInt8) :
    (filled w g h d1 l).setFile h.inum d' l' = filled w g h d' l' := by
  unfold filled World.setFile
  simp only [update_idem]

/-- **An entry of the new directory**, when the name is not there. -/
theorem linkOwn_at {i : Nat} (hA : Resources A) (hk : At sb (filled w g h d1 l) [h.slot, g.slot] B k)
    (ht : d1.type = T_DIR) (hal : Aligned l)
    (hin : ∀ e ∈ dirents l, e.live = true → e.inum.toNat < sb.ninodes)
    (hsc : scan name (dirents l) = none) (hc : Covers sb B h.inum) (hn : B.length + 1 ≤ n) :
    (dirlink h.slot name i k).Sat (fun r k' => ∃ b d' l', d1.Linked d' ∧
      At sb (filled w g h d' l') [h.slot, g.slot] (b :: B) k' ∧ (r = -1 ∨ (r = 0 ∧ ∃ j,
        j ≤ (dirents l).length ∧ (∀ e, (dirents l)[j]? = some e → e.live = false) ∧
        l' = overwrite l (DIRENT_SIZE * j) (newDirent name i).bytes))) (Fails n A) := by
  have hf : (filled w g h d1 l).files h.inum = l := update_self ..
  have hd : (filled w g h d1 l).dins h.inum = d1 := update_self ..
  have hopen : OpenDir sb (filled w g h d1 l) h :=
    ⟨Multiset.mem_cons_self _ _, Set.mem_insert _ _, by rw [hd]; exact ht, by rw [hf]; exact hal,
      by rw [hf]; exact hin⟩
  refine (dirlink_at hA hk hopen (fun ip i off hsc' => ?_) hc hn).imp fun r k' hq => ?_
  · rw [hf, hsc] at hsc'
    cases hsc'
  · rw [hf, hd] at hq
    obtain ⟨b, ⟨hr, d', hsum, h1⟩ | ⟨hr, -, d', j, hlink, hj, hfree, h1⟩⟩ := hq
    · rw [filled_setDin] at h1
      exact ⟨b, d', l, hsum.toLinked, h1, Or.inl hr⟩
    · rw [filled_setFile] at h1
      exact ⟨b, d', _, hlink, h1, Or.inr ⟨hr, j, hj, hfree, rfl⟩⟩

/-- **The dots of a new directory**, written or not. -/
theorem linkDots_at (hA : Resources A) (hb : Newborn sb w g h)
    (hk : At sb (filled w g h (born type major minor) []) [h.slot, g.slot] B k)
    (hc : Covers sb B h.inum) (hn : B.length + 2 ≤ n) :
    (linkDots h.slot g.slot type k).Sat (fun done k' => ∃ d1 l B', B ⊆ B' ∧
      B'.length ≤ B.length + 2 ∧ (born type major minor).Linked d1 ∧
      At sb (filled w g h d1 l) [h.slot, g.slot] B' k' ∧
      (done = true → NewContents type h.inum g.inum l)) (Fails n A) := by
  unfold linkDots
  by_cases ht : type = T_DIR
  · rw [if_pos ht, lift_inode_bind, hk.sees.inum (Multiset.mem_cons_self _ _)]
    refine (linkOwn_at hA hk ht rfl (fun _ he => by cases he) rfl hc (by omega)).bind
      fun r k1 hq1 => ?_
    obtain ⟨b1, d1, l1, hlink1, h1, rfl | ⟨rfl, j1, hj1, -, rfl⟩⟩ := hq1
    · exact ⟨d1, l1, b1 :: B, List.subset_cons_self _ _, by simp, hlink1, h1, fun hd => by cases hd⟩
    obtain rfl : j1 = 0 := Nat.le_zero.mp hj1
    show ((lift (inode g.slot) >>= _) k1).Sat _ _
    rw [lift_inode_bind, h1.sees.inum (Multiset.mem_cons_of_mem (Multiset.mem_cons_self _ _))]
    have hlen : (newDirent DOT h.inum).name.length = DIRSIZ := length_strncpy _ _
    have hone := dirents_single _ hlen
    have hal : Aligned (overwrite [] (DIRENT_SIZE * 0) (newDirent DOT h.inum).bytes) :=
      Aligned.overwrite rfl hlen (Nat.zero_le _)
    refine (linkOwn_at hA h1 (hlink1.type.trans ht) hal (fun e he _ => ?_)
      (by rw [hone]; exact scan_dotdot _) (hc.mono (List.subset_cons_self _ _))
      (by rw [List.length_cons]; omega)).bind fun r k2 hq2 => ?_
    · rw [hone] at he
      rw [List.mem_singleton.mp he]
      exact newDirent_inum_lt hb.bound
    · obtain ⟨b2, d2, l2, hlink2, h2, hr⟩ := hq2
      refine ⟨d2, l2, b2 :: b1 :: B, fun _ hx => List.mem_cons_of_mem _ (List.mem_cons_of_mem _ hx),
        by simp, ⟨hlink2.type.trans hlink1.type, hlink2.nlink.trans hlink1.nlink⟩, h2, fun hd => ?_⟩
      rcases hr with rfl | ⟨rfl, j2, hj2, hfree, rfl⟩
      · cases hd
      unfold NewContents
      rw [if_pos ht]
      refine ⟨hal.overwrite (length_strncpy _ _) (by rwa [length_dirents] at hj2), fun e he => ?_,
        fun hlive => ?_⟩
      · rcases Cache.mem_overwrite hal (length_strncpy _ _) hj2 he with he | he
        · rw [hone] at he
          exact Or.inl (List.mem_singleton.mp he)
        · exact Or.inr he
      rw [hone] at hj2 hfree
      -- the first place is taken
      have hj : j2 = 1 := by
        rcases Nat.le_one_iff_eq_zero_or_eq_one.mp hj2 with rfl | h
        · have := hfree _ rfl
          rw [hlive] at this
          cases this
        · exact h
      rw [dirents_overwrite hal (length_strncpy _ _) (by rw [hone]; exact hj2), hone, hj]
      rfl
  · rw [if_neg ht]
    refine ⟨_, _, B, List.Subset.refl _, by omega, ⟨rfl, rfl⟩, hk, fun _ => ?_⟩
    unfold NewContents
    rw [if_neg ht]

/-- **The entries of the new inode, and the entry for it**, written or not. -/
theorem linkNew_at (hA : Resources A) (hb : Newborn sb w g h)
    (hk : At sb (filled w g h (born type major minor) []) [h.slot, g.slot] B k)
    (hsc : scan name (dirents (w.files g.inum)) = none) (hch : Covers sb B h.inum)
    (hcg : Covers sb B g.inum) (hn : B.length + 3 ≤ n) :
    (linkNew g.slot h.slot name type k).Sat (fun done k' => ∃ d1 l d2 B', B ⊆ B' ∧
      B'.length ≤ B.length + 3 ∧ (born type major minor).Linked d1 ∧
      ((done = false ∧ (w.dins g.inum).Resummed d2 ∧
        At sb ((filled w g h d1 l).setDin g.inum d2) [h.slot, g.slot] B' k') ∨
       (done = true ∧ NewContents type h.inum g.inum l ∧ ∃ j, NewEntry w g.inum name d2 j ∧
        At sb (entered w g h name d1 l d2 j) [h.slot, g.slot] B' k'))) (Fails n A) := by
  refine (linkDots_at hA hb hk hch (by omega)).bind fun dots k1 hq1 => ?_
  obtain ⟨d1, l, B1, hsub, hlen, hlink1, h1, hdots⟩ := hq1
  have hne := hb.ne.symm
  have hd : (filled w g h d1 l).dins g.inum = w.dins g.inum := update_of_ne hne _ _
  have hf : (filled w g h d1 l).files g.inum = w.files g.inum := update_of_ne hne _ _
  cases dots with
  | false =>
    refine ⟨d1, l, w.dins g.inum, B1, hsub, by omega, hlink1, Or.inl ⟨rfl, .refl _, ?_⟩⟩
    rw [← hd, World.setDin_self]
    exact h1
  | true =>
    show ((lift (inode h.slot) >>= _) k1).Sat _ _
    rw [lift_inode_bind, h1.sees.inum (Multiset.mem_cons_self _ _)]
    refine (dirlink_at hA h1 hb.openDir (fun ip i off hsc' => ?_)
      (hcg.mono hsub) (by omega)).bind fun r k2 hq2 => ?_
    · rw [hf, hsc] at hsc'
      cases hsc'
    · rw [hf, hd] at hq2
      obtain ⟨b, ⟨rfl, d2, hsum, h2⟩ | ⟨rfl, -, d2, j, hlink, hj, hfree, h2⟩⟩ := hq2
      all_goals
        have hsub' : B ⊆ b :: B1 := fun _ hx => List.mem_cons_of_mem _ (hsub hx)
        have hlen' : (b :: B1).length ≤ B.length + 3 := by
          rw [List.length_cons]
          omega
      · exact ⟨d1, l, d2, b :: B1, hsub', hlen', hlink1, Or.inl ⟨rfl, hsum, h2⟩⟩
      · refine ⟨d1, l, d2, b :: B1, hsub', hlen', hlink1, Or.inr ⟨rfl, hdots rfl, j,
          ⟨hb.dir, hsc, hlink, hj, hfree⟩, ?_⟩⟩
        unfold entered bindName
        rw [hf]
        exact h2

/-! ## 3. The way out -/

/-- The world after a failed `create`: the directory has another checksum, and the inode that was
    free is free. -/
def givenUp (w : World) (g h : Handle) (d1 d2 : Dinode) : World where
  dins := update (update w.dins g.inum d2) h.inum d1.freed
  files := w.files
  held := w.held
  read := w.read

theorem untouched_givenUp (hb : Newborn sb w g h) (hsum : (w.dins g.inum).Resummed d2) :
    Untouched w (givenUp w g h d1 d2) := by
  have hat : ∀ i, i ≠ h.inum → (w.dins i).Resummed ((givenUp w g h d1 d2).dins i) := fun i hi => by
    unfold givenUp
    dsimp only
    rw [update_of_ne hi]
    exact resummed_setDin hsum i
  refine ⟨rfl, rfl, fun _ hx => hx, fun i h0 => ?_, fun i ht => hat i fun e => ht (e ▸ hb.fresh)⟩
  by_cases hi : i = h.inum
  · subst hi
    unfold givenUp
    dsimp only
    rw [update_self]
    rfl
  · rw [(hat i hi).type, h0]

/-- The fields after `ip->nlink = 0`. -/
def noLinks (d : Dinode) : Dinode := { d with nlink := 0 }

/-- **The last reference to the new inode is dropped, and it is free again.** -/
theorem put_newborn (hb : Newborn sb w g h) :
    (((filled w g h d1 l).setDin g.inum d2).setDin h.inum (noLinks d1)).put h =
      ((givenUp w g h (noLinks d1) d2).take g).seen
        (stillRead (h ::ₘ g ::ₘ w.held) (insert h.slot (insert g.slot w.read)) h) := by
  have hhg : h ≠ g := fun e => hb.ne (congrArg Handle.inum e)
  have hlast : (((filled w g h d1 l).setDin g.inum d2).setDin h.inum (noLinks d1)).Last h := by
    constructor
    · show (h ::ₘ g ::ₘ w.held).count h = 1
      rw [Multiset.count_cons_self, Multiset.count_cons_of_ne hhg,
        Multiset.count_eq_zero.mpr hb.notMem]
    · rw [World.dins_setDin]
      rfl
  have hdins : update (update (update (update w.dins h.inum d1)
      g.inum d2) h.inum (noLinks d1)) h.inum (noLinks d1).freed =
        update (update w.dins g.inum d2) h.inum (noLinks d1).freed := by
    rw [update_idem, update_comm hb.ne, update_idem]
  have hfiles : update (update w.files h.inum l) h.inum [] = w.files := by
    rw [update_idem, ← hb.empty, update_eq_self]
  have hheld : (h ::ₘ g ::ₘ w.held).erase h = g ::ₘ w.held := Multiset.erase_cons_head _ _
  rw [World.put, if_pos hlast, World.dins_setDin]
  show World.mk _ _ ((h ::ₘ g ::ₘ w.held).erase h) _ = _
  rw [hheld]
  exact congrArg₂ (fun a b => World.mk a b (g ::ₘ w.held) _) hdins hfiles

/-- **`fail:`** the new inode is de-allocated, and the world untouched. -/
theorem giveUp_at (hA : Wants A) (hb : Newborn sb w g h) (hsum : (w.dins g.inum).Resummed d2)
    (hk : At sb ((filled w g h d1 l).setDin g.inum d2) [h.slot, g.slot] B k)
    (hslots : h.slot ≠ g.slot) (hc : Covers sb B h.inum) (hn : B.length ≤ n) :
    ((do lift (amend h.slot fun d => { d with nlink := 0 })
         iunlockput h.slot
         iunlockput g.slot
         pure none : KM (Option Nat)) k).Sat
      (fun r k' => r = none ∧ ∃ w', Untouched w w' ∧ At sb w' [] B k') (Fails n A) := by
  have hm : h ∈ ((filled w g h d1 l).setDin g.inum d2).held := Multiset.mem_cons_self _ _
  have hr : h.slot ∈ ((filled w g h d1 l).setDin g.inum d2).read := Set.mem_insert _ _
  have hdin : ((filled w g h d1 l).setDin g.inum d2).dins h.inum = d1 := by
    rw [World.dins_setDin_ne _ _ hb.ne]
    exact update_self ..
  refine (amend_at (f := noLinks) hA ⟨fun _ => rfl, fun _ => rfl, fun _ => rfl, fun _ => rfl⟩
    hk hm hr hc.inode hn).bind fun _ k1 h1 => ?_
  rw [hdin] at h1
  refine (iunlockput_at hA h1 hm List.mem_cons_self (fun _ => ⟨hr, hc⟩)
    (fun _ => ?_) hn).bind fun _ k2 h2 => ?_
  · rw [List.erase_cons_head]
    exact fun hin => hslots (List.mem_singleton.mp hin)
  rw [List.erase_cons_head, put_newborn hb] at h2
  have hun : Untouched w (givenUp w g h (noLinks d1) d2) := untouched_givenUp hb hsum
  have hcl : (givenUp w g h (noLinks d1) d2).Closed := hb.closed
  refine (iunlockput_back_at hA hcl h2 (fun ip hip => ?_)
    ((hun.calm hb.calm).kept_taken h2.sees) hn).bind fun _ k3 h3 => ?_
  · -- nobody has read the slot of the new inode
    refine ⟨Set.mem_insert_of_mem _ (Set.mem_insert_of_mem _ hip), Or.inr fun e => ?_⟩
    obtain ⟨h', hm', hslot⟩ := hb.closed ip hip
    have he := hk.sees.refs.eq_of_slot hm
      (Multiset.mem_cons_of_mem (Multiset.mem_cons_of_mem hm')) (e.symm.trans hslot.symm)
    exact hb.notMem (he ▸ hm')
  · exact ⟨rfl, _, hun, h3⟩

/-! ## 4. The call -/

/-- The new inode is locked and gets its link. -/
theorem filled_born (hb : Newborn sb w g h) :
    (((((w.take g).lock g.slot).take h).setDin h.inum (Dinode.fresh type)).lock h.slot).setDin h.inum
      (born type major minor) = filled w g h (born type major minor) [] := by
  have hdins : update (update w.dins h.inum (Dinode.fresh type)) h.inum
      (born type major minor) = update w.dins h.inum (born type major minor) :=
    update_idem _ _ _
  have hfiles : w.files = update w.files h.inum [] := by
    rw [← hb.empty, update_eq_self]
  exact congrArg₂ (fun a b => World.mk a b (h ::ₘ g ::ₘ w.held) (insert h.slot (insert g.slot w.read)))
    hdins hfiles

/-- `if(type == T_DIR){ dp->nlink++; iupdate(dp); }` -/
theorem newChild_at (hA : Wants A) (hk : At sb (entered w g h name d1 l d2 j) [h.slot, g.slot] B k)
    (hi : iblock sb g.inum ∈ B) (hn : B.length ≤ n) :
    (newChild g.slot type k).Sat
      (fun _ k' => At sb (adopted w g h name type d1 l d2 j) [h.slot, g.slot] B k') (Fails n A) := by
  unfold newChild adopted
  by_cases ht : type = T_DIR
  · rw [if_pos ht, if_pos ht]
    have hd : (entered w g h name d1 l d2 j).dins g.inum = d2 := update_self ..
    have hadd := addLinks_at (v := 1) (h := g) (n := n) hA hk
      (Multiset.mem_cons_of_mem (Multiset.mem_cons_self _ _))
      (Set.mem_insert_of_mem _ (Set.mem_insert _ _)) hi hn
    rwa [hd] at hadd
  · rw [if_neg ht, if_neg ht]
    exact hk

theorem adopted_held : (adopted w g h name type d1 l d2 j).held = h ::ₘ g ::ₘ w.held := by
  unfold adopted
  split <;> rfl

theorem adopted_read :
    (adopted w g h name type d1 l d2 j).read = insert h.slot (insert g.slot w.read) := by
  unfold adopted
  split <;> rfl

/-- The new inode is in use. -/
theorem Newborn.calm_filled (hb : Newborn sb w g h) (hg : g.inum < sb.ninodes) (ht : d1.type ≠ 0)
    (hl : NewContents d1.type h.inum g.inum l) : Calm sb (filled w g h d1 l) := by
  have hd : ∀ i, i ≠ h.inum → (filled w g h d1 l).dins i = w.dins i := fun i hi => update_of_ne hi _ _
  have hh : (filled w g h d1 l).dins h.inum = d1 := update_self ..
  unfold NewContents at hl
  refine ⟨hb.calm.dirs.update (fun hdir => ?_) (fun hdir e he _ => ?_), fun i hi h0 => ?_, fun g' hg' => ?_,
    hb.calm.rootIn⟩
  · rw [if_pos hdir] at hl
    exact hl.1
  · rw [if_pos hdir] at hl
    rcases hl.2.1 e he with rfl | rfl
    · exact newDirent_inum_lt hb.bound
    · exact newDirent_inum_lt hg
  · by_cases he : i = h.inum
    · exact ⟨h, Multiset.mem_cons_self _ _, he.symm, Set.mem_insert _ _⟩
    · rw [hd i he] at hi h0
      obtain ⟨g', hg', hi', hr'⟩ := hb.calm.steady i hi h0
      exact ⟨g', Multiset.mem_cons_of_mem (Multiset.mem_cons_of_mem hg'), hi',
        Set.mem_insert_of_mem _ (Set.mem_insert_of_mem _ hr')⟩
  · by_cases he : g'.inum = h.inum
    · rw [he, hh]
      exact ht
    · rw [hd _ he]
      rcases Multiset.mem_cons.mp hg' with rfl | hg'
      · exact absurd rfl he
      · rcases Multiset.mem_cons.mp hg' with rfl | hg'
        · rw [hb.dir]
          decide
        · exact hb.calm.used g' hg'

theorem Newborn.calm_adopted (hb : Newborn sb w g h) (hg : g.inum < sb.ninodes) (hd1 : d1.type = type)
    (ht : type ≠ 0) (hl : NewContents type h.inum g.inum l) (hn : NewEntry w g.inum name d2 j) :
    Calm sb (adopted w g h name type d1 l d2 j) := by
  subst hd1
  have hd : (filled w g h d1 l).dins g.inum = w.dins g.inum := update_of_ne hb.ne.symm _ _
  have hf : (filled w g h d1 l).files g.inum = w.files g.inum := update_of_ne hb.ne.symm _ _
  have hn' : NewEntry (filled w g h d1 l) g.inum name d2 j :=
    ⟨hd ▸ hn.dir, hf ▸ hn.absent, hd ▸ hn.linked, hf ▸ hn.le, hf ▸ hn.free⟩
  have hent : Calm sb (entered w g h name d1 l d2 j) := hn'.calm (hb.calm_filled hg ht hl) hb.bound
  unfold adopted
  split
  · refine hent.relink (Multiset.mem_cons_of_mem (Multiset.mem_cons_self _ _))
      (Set.mem_insert_of_mem _ (Set.mem_insert _ _)) ?_
    rw [show (entered w g h name d1 l d2 j).dins g.inum = d2 from update_self .., Dinode.addLinks_type]
  · exact hent

/-- **`create` from `ilock(ip)` on**: the new inode has its name, or the world is untouched. -/
theorem createNew_at (hA : Resources A) (hb : Newborn sb w g h) (ht : type ≠ 0)
    (hk : At sb ((((w.take g).lock g.slot).take h).setDin h.inum (Dinode.fresh type)) [g.slot]
      (iblock sb h.inum :: B) k)
    (hsc : scan name (dirents (w.files g.inum)) = none)
    (hbit : ∀ b < sb.size, bblock sb b ∈ B) (hn : B.length + 5 ≤ n) :
    (createNew g.slot h.slot name type major minor k).Sat (fun r k' => ∃ B', B'.length ≤ n ∧
      ((r = none ∧ ∃ w', Untouched w w' ∧ At sb w' [] B' k') ∨
       (r = some h.slot ∧ h.slot ≠ g.slot ∧ Covers sb B' h.inum ∧ ∃ d1 l d2 j, d1.type = type ∧ d1.nlink = 1 ∧
        NewContents type h.inum g.inum l ∧ NewEntry w g.inum name d2 j ∧
        Calm sb (created w g h name type d1 l d2 j) ∧
        At sb (created w g h name type d1 l d2 j) [h.slot] B' k'))) (Fails n A) := by
  have hslots : h.slot ≠ g.slot := fun e => hb.ne (congrArg Handle.inum (hk.sees.refs.eq_of_slot
    (Multiset.mem_cons_self _ _) (Multiset.mem_cons_of_mem (Multiset.mem_cons_self _ _)) e))
  refine (ilock_at hA.wants hk (Multiset.mem_cons_self _ _) (fun h0 => absurd h0 ?_)
    (fun hin => absurd (List.mem_singleton.mp hin) hslots) (by rw [List.length_cons]; omega)).bind
    fun _ k1 hq1 => ?_
  · rw [World.dins_setDin]
    exact ht
  obtain ⟨-, h1⟩ := hq1
  refine (amend_at (f := links major minor 1) hA.wants ?_ h1
    (Multiset.mem_cons_self _ _) (Set.mem_insert _ _) List.mem_cons_self
    (by rw [List.length_cons]; omega)).bind fun _ k2 h2 => ?_
  · exact ⟨fun _ => rfl, fun _ => rfl, fun _ => rfl, fun _ => rfl⟩
  rw [show (((((w.take g).lock g.slot).take h).setDin h.inum (Dinode.fresh type)).lock h.slot).dins h.inum
    = Dinode.fresh type from update_self .., ← born, filled_born hb] at h2
  -- from here on both inode blocks count as logged
  have h2' := h2.mono (List.subset_cons_self (iblock sb g.inum) _)
  have hcov : ∀ i, iblock sb i ∈ iblock sb g.inum :: iblock sb h.inum :: B →
      Covers sb (iblock sb g.inum :: iblock sb h.inum :: B) i := fun i hi =>
    ⟨hi, fun b hb => List.mem_cons_of_mem _ (List.mem_cons_of_mem _ (hbit b hb))⟩
  have hch := hcov h.inum (List.mem_cons_of_mem _ List.mem_cons_self)
  have hcg := hcov g.inum List.mem_cons_self
  refine (linkNew_at hA hb h2' hsc hch hcg (by simp only [List.length_cons]; omega)).bind
    fun done k3 hq3 => ?_
  obtain ⟨d1, l, d2, B', hsub, hlen, hlink1, ⟨rfl, hsum, h3⟩ | ⟨rfl, hcont, j, hnew, h3⟩⟩ := hq3
  all_goals
    have hlen' : B'.length ≤ n := by
      simp only [List.length_cons] at hlen
      omega
  · refine (giveUp_at hA.wants hb hsum h3 hslots (hch.mono hsub) hlen').imp fun r k4 hq4 => ?_
    exact ⟨B', hlen', Or.inl hq4⟩
  · refine (newChild_at hA.wants h3 (hcg.mono hsub).inode hlen').bind
      fun _ k4 h4 => ?_
    have hgm : g ∈ h ::ₘ g ::ₘ w.held := Multiset.mem_cons_of_mem (Multiset.mem_cons_self _ _)
    have hg : g ∈ (adopted w g h name type d1 l d2 j).held := adopted_held ▸ hgm
    have hcalm := hb.calm_adopted (h3.sees.inum_lt hgm) hlink1.type ht hcont hnew
    refine (iunlockput_at hA.wants h4 hg (List.mem_cons_of_mem _ List.mem_cons_self)
      (fun _ => ⟨?_, hcg.mono hsub⟩) (fun _ => ?_) hlen').bind fun _ k5 h5 => ?_
    · rw [adopted_read]
      exact Set.mem_insert_of_mem _ (Set.mem_insert _ _)
    · simp [hslots, hslots.symm]
    rw [List.erase_cons_tail (by simpa using hslots), List.erase_cons_head] at h5
    exact ⟨B', hlen', Or.inr ⟨rfl, hslots, hch.mono hsub, d1, l, d2, j, hlink1.type, hlink1.nlink,
      hcont, hnew, hcalm.put h4.sees hg, h5⟩⟩

/-- **`create` for a name that is there.** -/
theorem createFound_at (hA : Allows w h.inum A) (hw : Calm sb w) (hcl : w.Closed)
    (hk : At sb (((w.take g).lock g.slot).take h) [g.slot] B k) (hn : B.length ≤ n) :
    (createFound g.slot h.slot type k).Sat (fun r k' =>
      (r = none ∧ At sb w [] B k') ∨
      (r = some h.slot ∧ type = T_FILE ∧
        ((w.dins h.inum).type = T_FILE ∨ (w.dins h.inum).type = T_DEVICE) ∧
        At sb ((w.take h).lock h.slot) [h.slot] B k')) (Fails n A) := by
  have hAw := hA.resources.wants
  have hsub : w.read ⊆ insert g.slot w.read := Set.subset_insert _ _
  rw [take_lock_take] at hk
  have hkg : (w.take h).Kept g := by
    rcases hw.kept (h := g) fun h' hm' hi => hk.sees.eq_of_inum
      (Multiset.mem_cons_of_mem (Multiset.mem_cons_of_mem hm')) (Multiset.mem_cons_self _ _) hi with hm | hrest
    · exact Or.inl (Multiset.mem_cons_of_mem hm)
    · exact Or.inr hrest
  refine (iunlockput_back_at hAw (hcl.take _) hk hsub hkg hn).bind fun _ k1 h1 => ?_
  refine (ilock_at hAw h1 (Multiset.mem_cons_self _ _) (fun h0 => hA.noType h0)
    (fun hin => by cases hin) hn).bind fun _ k2 hq2 => ?_
  obtain ⟨-, h2⟩ := hq2
  rw [lift_inode_bind, show (k2.fs.itable h.slot).din = w.dins h.inum from
    h2.sees.din (Multiset.mem_cons_self _ _) (Set.mem_insert _ _)]
  split
  · rename_i ht
    exact Or.inr ⟨rfl, ht.1, ht.2, h2⟩
  · refine (iunlockput_back_at (R := insert h.slot w.read) hAw hcl h2
      (Set.subset_insert _ _) (hw.kept_taken (R := insert h.slot w.read) h2.sees) hn).bind fun _ k3 h3 => ?_
    exact Or.inl ⟨rfl, h3⟩

/-- **`create` finds what `open` may open.** -/
structure Existing (w : World) (cwd : Nat) (path : List UInt8) (type : Int16) (i : Nat) : Prop where
  found : ∃ d name, w.findParent (startInum cwd path) (components path) = some (d, name) ∧
    w.lookup d name = some i
  wanted : type = T_FILE
  isType : (w.dins i).type = T_FILE ∨ (w.dins i).type = T_DEVICE

/-- **`create`**: an inode that is there, a new one, or an untouched world. -/
theorem create_at (hA : Allows w (startInum c.inum path) A) (ht : type ≠ 0) (hw : Calm sb w)
    (hk : At sb w [] B k) (hc : c ∈ w.held) (hbit : ∀ b < sb.size, bblock sb b ∈ B)
    (hn : B.length + 5 ≤ n) :
    (create c.slot path type major minor k).Sat (fun r k' =>
      (∃ w' B', B'.length ≤ n ∧ r = none ∧ Untouched w w' ∧ At sb w' [] B' k') ∨
      (∃ ip i, r = some ip ∧ Existing w c.inum path type i ∧
        At sb ((w.take ⟨ip, i⟩).lock ip) [ip] B k') ∨
      (∃ B', B'.length ≤ n ∧ ∃ g h name d1 l d2 j, r = some h.slot ∧ Covers sb B' h.inum ∧
        Creating sb w c.inum path g h name type d1 l d2 j ∧
        At sb (created w g h name type d1 l d2 j) [h.slot] B' k')) (Fails n A) := by
  have hAw := hA.resources.wants
  have hcl := hk.sees.closed
  refine (nameiparent_at hA hw hk hc (by omega)).bind fun r k1 hq => ?_
  rcases hq with ⟨rfl, h1⟩ | ⟨dp, d, name, rfl, hfind, h1⟩
  · exact Or.inl ⟨w, B, by omega, rfl, .refl w, h1⟩
  obtain ⟨hf, hdir⟩ := World.findParent_some hfind
  have hAd := hA.find hf
  refine (ilock_at (h := ⟨dp, d⟩) hAw h1 (Multiset.mem_cons_self _ _)
    (fun h0 => hAd.noType h0) (fun hin => by cases hin) (by omega)).bind fun _ k2 hq2 => ?_
  obtain ⟨-, h2⟩ := hq2
  refine (dirlookup_at (h := ⟨dp, d⟩) hAw h2 (hw.openDir hdir)
    (fun _ _ _ _ _ _ => hA.resources _ rfl) (by omega)).bind fun r k3 hq3 => ?_
  cases hsc : scan name (dirents (w.files d)) with
  | some r' =>
    obtain ⟨i, off⟩ := r'
    rw [show scan name (dirents (((w.take ⟨dp, d⟩).lock dp).files d)) = some (i, off) from hsc] at hq3
    obtain ⟨ip, rfl, h3⟩ := hq3
    have hl : w.lookup d name = some i := lookup_of_scan hsc
    refine (createFound_at (g := ⟨dp, d⟩) (h := ⟨ip, i⟩) (hAd.lookup hdir hl) hw hcl h3 (by omega)).imp
      fun r k4 hq4 => ?_
    rcases hq4 with ⟨rfl, h4⟩ | ⟨rfl, hfile, hty, h4⟩
    · exact Or.inl ⟨w, B, by omega, rfl, .refl w, h4⟩
    · exact Or.inr (Or.inl ⟨ip, i, rfl, ⟨⟨d, name, hfind, hl⟩, hfile, hty⟩, h4⟩)
  | none =>
    rw [show scan name (dirents (((w.take ⟨dp, d⟩).lock dp).files d)) = none from hsc] at hq3
    obtain ⟨rfl, h3⟩ := hq3
    refine (ialloc_at hA.resources h3 (by omega)).bind fun r k4 hq4 => ?_
    cases r with
    | none =>
      refine (iunlockput_back_at (h := ⟨dp, d⟩) (R := insert dp w.read) hAw hcl hq4
        (Set.subset_insert _ _) (hw.kept_taken (R := insert dp w.read) hq4.sees) (by omega)).bind
        fun _ k5 h5 => ?_
      exact Or.inl ⟨w, B, by omega, rfl, .refl w, h5⟩
    | some ip =>
      obtain ⟨i, hpos, hlt, h0, h4⟩ := hq4
      have hb : Newborn sb w ⟨dp, d⟩ ⟨ip, i⟩ := ⟨hw, hcl, hdir, h0, hlt, hk.sees.files_free h0⟩
      refine (createNew_at (g := ⟨dp, d⟩) (h := ⟨ip, i⟩) hA.resources hb ht h4 hsc hbit hn).imp
        fun r k5 hq5 => ?_
      obtain ⟨B', hlen, ⟨rfl, w', hun, h5⟩ |
        ⟨rfl, hslots, hcov, d1, l, d2, j, hd1, hd1', hcont, hnew, hcalm, h5⟩⟩ := hq5
      · exact Or.inl ⟨w', B', hlen, rfl, hun, h5⟩
      · exact Or.inr (Or.inr ⟨B', hlen, ⟨dp, d⟩, ⟨ip, i⟩, name, d1, l, d2, j, rfl, hcov,
          ⟨hfind, h0, ⟨hpos, hlt⟩, hslots, hd1, hd1', hcont, hnew, hcalm⟩, h5⟩)

theorem Creating.ne {cwd : Nat} (hc : Creating sb w cwd path g h name type d1 l d2 j) :
    h.inum ≠ g.inum := fun e => by
  have h0 := hc.fresh
  rw [e, hc.entry.dir] at h0
  cases h0

theorem created_din (hne : h.inum ≠ g.inum) : (created w g h name type d1 l d2 j).dins h.inum = d1 := by
  have hent : (entered w g h name d1 l d2 j).dins h.inum = d1 := by
    show update (update w.dins h.inum d1) g.inum d2 h.inum = d1
    rw [update_of_ne hne, update_self]
  unfold created adopted
  rw [put_dins_ne _ _ hne]
  split
  · rw [World.dins_setDin_ne _ _ hne, hent]
  · exact hent

theorem created_held (hne : h ≠ g) :
    (created w g h name type d1 l d2 j).held = h ::ₘ w.held := by
  unfold created
  rw [put_held, adopted_held, Multiset.erase_cons_tail _ hne, Multiset.erase_cons_head]

theorem created_read (hslot : h.slot ≠ g.slot) :
    h.slot ∈ (created w g h name type d1 l d2 j).read := by
  unfold created
  rw [put_read, adopted_held, adopted_read]
  exact ⟨Set.mem_insert _ _, Or.inr hslot⟩

/-- **`sys_mkdir` and `sys_mknod` inside the transaction.** -/
theorem make_at (hA : Allows w (startInum c.inum path) A) (ht : type ≠ 0) (hfile : type ≠ T_FILE)
    (hw : Calm sb w) (hk : At sb w [] B k) (hc : c ∈ w.held) (hbit : ∀ b < sb.size, bblock sb b ∈ B)
    (hn : B.length + 5 ≤ n) :
    (make c.slot (some path) type major minor k).Sat (Ends sb n w fun w' => ∃ g h name d1 l d2 j,
      Creating sb w c.inum path g h name type d1 l d2 j ∧
      w' = (created w g h name type d1 l d2 j).put h) (Fails n A) := by
  refine (create_at hA ht hw hk hc hbit hn).bind fun r k1 hq => ?_
  rcases hq with ⟨w', B', hlen, rfl, hun, h1⟩ | ⟨ip, i, rfl, hex, h1⟩ |
    ⟨B', hlen, g, h, name, d1, l, d2, j, rfl, hcov, hcr, h1⟩
  · exact ⟨w', B', hlen, h1, Or.inl ⟨rfl, hun⟩⟩
  · exact absurd hex.wanted hfile
  · have hm : h ∈ (created w g h name type d1 l d2 j).held := by
      rw [created_held fun e => hcr.apart (congrArg Handle.slot e)]
      exact Multiset.mem_cons_self _ _
    refine (iunlockput_at hA.resources.wants h1 hm List.mem_cons_self
      (fun _ => ⟨created_read hcr.apart, hcov⟩)
      (fun _ => by rw [List.erase_cons_head]; exact List.not_mem_nil) hlen).bind fun _ k2 h2 => ?_
    rw [List.erase_cons_head] at h2
    exact ⟨_, B', hlen, h2, Or.inr ⟨rfl, hcr.calm.put h1.sees hm, g, h, name, d1, l, d2, j, hcr, rfl⟩⟩

end Create

end HaiOS.Sysfile
