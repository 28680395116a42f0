/-
  File:      HaiOS/Sysfile/Link.lean
  Subject:   sys_link AS A CHANGE OF THE WORLD.

  * `linkName_at` -- the second half: a new entry, or nothing but a checksum;
  * `link_at` -- the call: an entry for `old` in the directory of `new`, or an untouched world.
-/
import HaiOS.Sysfile.Calls

namespace HaiOS.Sysfile

open Lib Function

section Link

variable {sb : Superblock} {w : World} {L B : List Nat} {k : Ks} {n : Nat} {A : Halt → Prop}
  {c h g : Handle} {path old new : List UInt8}

theorem addLinks_amends (v : Int16) : Dinode.Amends fun d => d.addLinks v :=
  ⟨fun _ => rfl, fun _ => rfl, fun _ => rfl, fun _ => rfl⟩

theorem addLinks_at {v : Int16} (hA : Wants A) (hk : At sb w L B k) (hm : h ∈ w.held)
    (hr : h.slot ∈ w.read) (hb : iblock sb h.inum ∈ B) (hn : B.length ≤ n) :
    (addLinks h.slot v k).Sat
      (fun _ k' => At sb (w.setDin h.inum ((w.dins h.inum).addLinks v)) L B k') (Fails n A) :=
  amend_at hA (addLinks_amends v) hk hm hr hb hn

/-- A directory that has just been locked. -/
theorem Calm.openDir (hw : Calm sb w) (ht : (w.dins g.inum).type = T_DIR) :
    OpenDir sb ((w.take g).lock g.slot) g :=
  ⟨Multiset.mem_cons_self _ _, Set.mem_insert _ _, ht, hw.dirs.aligned _ ht, hw.dirs.inums _ ht⟩

variable {d' : Dinode}

/-- A new inode of the same type and with the same links. -/
theorem kept_setDin {i : Nat} (hk : w.Kept h) (hd : (w.dins i).Linked d') :
    (w.setDin i d').Kept h := by
  by_cases hi : h.inum = i
  · subst hi
    have he : (w.setDin h.inum d').dins h.inum = d' := update_self ..
    unfold World.Kept
    rw [he, hd.nlink, hd.type]
    exact hk
  · have he : (w.setDin i d').dins h.inum = w.dins h.inum := update_of_ne hi _ _
    unfold World.Kept
    rw [he]
    exact hk

/-- **The second half of `sys_link`**: a new entry for `h`, or nothing but a checksum. -/
theorem linkName_at (hA : Allows w (startInum c.inum new) A) (hw : Calm sb w) (hk : At sb w [] B k)
    (hc : c ∈ w.held) (hm : h ∈ w.held) (hbit : ∀ b < sb.size, bblock sb b ∈ B)
    (hn : B.length + 2 ≤ n) :
    (linkName c.slot new h.slot k).Sat (fun done k' => ∃ B', B ⊆ B' ∧ B'.length ≤ B.length + 2 ∧
      ((done = false ∧ ∃ d d', (w.dins d).Resummed d' ∧ At sb (w.setDin d d') [] B' k') ∨
       (done = true ∧ ∃ d name d' j,
        w.findParent (startInum c.inum new) (components new) = some (d, name) ∧
        NewEntry w d name d' j ∧ At sb (bindName w d name h.inum d' j) [] B' k')))
      (Fails n A) := by
  have hAw := hA.resources.wants
  refine (nameiparent_at hA hw hk hc (by omega)).bind fun r k1 hq => ?_
  rcases hq with ⟨rfl, h1⟩ | ⟨dp, d, name, rfl, hfind, h1⟩
  · exact ⟨B, List.Subset.refl _, by omega, Or.inl ⟨rfl, 0, w.dins 0, .refl _, by
      rw [World.setDin_self]
      exact h1⟩⟩
  obtain ⟨hf, hdir⟩ := World.findParent_some hfind
  refine (ilock_at (h := ⟨dp, d⟩) hAw h1 (Multiset.mem_cons_self _ _)
    (fun h0 => (hA.find hf).noType h0) (fun hin => by cases hin) (by omega)).bind fun _ k2 hq2 => ?_
  obtain ⟨-, h2⟩ := hq2
  have hinum : (k2.fs.itable h.slot).inum = h.inum := h2.sees.inum (Multiset.mem_cons_of_mem hm)
  rw [lift_inode_bind, hinum]
  have hcov : Covers sb (iblock sb d :: B) d :=
    ⟨List.mem_cons_self, fun b hb => List.mem_cons_of_mem _ (hbit b hb)⟩
  have hcalm := hw.lock (h := ⟨dp, d⟩) (show (w.dins d).type ≠ 0 by rw [hdir]; decide)
  refine (dirlink_at (h := ⟨dp, d⟩) hA.resources
    (h2.mono (List.subset_cons_self (iblock sb d) B)) (hw.openDir hdir)
    (fun ip i off _ he => hcalm.kept he) hcov (by rw [List.length_cons]; omega)).bind fun r k3 hq3 => ?_
  obtain ⟨b, hq3⟩ := hq3
  have hsub : w.read ⊆ insert dp w.read := Set.subset_insert _ _
  have hBsub : B ⊆ b :: iblock sb d :: B := fun _ hb => List.mem_cons_of_mem _ (List.mem_cons_of_mem _ hb)
  have hkept : w.Kept ⟨dp, d⟩ := hw.kept_taken (R := insert dp w.read) h2.sees
  have hcl := hk.sees.closed
  have hlen : (b :: iblock sb d :: B).length ≤ n := by
    simp only [List.length_cons]
    omega
  rcases hq3 with ⟨rfl, d', hsum, h3⟩ | ⟨rfl, habs, d', j, hlink, hj, hfree, h3⟩
  · refine (iunlockput_back_at (w := w.setDin d d') (h := ⟨dp, d⟩)
      (R := insert dp w.read) hAw hcl h3 hsub (kept_setDin hkept hsum.toLinked) hlen).bind fun _ k4 h4 => ?_
    exact ⟨_, hBsub, Nat.le_refl _, Or.inl ⟨rfl, d, d', hsum, h4⟩⟩
  · refine (iunlockput_back_at (w := bindName w d name h.inum d' j) (h := ⟨dp, d⟩)
      (R := insert dp w.read) hAw hcl h3 hsub (kept_setDin hkept hlink) hlen).bind fun _ k4 h4 => ?_
    exact ⟨_, hBsub, Nat.le_refl _, Or.inr ⟨rfl, d, name, d', j, hfind, ⟨hdir, habs, hlink, hj, hfree⟩, h4⟩⟩

/-- The inode of `h` is locked, and has one link more. -/
def raise (w : World) (h : Handle) : World :=
  ((w.take h).lock h.slot).setDin h.inum ((w.dins h.inum).addLinks 1)

theorem raise_dins (w : World) (h : Handle) :
    (raise w h).dins = update w.dins h.inum ((w.dins h.inum).addLinks 1) := rfl

theorem raise_type (w : World) (h : Handle) (i : Nat) :
    ((raise w h).dins i).type = (w.dins i).type := by
  rw [raise_dins]
  by_cases hi : i = h.inum
  · subst hi
    rw [update_self]
    rfl
  · rw [update_of_ne hi]

theorem calm_raise (hw : Calm sb w) (ht : (w.dins h.inum).type ≠ 0) : Calm sb (raise w h) :=
  (hw.lock ht).relink (h := h) (Multiset.mem_cons_self _ _) (Set.mem_insert _ _) rfl

/-- There is room for one link more. -/
theorem isLinked_raise (hmax : (w.dins h.inum).nlink ≠ 32767) (hi : w.IsLinked h.inum) (i : Nat) :
    (raise w h).IsLinked i ↔ w.IsLinked i := by
  unfold World.IsLinked
  rw [raise_type]
  by_cases he : i = h.inum
  · subst he
    rw [raise_dins, update_self]
    have h1 := hi.2
    refine and_congr_right fun _ => iff_of_true ?_ h1
    rw [Dinode.addLinks_nlink, Int16.le_iff_toInt_le, toInt_succ hmax]
    rw [Int16.le_iff_toInt_le] at h1
    omega
  · rw [raise_dins, update_of_ne he]

theorem allows_raise {s i : Nat} {cs : List (List UInt8)} (hi : Allows w i A) (hs : Allows w s A)
    (hfind : w.find i cs = some h.inum)
    (hmax : (∀ e, A e) ∨ (w.dins h.inum).nlink ≠ 32767) : Allows (raise w h) s A := by
  refine ⟨hs.resources, ?_⟩
  rcases hi.sound with ⟨hw, hi⟩ | hall
  · rcases hs.sound with ⟨-, hs⟩ | hall
    · rcases hmax with hall | hmax
      · exact Or.inr hall
      · have hl := isLinked_raise hmax (hw.find hi hfind)
        exact Or.inl ⟨hw.congr (raise_type w h) rfl hl, (hl s).mpr hs⟩
    · exact Or.inr hall
  · exact Or.inr hall

/-- **`sys_link` finds a file and a place for its new name.** -/
structure Linking (w : World) (cwd : Nat) (old new : List UInt8) (h : Handle) (d : Nat)
    (name : List UInt8) (d' : Dinode) (j : Nat) : Prop where
  found : w.find (startInum cwd old) (components old) = some h.inum
  file : (w.dins h.inum).type ≠ T_DIR
  parent : w.findParent (startInum cwd new) (components new) = some (d, name)
  entry : NewEntry w d name d' j

/-- The link is taken back, after the directory `d` has another checksum. -/
def lower (w : World) (h : Handle) (d : Nat) (d' : Dinode) : World where
  dins := update ((raise w h).setDin d d').dins h.inum
    ((((raise w h).setDin d d').dins h.inum).addLinks (-1))
  files := w.files
  held := w.held
  read := w.read

theorem untouched_lower {d : Nat} (hsum : ((raise w h).dins d).Resummed d') :
    Untouched w (lower w h d d') := by
  have hx := resummed_setDin hsum
  have hat : ∀ j, (w.dins j).Resummed ((lower w h d d').dins j) := fun j => by
    have hxj := hx j
    unfold lower
    dsimp only
    by_cases hj : j = h.inum
    · subst hj
      rw [raise_dins, update_self] at hxj
      rw [update_self]
      refine ⟨⟨?_, ?_⟩, ?_, ?_⟩
      · rw [Dinode.addLinks_type, hxj.type, Dinode.addLinks_type]
      · rw [Dinode.addLinks_nlink, hxj.nlink, Dinode.addLinks_nlink, succ_pred]
      · rw [Dinode.addLinks_size, hxj.size, Dinode.addLinks_size]
      · rw [Dinode.addLinks_extents, hxj.extents, Dinode.addLinks_extents]
    · rw [raise_dins, update_of_ne hj] at hxj
      rwa [update_of_ne hj]
  exact ⟨rfl, rfl, fun _ hip => hip, fun j h0 => by rw [(hat j).type, h0], fun j _ => hat j⟩

/-- `bad:` the link count is taken back. -/
theorem undo_at {d : Nat} {d' : Dinode} {M : World → Prop} (hA : Wants A) (hw : Calm sb w) (hcl : w.Closed)
    (ht : (w.dins h.inum).type ≠ 0) (hsum : ((raise w h).dins d).Resummed d')
    (hk : At sb ((raise w h).setDin d d') [] B k) (hb : iblock sb h.inum ∈ B) (hn : B.length ≤ n) :
    ((do ilock h.slot
         addLinks h.slot (-1)
         iunlockput h.slot
         pure (-1) : KM Int) k).Sat (Ends sb n w M) (Fails n A) := by
  have hm : h ∈ (raise w h).held := Multiset.mem_cons_self _ _
  have hx := resummed_setDin hsum
  refine (ilock_at hA hk hm (fun h0 => absurd h0 ?_) (fun hin => by cases hin) hn).bind
    fun _ k1 hq1 => ?_
  · rw [(hx h.inum).type, raise_type]
    exact ht
  obtain ⟨-, h1⟩ := hq1
  refine (addLinks_at hA h1 hm (Set.mem_insert _ _) hb hn).bind fun _ k2 h2 => ?_
  have hun := untouched_lower hsum
  have h2 : At sb (((lower w h d d').take h).seen (insert h.slot (insert h.slot w.read))) [h.slot] B k2 :=
    h2
  refine (iunlockput_back_at (w := lower w h d d') hA hcl h2
    (fun _ hip => Set.mem_insert_of_mem _ (Set.mem_insert_of_mem _ hip))
    ((hun.calm hw).kept_taken h2.sees) hn).bind fun _ k3 h3 => ?_
  exact ⟨_, B, hn, h3, Or.inl ⟨rfl, hun⟩⟩

/-- **`sys_link`**: a new entry, or an untouched world. -/
theorem link_at (hO : Allows w (startInum c.inum old) A) (hN : Allows w (startInum c.inum new) A)
    (hmax : (∀ e, A e) ∨ ∀ i, w.find (startInum c.inum old) (components old) = some i →
      (w.dins i).nlink ≠ 32767)
    (hw : Calm sb w) (hk : At sb w [] B k) (hc : c ∈ w.held)
    (hbit : ∀ b < sb.size, bblock sb b ∈ B) (hn : B.length + 3 ≤ n) :
    (link c.slot old new k).Sat (Ends sb n w fun w' => ∃ h d name d' j,
      Linking w c.inum old new h d name d' j ∧
      w' = (bindName (raise w h) d name h.inum d' j).put h) (Fails n A) := by
  have hAw := hO.resources.wants
  refine (namei_at hO hw hk hc (by omega)).bind fun r k1 hq => ?_
  rcases hq with ⟨rfl, h1⟩ | ⟨ip, i, rfl, hfind, h1⟩
  · exact ⟨w, B, by omega, h1, Or.inl ⟨rfl, .refl w⟩⟩
  have hm : (⟨ip, i⟩ : Handle) ∈ ((w.take ⟨ip, i⟩).lock ip).held := Multiset.mem_cons_self _ _
  have hr : ip ∈ ((w.take ⟨ip, i⟩).lock ip).read := Set.mem_insert _ _
  refine (ilock_at (h := ⟨ip, i⟩) hAw h1 (Multiset.mem_cons_self _ _)
    (fun h0 => (hO.find hfind).noType h0) (fun hin => by cases hin) (by omega)).bind fun _ k2 hq2 => ?_
  obtain ⟨-, h2⟩ := hq2
  have hdin : (k2.fs.itable ip).din = w.dins i := h2.sees.din hm hr
  have ht0 : (w.dins i).type ≠ 0 := h2.sees.type_ne_zero hm hr
  rw [lift_inode_bind, hdin]
  by_cases hdir : (w.dins i).type = T_DIR
  · rw [if_pos hdir]
    exact quit_at (h := ⟨ip, i⟩) hAw hw hk.sees.closed h2 (by omega)
  rw [if_neg hdir]
  refine (addLinks_at (h := ⟨ip, i⟩) hAw
    (h2.mono (List.subset_cons_self (iblock sb i) B)) hm hr List.mem_cons_self
    (by rw [List.length_cons]; omega)).bind fun _ k3 h3 => ?_
  refine (iunlock_at h3 hm List.mem_cons_self).bind fun _ k4 h4 => ?_
  rw [List.erase_cons_head] at h4
  have h4 : At sb (raise w ⟨ip, i⟩) [] (iblock sb i :: B) k4 := h4
  have hcalm := calm_raise (h := ⟨ip, i⟩) hw ht0
  have hallow := allows_raise (h := ⟨ip, i⟩) hO hN hfind (hmax.imp_right fun hmax => hmax i hfind)
  have hname := linkName_at (h := ⟨ip, i⟩) (n := n) hallow hcalm h4 (Multiset.mem_cons_of_mem hc) hm
    (fun b hb => List.mem_cons_of_mem _ (hbit b hb)) (by rw [List.length_cons]; omega)
  refine hname.bind fun done k5 hq5 => ?_
  obtain ⟨B', hsub, hlen, ⟨rfl, d, d', hsum, h5⟩ | ⟨rfl, d, name, d', j, hpar, hnew, h5⟩⟩ := hq5
  all_goals
    rw [List.length_cons] at hlen
    have hcov : Covers sb B' i :=
      ⟨hsub List.mem_cons_self, fun b hb => hsub (List.mem_cons_of_mem _ (hbit b hb))⟩
  · exact undo_at hAw hw hk.sees.closed ht0 hsum h5 hcov.inode (by omega)
  · refine (iput_at (h := ⟨ip, i⟩) hAw h5 hm (fun _ => ⟨hr, hcov⟩)
      (fun _ => List.not_mem_nil) (by omega)).bind fun _ k6 h6 => ?_
    refine ⟨_, B', by omega, h6, Or.inr ⟨rfl, (hnew.calm hcalm (h2.sees.inum_lt hm)).put h5.sees hm,
      ⟨ip, i⟩, d, name, d', j, ⟨hfind, hdir, ?_, ?_⟩, rfl⟩⟩
    · rw [← hpar]
      exact (World.findParent_congr (raise_type w _) rfl).symm
    · have hne : d ≠ i := fun e => hdir (by
        rw [← e, ← raise_type w ⟨ip, i⟩]
        exact hnew.dir)
      have hd : (raise w ⟨ip, i⟩).dins d = w.dins d := update_of_ne hne _ _
      exact ⟨hd ▸ hnew.dir, hnew.absent, hd ▸ hnew.linked, hnew.le, hnew.free⟩

end Link

end HaiOS.Sysfile
