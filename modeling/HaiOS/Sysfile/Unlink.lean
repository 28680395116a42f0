/-
  File:      HaiOS/Sysfile/Unlink.lean
  Subject:   sys_unlink AS A CHANGE OF THE WORLD.

  * `Unlinking` -- what has to be true of the entry; `unlinked` -- the world without it;
  * `unlink_at` -- the call: the entry is cleared, or the world is untouched.
-/
import HaiOS.Sysfile.Link

namespace HaiOS.Sysfile

open Lib Function

/-- The directory `g` and the inode `h` are locked. -/
def lockBoth (w : World) (g h : Handle) : World :=
  (((w.take g).lock g.slot).take h).lock h.slot

/-- The entry at place `j` of the directory `g` is cleared; `d'` is its inode after the write. -/
def cleared (w : World) (g h : Handle) (d' : Dinode) (j : Nat) : World :=
  (lockBoth w g h).setFile g.inum d' (overwrite (w.files g.inum) (DIRENT_SIZE * j) Dirent.zero.bytes)

/-- `dp->nlink--` for a directory. -/
def childless (w : World) (g h : Handle) (d' : Dinode) (j : Nat) : World :=
  if (w.dins h.inum).type = T_DIR then (cleared w g h d' j).setDin g.inum (d'.addLinks (-1))
  else cleared w g h d' j

/-- **The world after `sys_unlink`.** -/
def unlinked (w : World) (g h : Handle) (d' : Dinode) (j : Nat) : World :=
  (((childless w g h d' j).put g).setDin h.inum ((w.dins h.inum).addLinks (-1))).put h

/-- **`sys_unlink` finds an entry that may be cleared**: `name` is not a dot, and a directory that it
    names is empty. -/
structure Unlinking (w : World) (cwd : Nat) (path : List UInt8) (g h : Handle) (d' : Dinode)
    (j : Nat) (e : Dirent) (name : List UInt8) : Prop where
  parent : w.findParent (startInum cwd path) (components path) = some (g.inum, name)
  notDot : namecmp name DOT ≠ 0
  notDotdot : namecmp name DOTDOT ≠ 0
  entry : (dirents (w.files g.inum))[j]? = some e
  named : e.hasName name = true
  inum : e.inum.toNat = h.inum
  apart : h.inum ≠ g.inum
  links : 1 ≤ (w.dins h.inum).nlink
  empty : (w.dins h.inum).type = T_DIR → ∀ e ∈ (dirents (w.files h.inum)).drop 2, e.live = false
  linked : (w.dins g.inum).Linked d'

section Unlink

variable {sb : Superblock} {w : World} {L B : List Nat} {k : Ks} {n : Nat} {A : Halt → Prop}
  {c h g : Handle} {path : List UInt8}

/-- **`ip->type == T_DIR && !isdirempty(ip)`**. -/
theorem inUse_at (hA : Wants A) (hk : At sb w L B k) (hm : h ∈ w.held) (hr : h.slot ∈ w.read)
    (hd : Cache.DirsOk sb.ninodes w.dins w.files) (hn : B.length ≤ n) :
    (inUse h.slot k).Sat (fun used k' => At sb w L B k' ∧ (used = false → (w.dins h.inum).type = T_DIR →
      ∀ e ∈ (dirents (w.files h.inum)).drop 2, e.live = false)) (Fails n A) := by
  unfold inUse
  rw [lift_inode_bind, hk.sees.din hm hr]
  by_cases ht : (w.dins h.inum).type = T_DIR
  · rw [if_pos ht]
    refine (isdirempty_at hA hk ⟨hm, hr, ht, hd.aligned _ ht, hd.inums _ ht⟩ hn).bind
      fun empty k1 hq => ?_
    obtain ⟨hiff, h1⟩ := hq
    exact ⟨h1, fun hu _ => hiff.mp (by simpa using hu)⟩
  · rw [if_neg ht]
    exact ⟨hk, fun _ ht' => absurd ht' ht⟩

/-- `memset(&de, 0, sizeof(de)); writei(...)`. -/
theorem clearDirent_at {j : Nat} (hA : Resources A) (hk : At sb w L B k) (hd : OpenDir sb w h)
    (hj : j < (dirents (w.files h.inum)).length) (hc : Covers sb B h.inum) (hn : B.length + 1 ≤ n) :
    (lift (Cache.clearDirent h.slot (DIRENT_SIZE * j)) k).Sat (fun _ k' => ∃ b d',
      (w.dins h.inum).Linked d' ∧ At sb (w.setFile h.inum d'
        (overwrite (w.files h.inum) (DIRENT_SIZE * j) Dirent.zero.bytes)) L (b :: B) k') (Fails n A) := by
  have hput := putDirent_scene (P := fun p => A (.panic p)) hA hk.scene hd
    (show Dirent.zero.name.length = DIRSIZ from rfl) hj.le hc hn
  refine (lift_at (Q := fun _ s' => ∃ b d', (w.dins h.inum).Linked d' ∧ Scene sb (w.setFile h.inum d'
    (overwrite (w.files h.inum) (DIRENT_SIZE * j) Dirent.zero.bytes)) (b :: B) s')
    (hput.bind fun r s1 hq => ?_)).imp fun _ k1 hq => ?_
  · obtain ⟨b, ⟨rfl, d', hlink, h1⟩ | ⟨-, hend, -⟩⟩ := hq
    · exact ⟨b, d', hlink, h1⟩
    · exact absurd hend hj.ne
  · obtain ⟨⟨b, d', hlink, h1⟩, hlocked⟩ := hq
    exact ⟨b, d', hlink, h1, hlocked.trans hk.locked⟩

theorem addChild_at {v : Int16} (hA : Wants A) (hk : At sb w L B k) (hm : h ∈ w.held)
    (hr : h.slot ∈ w.read) (hg : g ∈ w.held) (hgr : g.slot ∈ w.read) (hb : iblock sb g.inum ∈ B)
    (hn : B.length ≤ n) :
    (addChild h.slot g.slot v k).Sat (fun _ k' => At sb (if (w.dins h.inum).type = T_DIR then
      w.setDin g.inum ((w.dins g.inum).addLinks v) else w) L B k') (Fails n A) := by
  unfold addChild
  rw [lift_inode_bind, hk.sees.din hm hr]
  by_cases ht : (w.dins h.inum).type = T_DIR
  · rw [if_pos ht, if_pos ht]
    exact addLinks_at hA hk hg hgr hb hn
  · rw [if_neg ht, if_neg ht]
    exact hk

/-- **`iunlockput`** in general. -/
theorem iunlockput_at (hA : Wants A) (hk : At sb w L B k) (hm : h ∈ w.held) (hL : h.slot ∈ L)
    (hlast : w.Last h → h.slot ∈ w.read ∧ Covers sb B h.inum)
    (honce : w.Last h → h.slot ∉ L.erase h.slot) (hn : B.length ≤ n) :
    (iunlockput h.slot k).Sat (fun _ k' => At sb (w.put h) (L.erase h.slot) B k') (Fails n A) :=
  (iunlock_at hk hm hL).bind fun _ _ h1 => iput_at hA h1 hm hlast honce hn

section Worlds

variable {d' : Dinode} {j : Nat}

theorem put_dins_ne (w : World) (g : Handle) {i : Nat} (hi : i ≠ g.inum) :
    (w.put g).dins i = w.dins i := by
  unfold World.put
  split
  · exact update_of_ne hi _ _
  · rfl

theorem put_held (w : World) (g : Handle) : (w.put g).held = w.held.erase g := by
  unfold World.put
  split <;> rfl

theorem put_read (w : World) (g : Handle) : (w.put g).read = stillRead w.held w.read g := by
  unfold World.put
  split <;> rfl

theorem cleared_dins : (cleared w g h d' j).dins = update w.dins g.inum d' := rfl

theorem childless_held : (childless w g h d' j).held = h ::ₘ g ::ₘ w.held := by
  unfold childless
  split <;> rfl

theorem childless_read :
    (childless w g h d' j).read = insert h.slot (insert g.slot w.read) := by
  unfold childless
  split <;> rfl

theorem childless_dins_ne {i : Nat} (hi : i ≠ g.inum) :
    (childless w g h d' j).dins i = w.dins i := by
  unfold childless
  split
  · show update (update w.dins g.inum d') g.inum (d'.addLinks (-1)) i = _
    rw [update_of_ne hi, update_of_ne hi]
  · exact update_of_ne hi _ _

end Worlds

/-- **The end of `sys_unlink`**: link counts go down, and both inodes are put. -/
theorem dropBoth_at {d' : Dinode} {j : Nat} (hA : Wants A) (hne : h.inum ≠ g.inum)
    (hslots : g.slot ≠ h.slot) (hw : Calm sb (cleared w g h d' j))
    (hk : At sb (cleared w g h d' j) [h.slot, g.slot] B k)
    (hcg : Covers sb B g.inum) (hch : Covers sb B h.inum) (hn : B.length ≤ n) :
    ((do addChild h.slot g.slot (-1)
         iunlockput g.slot
         addLinks h.slot (-1)
         iunlockput h.slot
         pure 0 : KM Int) k).Sat (fun r k' => r = 0 ∧ Calm sb (unlinked w g h d' j) ∧
      At sb (unlinked w g h d' j) [] B k') (Fails n A) := by
  have hm : h ∈ (cleared w g h d' j).held := Multiset.mem_cons_self _ _
  have hg : g ∈ (cleared w g h d' j).held := Multiset.mem_cons_of_mem (Multiset.mem_cons_self _ _)
  have hhg : h ≠ g := fun e => hne (congrArg Handle.inum e)
  refine (addChild_at (v := -1) hA hk hm (Set.mem_insert _ _) hg
    (Set.mem_insert_of_mem _ (Set.mem_insert _ _)) hcg.inode hn).bind fun _ k1 h1 => ?_
  rw [cleared_dins, update_of_ne hne, update_self] at h1
  have h1 : At sb (childless w g h d' j) [h.slot, g.slot] B k1 := h1
  have hg1 : g ∈ (childless w g h d' j).held := childless_held ▸ hg
  have hw1 : Calm sb (childless w g h d' j) := by
    unfold childless
    split
    · exact hw.relink hg (Set.mem_insert_of_mem _ (Set.mem_insert _ _))
        (by rw [cleared_dins, update_self, Dinode.addLinks_type])
    · exact hw
  refine (iunlockput_at hA h1 hg1 (List.mem_cons_of_mem _ List.mem_cons_self)
    (fun _ => ⟨?_, hcg⟩) (fun _ => ?_) hn).bind fun _ k2 h2 => ?_
  · rw [childless_read]
    exact Set.mem_insert_of_mem _ (Set.mem_insert _ _)
  · simp [hslots.symm, hslots]
  rw [List.erase_cons_tail (by simpa using hslots.symm), List.erase_cons_head] at h2
  have hm2 : h ∈ ((childless w g h d' j).put g).held := by
    rw [put_held, childless_held, Multiset.mem_erase_of_ne hhg]
    exact Multiset.mem_cons_self _ _
  have hr2 : h.slot ∈ ((childless w g h d' j).put g).read := by
    rw [put_read, childless_read]
    exact ⟨Set.mem_insert _ _, Or.inr hslots.symm⟩
  refine (addLinks_at (v := -1) hA h2 hm2 hr2 hch.inode hn).bind fun _ k3 h3 => ?_
  have hw3 := (hw1.put h1.sees hg1).relink hm2 hr2 (Dinode.addLinks_type _ (-1))
  rw [put_dins_ne _ _ hne, childless_dins_ne hne] at h3 hw3
  refine (iunlockput_at hA h3 hm2 List.mem_cons_self (fun _ => ⟨hr2, hch⟩)
    (fun _ => by rw [List.erase_cons_head]; exact List.not_mem_nil) hn).bind fun _ k4 h4 => ?_
  rw [List.erase_cons_head] at h4
  exact ⟨rfl, hw3.put h3.sees hm2, h4⟩

/-- **`sys_unlink` from `ilock(ip)` on.** -/
theorem unlinkEntry_at {j : Nat} {e : Dirent} (hA : Allows w h.inum A) (hw : Calm sb w)
    (hcl : w.Closed) (hk : At sb (((w.take g).lock g.slot).take h) [g.slot] B k)
    (hdir : (w.dins g.inum).type = T_DIR) (he : (dirents (w.files g.inum))[j]? = some e)
    (hdead : h.slot = g.slot → A .deadlock) (hlow : (w.dins h.inum).nlink < 1 → A (.panic .unlinkNlink))
    (hbit : ∀ b < sb.size, bblock sb b ∈ B) (hn : B.length + 3 ≤ n) :
    (unlinkEntry g.slot h.slot (DIRENT_SIZE * j) k).Sat (Ends sb n w fun w' =>
      h.inum ≠ g.inum ∧ 1 ≤ (w.dins h.inum).nlink ∧
      ((w.dins h.inum).type = T_DIR → ∀ e ∈ (dirents (w.files h.inum)).drop 2, e.live = false) ∧
      ∃ d', (w.dins g.inum).Linked d' ∧ w' = unlinked w g h d' j) (Fails n A) := by
  have hAw := hA.resources.wants
  have hm : h ∈ (lockBoth w g h).held := Multiset.mem_cons_self _ _
  have hg : g ∈ (lockBoth w g h).held := Multiset.mem_cons_of_mem (Multiset.mem_cons_self _ _)
  have hr : h.slot ∈ (lockBoth w g h).read := Set.mem_insert _ _
  have hgr : g.slot ∈ (lockBoth w g h).read := Set.mem_insert_of_mem _ (Set.mem_insert _ _)
  have hlg : Calm sb ((w.take g).lock g.slot) := hw.lock (by rw [hdir]; decide)
  refine (ilock_at hAw hk (Multiset.mem_cons_self _ _) (fun h0 => hA.noType h0)
    (fun hin => hdead (List.mem_singleton.mp hin)) (by omega)).bind fun _ k1 hq1 => ?_
  obtain ⟨hslot, h1⟩ := hq1
  have h1 : At sb (lockBoth w g h) [h.slot, g.slot] B k1 := h1
  have hne : h.inum ≠ g.inum := fun e => hslot (List.mem_singleton.mpr
    (congrArg Handle.slot (h1.sees.eq_of_inum hm hg e)))
  have hslots : g.slot ≠ h.slot := fun e => hslot (List.mem_singleton.mpr e.symm)
  rw [lift_inode_bind, show (k1.fs.itable h.slot).din = w.dins h.inum from h1.sees.din hm hr]
  by_cases hlt : (w.dins h.inum).nlink < 1
  · rw [if_pos hlt]
    exact h1.stop (hlow hlt) (fun p hp hwant => by cases hp; rcases hwant with h | h | h <;> cases h)
      (by omega)
  rw [if_neg hlt]
  refine (inUse_at hAw h1 hm hr hw.dirs (by omega)).bind fun used k2 hq2 => ?_
  obtain ⟨h2, hempty⟩ := hq2
  cases used with
  | true =>
    refine (iunlockput_back_at (w := (w.take g).lock g.slot)
      (R := insert h.slot (insert g.slot w.read)) hAw ?_ h2 (Set.subset_insert _ _)
      (hlg.kept_taken (R := insert h.slot (insert g.slot w.read)) h2.sees) (by omega)).bind fun _ k3 h3 => ?_
    · exact hcl.lock g
    exact quit_at hAw hw hcl h3 (by omega)
  | false =>
    have hcov : Covers sb (iblock sb h.inum :: iblock sb g.inum :: B) g.inum :=
      ⟨List.mem_cons_of_mem _ List.mem_cons_self, fun b hb =>
        List.mem_cons_of_mem _ (List.mem_cons_of_mem _ (hbit b hb))⟩
    have hsub : B ⊆ iblock sb h.inum :: iblock sb g.inum :: B := fun _ hb =>
      List.mem_cons_of_mem _ (List.mem_cons_of_mem _ hb)
    refine (clearDirent_at (h := g) hA.resources (h2.mono hsub)
      ⟨hg, hgr, hdir, hw.dirs.aligned _ hdir, hw.dirs.inums _ hdir⟩
      (List.getElem?_eq_some_iff.mp he).1 hcov (by simp only [List.length_cons]; omega)).bind fun _ k3 hq3 => ?_
    obtain ⟨b, d', hlink, h3⟩ := hq3
    have hcov' : ∀ i, iblock sb i ∈ iblock sb h.inum :: iblock sb g.inum :: B →
        Covers sb (b :: iblock sb h.inum :: iblock sb g.inum :: B) i := fun i hi =>
      ⟨List.mem_cons_of_mem _ hi, fun b hb => List.mem_cons_of_mem _ (hsub (hbit b hb))⟩
    have hw3 := (hlg.lock (h1.sees.type_ne_zero hm hr)).change hlink.type (Or.inl hlink.nlink)
      (hw.dirs.put hdir (show Dirent.zero.name.length = DIRSIZ from rfl)
        (List.getElem?_eq_some_iff.mp he).1.le fun h0 => absurd h0 (by decide))
    refine (dropBoth_at hAw hne hslots hw3 h3 (hcov' _ (List.mem_cons_of_mem _ List.mem_cons_self))
      (hcov' _ List.mem_cons_self) (by simp only [List.length_cons]; omega)).imp fun r k4 hq4 => ?_
    exact ⟨_, _, by simp only [List.length_cons]; omega, hq4.2.2, Or.inr
      ⟨hq4.1, hq4.2.1, hne, Int16.not_lt.mp hlt, hempty rfl, d', hlink, rfl⟩⟩

/-- **`sys_unlink`**: an entry is cleared, or the world is untouched. -/
theorem unlink_at (hA : Allows w (startInum c.inum path) A) (hw : Calm sb w) (hk : At sb w [] B k)
    (hc : c ∈ w.held) (hbit : ∀ b < sb.size, bblock sb b ∈ B) (hn : B.length + 3 ≤ n) :
    (unlink c.slot path k).Sat (Ends sb n w fun w' => ∃ g h d' j e name,
      Unlinking w c.inum path g h d' j e name ∧ w' = unlinked w g h d' j) (Fails n A) := by
  have hAw := hA.resources.wants
  have hcl := hk.sees.closed
  refine (nameiparent_at hA hw hk hc (by omega)).bind fun r k1 hq => ?_
  rcases hq with ⟨rfl, h1⟩ | ⟨dp, d, name, rfl, hfind, h1⟩
  · exact ⟨w, B, by omega, h1, Or.inl ⟨rfl, .refl w⟩⟩
  obtain ⟨hf, hdir⟩ := World.findParent_some hfind
  have hAd := hA.find hf
  refine (ilock_at (h := ⟨dp, d⟩) hAw h1 (Multiset.mem_cons_self _ _)
    (fun h0 => hAd.noType h0) (fun hin => by cases hin) (by omega)).bind fun _ k2 hq2 => ?_
  obtain ⟨-, h2⟩ := hq2
  by_cases hdots : namecmp name DOT = 0 ∨ namecmp name DOTDOT = 0
  · rw [if_pos hdots]
    exact quit_at (h := ⟨dp, d⟩) hAw hw hcl h2 (by omega)
  rw [if_neg hdots]
  push Not at hdots
  refine (dirlookup_at (h := ⟨dp, d⟩) hAw h2 (hw.openDir hdir)
    (fun _ _ _ _ _ _ => hA.resources _ rfl) (by omega)).bind fun r k3 hq3 => ?_
  cases hsc : scan name (dirents (w.files d)) with
  | none =>
    rw [show scan name (dirents (((w.take ⟨dp, d⟩).lock dp).files d)) = none from hsc] at hq3
    obtain ⟨rfl, h3⟩ := hq3
    exact quit_at (h := ⟨dp, d⟩) hAw hw hcl h3 (by omega)
  | some r' =>
    obtain ⟨i, off⟩ := r'
    rw [show scan name (dirents (((w.take ⟨dp, d⟩).lock dp).files d)) = some (i, off) from hsc] at hq3
    obtain ⟨ip, rfl, h3⟩ := hq3
    obtain ⟨j, e, hj, hname, rfl, rfl⟩ := scan_some hsc
    have hAi : Allows w e.inum.toNat A := hAd.lookup hdir (lookup_of_scan hsc)
    refine (unlinkEntry_at (g := ⟨dp, d⟩) (h := ⟨ip, e.inum.toNat⟩) hAi hw hcl h3 hdir hj
      (fun hslot => ?_) (fun hlow => ?_) hbit hn).imp fun r k4 hq4 => ?_
    · rcases hAd.sound with ⟨hsound, hlinked⟩ | hall
      · obtain ⟨hlive, hcname⟩ := Dirent.hasName_iff.mp hname
        have happart := hsound.apart d hlinked hdir e (List.mem_of_getElem? hj) hlive
          (fun hd => hdots.1 (namecmp_eq_zero.mpr (hcname.trans hd)))
          (fun hd => hdots.2 (namecmp_eq_zero.mpr (hcname.trans hd)))
        have heq := h3.sees.refs.eq_of_slot (Multiset.mem_cons_self _ _)
          (Multiset.mem_cons_of_mem (Multiset.mem_cons_self _ _)) hslot
        exact absurd (congrArg Handle.inum heq) happart
      · exact hall _
    · rcases hAi.sound with ⟨-, hlinked⟩ | hall
      · exact absurd hlow (Int16.not_lt.mpr hlinked.2)
      · exact hall _
    · obtain ⟨w', B', hlen, h4, hcase⟩ := hq4
      refine ⟨w', B', hlen, h4, hcase.imp_right fun hq => ?_⟩
      obtain ⟨hr, hw4, hne, hlinks, hempty, d', hlink, hw'⟩ := hq
      exact ⟨hr, hw4, ⟨dp, d⟩, ⟨ip, e.inum.toNat⟩, d', j, e, name,
        ⟨hfind, hdots.1, hdots.2, hj, hname, rfl, hne, hlinks, hempty, hlink⟩, hw'⟩

end Unlink

end HaiOS.Sysfile
