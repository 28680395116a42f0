/-
  File:      HaiOS/Sysfile/Resolve.lean
  Subject:   WHAT `namei` AND `nameiparent` ANSWER (kernel/fs.c).

  * `Resolves` -- the answer is the inode that the path leads to, and references and locks are as before
    but for the one returned;
  * `namex_resolves_iff` -- a path is resolved so exactly when the walk meets no obstacle;
  * `namex_meets_freed` -- an obstacle that two calls of `unlink` put into the way: the ".." of a removed
    working directory may name an inode that has been freed.
-/
import HaiOS.Sysfile.Calls
import HaiOS.Sysfile.Home

namespace HaiOS.Sysfile

open Lib

/-- `ip->ref` of the inode `j`, if it is in the table. -/
def refOf (s : Fs) (j : Nat) : Nat :=
  match findSlot s.itable j with
  | some ip => (s.itable ip).ref
  | none => 0

/-- **The path is resolved**: the answer is the inode `namex` is to find, every inode's `ref` is
    unchanged except for one added to it, and no inode is locked. -/
def Resolves (w : World) (parent : Bool) (i : Nat) (cs : List (List UInt8)) (k : Ks)
    (o : Outcome Halt Ks (Option (Nat × List UInt8))) : Prop :=
  ∃ r k', o = .ok r k' ∧
    r.map (fun p => ((k'.fs.itable p.1).inum, p.2)) = w.resolve parent i cs ∧
    (∀ j, refOf k'.fs j =
      refOf k.fs j + if (w.resolve parent i cs).map Prod.fst = some j then 1 else 0) ∧
    k'.locked = []

section Namex

variable {sb : Superblock} {w : World} {B : List Nat} {k : Ks} {c : Handle}

theorem refOf_eq {s : Fs} (hs : Sees sb w s) (j : Nat) :
    refOf s j = (w.held.map Handle.inum).count j := by
  unfold refOf
  rw [Multiset.count_map]
  cases hf : findSlot s.itable j with
  | none =>
    refine (Multiset.card_eq_zero.mpr (Multiset.filter_eq_nil.mpr fun h hm hj => ?_)).symm
    have hr := hs.ref_pos hm
    exact findSlot_none hf h.slot (hs.ok.inv.slots.bound _ hr) hr ((hs.inum hm).trans hj.symm)
  | some ip =>
    obtain ⟨-, hr, hi⟩ := findSlot_some hf
    have hmem := hs.refs.mem hr
    -- every reference to the inode is one to the slot
    have hfilter : w.held.filter (fun h => j = h.inum) = w.held.filter (fun h => ⟨ip, j⟩ = h) := by
      refine Multiset.filter_congr fun h hm => ⟨fun e => ?_, fun e => by rw [← e]⟩
      rw [hi] at hmem
      exact hs.eq_of_inum hmem hm e
    rw [hfilter, ← Multiset.count_eq_card_filter_eq]
    show (s.itable ip).ref = _
    rw [hs.refs.refs, hi]

/-- **Path resolution.** For every path, working directory and directory tree, inside a transaction:
    `skipelem` yields the components, and `namei` and `nameiparent` answer as they should, with
    references and locks as before but for the reference returned, exactly when every inode that
    the walk locks is allocated and the inode table has room for the inodes that it takes
    references to. -/
theorem namex_resolves_iff (hk : At sb w [] B k) (hB : B.length < LOGBLOCKS) (hw : Calm sb w)
    (hc : c ∈ w.held) (path : List UInt8) (parent : Bool) :
    elems path.length path = components path ∧
    (Resolves w parent (startInum c.inum path) (components path) k (namex c.slot path parent k) ↔
      Clear w parent c.inum path) := by
  refine ⟨elems_eq (Nat.le_refl _), ?_⟩
  have hrun : (namex c.slot path parent k).Sat _ (Fails B.length _) := namex_at
    (A := fun e => (∃ p, e = .panic p ∧ Wanting p) ∨ ¬ Clear w parent c.inum path)
    (fun p hp => Or.inl ⟨p, rfl, hp⟩) hw hk hc (fun hno => Or.inr fun ho => hno ?_)
    (fun hno => Or.inr hno) (Nat.le_refl _)
  · constructor
    · rintro ⟨r, k', hok, -⟩
      exact (hrun.of_ok hok).1
    · intro ho
      cases hrun' : namex c.slot path parent k with
      | fail e k' =>
        rw [hrun'] at hrun
        obtain ⟨⟨p, rfl, hp⟩ | hno, hhonest, B', hlog, hlen⟩ := hrun
        · exact absurd (hhonest p rfl hp) (hlog.not_exhausted (by omega))
        · exact absurd ho hno
      | ok r k' =>
        obtain ⟨-, hq⟩ := hrun.of_ok hrun'
        refine ⟨r, k', rfl, ?_⟩
        cases hres : w.resolve parent (startInum c.inum path) (components path) with
        | none =>
          rw [hres] at hq
          obtain ⟨rfl, h'⟩ := hq
          refine ⟨rfl, fun j => ?_, h'.locked⟩
          rw [refOf_eq h'.sees, refOf_eq hk.sees]
          rfl
        | some a =>
          obtain ⟨i, name⟩ := a
          rw [hres] at hq
          obtain ⟨ip, rfl, h'⟩ := hq
          refine ⟨?_, fun j => ?_, h'.locked⟩
          · show some ((k'.fs.itable ip).inum, name) = _
            rw [h'.sees.inum (h := ⟨ip, i⟩) (Multiset.mem_cons_self _ _)]
          · rw [refOf_eq h'.sees, refOf_eq hk.sees]
            show (Multiset.map Handle.inum (_ ::ₘ w.held)).count j = _
            rw [Multiset.map_cons, Multiset.count_cons]
            simp only [Option.map_some, Option.some.injEq, eq_comm]
  · exact ho.2.mono fun _ _ _ => trivial

end Namex

/-- `namei("/../a")` and `nameiparent("/../a")` when the root, which is its own parent, has no "a". -/
theorem namex_resolves_iff_missing : ∃ k, beginOp (Ks.boot smallSb homeDisk) = .ok () k ∧
    elems 5 [SLASH, 46, 46, SLASH, 97] = [[46, 46], [97]] ∧
    (homeWorld smallSb homeDisk).resolve false ROOTINO [[46, 46], [97]] = none ∧
    (homeWorld smallSb homeDisk).resolve true ROOTINO [[46, 46], [97]] = some (ROOTINO, [97]) ∧
    ∀ parent, Resolves (homeWorld smallSb homeDisk) parent ROOTINO [[46, 46], [97]] k
      (namex 0 [SLASH, 46, 46, SLASH, 97] parent k) := by
  obtain ⟨k, hrun, -, hk⟩ := beginOp_idle usable_homeDisk.idle
  have hone : (bitmapBlocks smallSb).length ≤ 1 := length_bitmapBlocks (by decide)
  have hlen : (bitmapBlocks smallSb).length < LOGBLOCKS := by
    simp only [LOGBLOCKS, MAXOPBLOCKS]
    omega
  have hroot : rootHandle ∈ (homeWorld smallSb homeDisk).held := Multiset.mem_singleton_self _
  have hin : ROOTINO ∈ (homeWorld smallSb homeDisk).inums :=
    Multiset.mem_toFinset.mpr (Multiset.mem_map_of_mem _ hroot)
  have hdots : (homeWorld smallSb homeDisk).lookup ROOTINO [46, 46] = some ROOTINO := by
    decide +kernel
  have hmissing : (homeWorld smallSb homeDisk).lookup ROOTINO [97] = none := by decide +kernel
  have htype := usable_homeDisk.root
  have hiff := fun parent => namex_resolves_iff hk hlen usable_homeDisk.calm hroot
    [SLASH, 46, 46, SLASH, 97] parent
  refine ⟨k, hrun, (hiff true).1, by decide +kernel, by decide +kernel, fun parent =>
    (hiff parent).2.mpr ⟨fun _ => Or.inl hin, htype, fun _ _ j hj => ?_⟩⟩
  obtain rfl := Option.some.inj (hdots.symm.trans hj)
  refine ⟨Or.inl (Finset.mem_insert_of_mem hin), htype, fun _ _ j hj => ?_⟩
  cases hmissing.symm.trans hj

/-- A process makes `/a/b`, goes there, removes both directories, and begins another call; the answers,
    and its `cwd`. -/
def strand : KM (List Int × Nat) := do
  let r1 ← sysMkdir 0 (some [97])
  let r2 ← sysMkdir 0 (some [97, SLASH, 98])
  let r ← sysChdir 0 (some [97, SLASH, 98])
  let cwd := r.getD 0
  let r3 ← sysUnlink cwd (some [46, 46, SLASH, 98])
  let r4 ← sysUnlink cwd (some [SLASH, 97])
  beginOp
  pure ([r1, r2, r3, r4], cwd)

/-- **`namei("../x")` panics** in a working directory that has been removed, and its parent after it:
    the inode that ".." names is free. -/
theorem namex_meets_freed : ∃ cwd k, strand (Ks.boot smallSb homeDisk) = .ok ([0, 0, 0, 0], cwd) k ∧
    (∃ k', namex cwd [46, 46, SLASH, 120] false k = .fail (.panic .ilockNoType) k') ∧
    ∀ w i cs, ¬ Resolves w false i cs k (namex cwd [46, 46, SLASH, 120] false k) := by
  have hrun : ((strand (Ks.boot smallSb homeDisk)).test fun r k => decide (r.1 = [0, 0, 0, 0] ∧
      (namex r.2 [46, 46, SLASH, 120] false k).failure = some (.panic .ilockNoType))) = true := by
    decide +kernel
  obtain ⟨⟨answers, cwd⟩, k, hk, hq⟩ := Outcome.exists_of_test hrun
  obtain ⟨rfl, hfail⟩ := of_decide_eq_true hq
  refine ⟨cwd, k, hk, ⟨_, Outcome.eq_fail hfail⟩, ?_⟩
  rintro w i cs ⟨r, k', hok, -⟩
  rw [hok] at hfail
  cases hfail

end HaiOS.Sysfile
