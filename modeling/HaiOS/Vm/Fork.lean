/-
  File:      HaiOS/Vm/Fork.lean
  Subject:   WHAT `uvmcopy` DOES under the account of Vm/Account, and what it costs.

  * `PageTable.shared t v` -- the entries of `t` with those below page `v` shared: writable ones
    turned copy-on-write;
  * `tablesFor new old v` -- the tables that `new` lacks for the pages that `old` maps below `v`;
  * `uvmcopy_sat` -- it succeeds, with both tables sharing every page, when memory has the tables
    for all pages; else it stops at the first page `u` for whose tables memory is too small: the
    child maps nothing, but the parent's entries below `u` stay shared.
-/
import HaiOS.Vm.Growth

namespace HaiOS.Vm

open Lib Lib.Routine

/-- The entry that parent and child share. -/
def Pte.share (e : Pte) : Pte := ⟨e.ppn, e.flags.share⟩

theorem Flags.share_w (f : Flags) : f.share.w = false := by
  unfold Flags.share
  split
  · rfl
  · exact Bool.eq_false_iff.mpr ‹_›

namespace PageTable

/-- The entries below page `v` are shared. -/
def shared (t : PageTable) (v : Nat) : Nat → Option Pte := fun v' =>
  if v' < v then (t.leaf v').map Pte.share else t.leaf v'

theorem shared_zero (t : PageTable) : t.shared 0 = t.leaf := by
  funext v'
  exact if_neg (by omega)

theorem shared_none (t : PageTable) (v v' : Nat) : t.shared v v' = none ↔ t.leaf v' = none := by
  unfold shared
  split
  · exact Option.map_eq_none_iff
  · exact Iff.rfl

theorem shared_ppn {t : PageTable} {v v' : Nat} {e : Pte} (h : t.shared v v' = some e) :
    ∃ e0, t.leaf v' = some e0 ∧ e0.ppn = e.ppn := by
  unfold shared at h
  split at h
  · obtain ⟨e0, he, rfl⟩ := Option.map_eq_some_iff.mp h
    exact ⟨e0, he, rfl⟩
  · exact ⟨e, h, rfl⟩

/-- The table with the entries below `v` shared. -/
def share (t : PageTable) (v : Nat) : PageTable := { t with leaf := t.shared v }

end PageTable

/-! ## 1. The tables a child needs -/

/-- The tables that `new` lacks for the pages that `old` maps below `v`. -/
def tablesFor (new old : PageTable) (v : Nat) : Nat :=
  ((Finset.range 512).filter fun i =>
      new.mid i = none ∧ ∃ v' < v, old.leaf v' ≠ none ∧ v' / 512 / 512 = i).card +
  ((Finset.range (512 * 512)).filter fun k =>
      new.low k = none ∧ ∃ v' < v, old.leaf v' ≠ none ∧ v' / 512 = k).card

/-- The number of members of a family that are used below `v`, one page further. -/
theorem card_used_succ {P : Nat → Prop} [DecidablePred P] {Q : Nat → Prop} [DecidablePred Q]
    (g : Nat → Nat) (N v : Nat) (hlt : Q v → g v < N) :
    ((Finset.range N).filter fun i => P i ∧ ∃ v' < v + 1, Q v' ∧ g v' = i).card =
      ((Finset.range N).filter fun i => P i ∧ ∃ v' < v, Q v' ∧ g v' = i).card +
        if Q v ∧ P (g v) ∧ ¬ ∃ v' < v, Q v' ∧ g v' = g v then 1 else 0 := by
  by_cases h : Q v ∧ P (g v) ∧ ¬ ∃ v' < v, Q v' ∧ g v' = g v
  · obtain ⟨hQ, hP, hno⟩ := h
    rw [if_pos ⟨hQ, hP, hno⟩, ← Finset.card_insert_of_notMem (a := g v)]
    · refine congrArg Finset.card (Finset.ext fun i => ?_)
      simp only [Finset.mem_filter, Finset.mem_range, Finset.mem_insert]
      constructor
      · rintro ⟨hi, hPi, v', hv', hQ', e⟩
        by_cases hvv : v' = v
        · exact Or.inl (by rw [← e, hvv])
        · exact Or.inr ⟨hi, hPi, v', by omega, hQ', e⟩
      · rintro (rfl | ⟨hi, hPi, v', hv', hQ', e⟩)
        · exact ⟨hlt hQ, hP, v, by omega, hQ, rfl⟩
        · exact ⟨hi, hPi, v', by omega, hQ', e⟩
    · simp only [Finset.mem_filter, not_and]
      exact fun _ _ => hno
  · have hset : ((Finset.range N).filter fun i => P i ∧ ∃ v' < v + 1, Q v' ∧ g v' = i) =
        (Finset.range N).filter fun i => P i ∧ ∃ v' < v, Q v' ∧ g v' = i := by
      ext i
      simp only [Finset.mem_filter, Finset.mem_range]
      constructor
      · rintro ⟨hi, hPi, v', hv', hQ', e⟩
        by_cases hvv : v' = v
        · subst hvv
          subst e
          by_contra hno
          exact h ⟨hQ', hPi, fun hex => hno ⟨hi, hPi, hex⟩⟩
        · exact ⟨hi, hPi, v', by omega, hQ', e⟩
      · rintro ⟨hi, hPi, v', hv', hQ', e⟩
        exact ⟨hi, hPi, v', by omega, hQ', e⟩
    rw [hset, if_neg h]
    rfl

/-- The tables of `new` are those of `new0` and those for the pages that `old` maps below `v`. -/
structure Provides (new0 new old : PageTable) (v : Nat) : Prop where
  mid : ∀ i, new.mid i = none ↔
    new0.mid i = none ∧ ¬ ∃ v' < v, old.leaf v' ≠ none ∧ v' / 512 / 512 = i
  low : ∀ k, new.low k = none ↔
    new0.low k = none ∧ ¬ ∃ v' < v, old.leaf v' ≠ none ∧ v' / 512 = k

section

variable {new0 new old : PageTable} {v : Nat}

theorem provides_zero (t old : PageTable) : Provides t t old 0 :=
  ⟨fun i => by simp, fun k => by simp⟩

/-- **One page further** the child needs the tables that are missing for that page. -/
theorem tablesFor_succ (h : Provides new0 new old v) (hv : v < NVPN) (hl : old.leaf v ≠ none) :
    tablesFor new0 old (v + 1) = tablesFor new0 old v + new.missing v := by
  have hv' : v < 67108864 := hv
  unfold tablesFor PageTable.missing
  rw [card_used_succ (fun v' => v' / 512 / 512) 512 v (fun _ => by omega),
    card_used_succ (fun v' => v' / 512) (512 * 512) v (fun _ => by omega)]
  have e1 : (if old.leaf v ≠ none ∧ new0.mid (v / 512 / 512) = none ∧
      ¬ ∃ v' < v, old.leaf v' ≠ none ∧ v' / 512 / 512 = v / 512 / 512 then 1 else 0) =
      if new.mid (v / 512 / 512) = none then 1 else 0 :=
    if_congr ⟨fun hc => (h.mid _).mpr hc.2, fun hc => ⟨hl, (h.mid _).mp hc⟩⟩ rfl rfl
  have e2 : (if old.leaf v ≠ none ∧ new0.low (v / 512) = none ∧
      ¬ ∃ v' < v, old.leaf v' ≠ none ∧ v' / 512 = v / 512 then 1 else 0) =
      if new.low (v / 512) = none then 1 else 0 :=
    if_congr ⟨fun hc => (h.low _).mpr hc.2, fun hc => ⟨hl, (h.low _).mp hc⟩⟩ rfl rfl
  rw [e1, e2]
  omega

/-- A page that is not mapped needs no table. -/
theorem tablesFor_skip (hv : v < NVPN) (hl : old.leaf v = none) :
    tablesFor new0 old (v + 1) = tablesFor new0 old v := by
  have hv' : v < 67108864 := hv
  unfold tablesFor
  rw [card_used_succ (fun v' => v' / 512 / 512) 512 v (fun _ => by omega),
    card_used_succ (fun v' => v' / 512) (512 * 512) v (fun _ => by omega)]
  rw [if_neg fun hc => hc.1 hl, if_neg fun hc => hc.1 hl]
  omega

theorem exists_lt_succ_iff {Q : Nat → Prop} (v : Nat) :
    (∃ v' < v + 1, Q v') ↔ (∃ v' < v, Q v') ∨ Q v := by
  constructor
  · rintro ⟨v', hv', hq⟩
    by_cases e : v' = v
    · exact Or.inr (e ▸ hq)
    · exact Or.inl ⟨v', by omega, hq⟩
  · rintro (⟨v', hv', hq⟩ | hq)
    · exact ⟨v', by omega, hq⟩
    · exact ⟨v, by omega, hq⟩

theorem Provides.skip (h : Provides new0 new old v) (hl : old.leaf v = none) :
    Provides new0 new old (v + 1) := by
  refine ⟨fun i => ?_, fun k => ?_⟩
  · rw [h.mid, exists_lt_succ_iff]
    simp [hl]
  · rw [h.low, exists_lt_succ_iff]
    simp [hl]

theorem Provides.step {new' : PageTable} (h : Provides new0 new old v) (hl : old.leaf v ≠ none)
    (hm : ∀ i, new'.mid i = none ↔ new.mid i = none ∧ i ≠ v / 512 / 512)
    (hk : ∀ k, new'.low k = none ↔ new.low k = none ∧ k ≠ v / 512) :
    Provides new0 new' old (v + 1) := by
  refine ⟨fun i => ?_, fun k => ?_⟩
  · rw [hm, h.mid, exists_lt_succ_iff, not_or, and_assoc]
    refine and_congr_right fun _ => and_congr_right fun _ => ?_
    exact ⟨fun hne he => hne he.2.symm, fun hne he => hne ⟨hl, he.symm⟩⟩
  · rw [hk, h.low, exists_lt_succ_iff, not_or, and_assoc]
    refine and_congr_right fun _ => and_congr_right fun _ => ?_
    exact ⟨fun hne he => hne he.2.symm, fun hne he => hne ⟨hl, he.symm⟩⟩

end

/-! ## 2. The loop -/

/-- **`uvmcopy` at page `v`**: the entries below `v` are shared, the child maps them and nothing else
    in the user range, and memory paid for the child's tables. -/
structure Copying (m0 m : Mem) (old new0 new : PageTable) (ts : List PageTable) (ks : List Nat)
    (v : Nat) : Prop where
  inv : Inv m (new :: old.share v :: ts) ks
  keeps : m0.Keeps (Seen old.leaf ts ks) m
  copied : ∀ v', new.leaf v' = if v' < v then old.shared v v'
    else if v' < USERVPN then none else new0.leaf v'
  tables : Provides new0 new old v
  paid : m0.freelist.length = m.freelist.length + tablesFor new0 old v
  oom : m.oomWarned = m0.oomWarned

section

variable {m0 m : Mem} {old new0 new : PageTable} {ts : List PageTable} {ks : List Nat} {v : Nat}

theorem share_succ_none (h : old.leaf v = none) : old.share (v + 1) = old.share v := by
  unfold PageTable.share
  congr 1
  funext v'
  unfold PageTable.shared
  by_cases e : v' = v
  · subst e
    rw [if_pos (by omega), if_neg (by omega), h]
    rfl
  · exact if_congr (by omega) rfl rfl

variable {e : Pte}

theorem share_succ_some (h : old.leaf v = some e) :
    old.share (v + 1) = (old.share v).setLeaf v (some e.share) := by
  unfold PageTable.share PageTable.setLeaf
  congr 1
  funext v'
  unfold PageTable.shared
  rw [Function.update_apply]
  by_cases e' : v' = v
  · subst e'
    rw [if_pos (by omega), if_pos rfl, h]
    rfl
  · rw [if_neg e']
    exact if_congr (by omega) rfl rfl

theorem setLeaf_same {t : PageTable} (h : t.leaf v = some e) : t.setLeaf v (some e) = t := by
  unfold PageTable.setLeaf
  rw [← h, Function.update_eq_self]

theorem share_leaf_self (old : PageTable) (v : Nat) : (old.share v).leaf v = old.leaf v :=
  if_neg (by omega)

section

variable (h : Copying m0 m old new0 new ts ks v) (hv : v < USERVPN)
include h hv

/-- A page that the parent does not map is skipped. -/
theorem Copying.skip (hl : old.leaf v = none) : Copying m0 m old new0 new ts ks (v + 1) := by
  have hs := share_succ_none hl
  refine ⟨hs ▸ h.inv, h.keeps, fun v' => ?_, h.tables.skip hl, ?_, h.oom⟩
  · have hsh : old.shared (v + 1) = old.shared v := congrArg PageTable.leaf hs
    rw [h.copied, hsh]
    by_cases e : v' = v
    · subst e
      rw [if_neg (by omega), if_pos hv, if_pos (by omega)]
      exact ((PageTable.shared_none old v' v').mpr hl).symm
    · exact if_congr (by omega) rfl rfl
  · rw [tablesFor_skip (Nat.lt_of_lt_of_le hv (by decide)) hl]
    exact h.paid

/-- The page that is about to be shared: the child does not map it yet, and only the parent's own
    entry for it can be writable. -/
theorem Copying.alone (hl : old.leaf v = some e) : new.users e.ppn = 0 := by
  have hwf := h.inv.wf (old.share v) (by simp)
  by_contra hne
  obtain ⟨v', hv', e', he', hpp⟩ := PageTable.users_pos.mp (Nat.pos_of_ne_zero hne)
  rw [h.copied] at he'
  split at he'
  · have hl' : (old.share v).leaf v = some e := by
      rw [share_leaf_self, hl]
    have := hwf.inj v' v e' e hv' hv he' hl' hpp
    omega
  · cases he'

/-- **The page is shared**: the child's entry, the reference, the parent's entry. -/
theorem Copying.join {e : Pte} (hl : old.leaf v = some e) {m1 m2 : Mem} {new1 : PageTable}
    (hw : Walks m m1 new new1 (old.share v :: ts) ks v true)
    (he : m2.Exact (refs (new1.setLeaf v (some e.share) :: (old.share v).setLeaf v (some e.share) :: ts) ks)) :
    Inv m2 (new1.setLeaf v (some e.share) :: (old.share v).setLeaf v (some e.share) :: ts) ks := by
  have hol : (old.share v).leaf v = some e := by
    rw [share_leaf_self, hl]
  have hswap : (new1 :: old.share v :: ts).Perm (old.share v :: new1 :: ts) := List.Perm.swap _ _ _
  -- first the parent's entry: no page gains a reference by that
  have h1 : Inv m1 (new1 :: (old.share v).setLeaf v (some e.share) :: ts) ks := by
    have h2 := (hw.inv.perm hswap (List.Perm.refl ks)).reflag hol (f := e.flags.share) fun hf => by
      rw [Flags.share_w] at hf
      cases hf
    exact h2.perm (List.Perm.swap _ _ _) (List.Perm.refl ks)
  have hnl : new1.leaf v = none := by
    rw [hw.leaf, h.copied, if_neg (by omega), if_pos hv]
  have hno : new1.users e.ppn = 0 := by
    have := h.alone hv hl
    unfold PageTable.users at *
    rw [hw.leaf]
    exact this
  have hself : ((old.share v).setLeaf v (some e.share)).leaf v = some e.share := by
    rw [PageTable.leaf_setLeaf, if_pos rfl]
  have hwf := hw.inv.wf (old.share v) (by simp)
  refine h1.join hv hnl (fun hn => ((hw.lows rfl _).mp hn).2 rfl) hno
    (Inv.users_pos (e := e.share) List.mem_cons_self hv hself) (fun s hs v' hv' e' he' hpp => ?_)
    (Flags.share_w _) he
  rcases List.mem_cons.mp hs with rfl | hs
  · rcases Inv.leaf_cases he' with ⟨-, ⟨⟩⟩ | ⟨hne, he'⟩
    · exact Flags.share_w _
    · exact absurd (hwf.inj v' v e' e hv' hv he' hol hpp) hne
  · -- another process that could write to the page would be its only user
    by_contra hw'
    have h3 := hw.inv.sole s (by simp [hs]) v' hv' e' he' (by simpa using hw')
    have h4 : 0 < (old.share v).users e'.ppn := PageTable.users_pos.mpr ⟨v, hv, e, hol, hpp.symm⟩
    have h5 : 0 < s.users e'.ppn := PageTable.users_pos.mpr ⟨v', hv', e', he', rfl⟩
    have h6 := Inv.users_le hs e'.ppn
    unfold refs at h3
    rw [userRefs_cons, userRefs_cons] at h3
    omega

end

/-- The references after the page is shared. -/
theorem refs_share (ts : List PageTable) (ks : List Nat) (hv : v < USERVPN) {e : Pte} (hol : (old.share v).leaf v = some e)
    (hnl : new.leaf v = none) (q : Nat) :
    refs (new.setLeaf v (some e.share) :: (old.share v).setLeaf v (some e.share) :: ts) ks q =
      refs (new :: old.share v :: ts) ks q + names q (some e.ppn) := by
  have h1 := PageTable.users_setLeaf (t := new) hv (some e.share) q
  have h2 := PageTable.users_setLeaf (t := old.share v) hv (some e.share) q
  have hm : maps q (some e.share) = names q (some e.ppn) := rfl
  rw [hnl, maps_none, hm] at h1
  rw [hol, maps_some, hm] at h2
  rw [refs_cons, refs_cons, refs_cons, refs_cons, PageTable.tables_setLeaf, PageTable.tables_setLeaf]
  omega

/-- The pages the parent maps are mapped by its shared entries. -/
theorem live_share {q : Nat} (hq : Seen old.leaf ts ks q) (v : Nat) :
    Live (old.share v :: ts) ks q := by
  rcases hq with hq | ⟨v', hv', e', he', hpp⟩
  · exact live_cons hq
  · refine Seen.live (Or.inr ?_)
    cases hs : old.shared v v' with
    | none =>
      rw [(PageTable.shared_none old v v').mp hs] at he'
      cases he'
    | some e1 =>
      obtain ⟨e0, h0, h1⟩ := PageTable.shared_ppn hs
      rw [he'] at h0
      cases h0
      exact ⟨v', hv', e1, hs, h1.symm.trans hpp⟩

/-- **One turn of `uvmcopy` succeeds.** -/
theorem Copying.step (h : Copying m0 m old new0 new ts ks v) (hv : v < USERVPN) {e : Pte}
    (hl : old.leaf v = some e) {m1 m2 : Mem} {new1 : PageTable}
    (hw : Walks m m1 new new1 (old.share v :: ts) ks v true)
    (he : m2.Exact (refs (new1.setLeaf v (some e.share) :: (old.share v).setLeaf v (some e.share) :: ts) ks))
    (hfirst : m2.first = m1.first) (hram : m2.ram = m1.ram) (hoom : m2.oomWarned = m1.oomWarned)
    (hfree : m2.freelist = m1.freelist) :
    Copying m0 m2 old new0 (new1.setLeaf v (some e.share)) ts ks (v + 1) := by
  have hne : old.leaf v ≠ none := by
    rw [hl]
    exact Option.some_ne_none e
  have hvn : v < NVPN := Nat.lt_of_lt_of_le hv (by decide)
  refine ⟨?_, ?_, fun v' => ?_, h.tables.step hne (hw.mids rfl) (hw.lows rfl), ?_, ?_⟩
  · rw [share_succ_some hl]
    exact h.join hv hl hw he
  · have hk : m0.Keeps (Seen old.leaf ts ks) m1 :=
      h.keeps.trans (hw.keeps.mono fun q hq => live_cons (live_share hq v))
    exact ⟨hfirst.trans hk.first, fun q hq => by rw [hram]; exact hk.ram q hq,
      fun ho => hoom.trans (hk.oom ho)⟩
  · rw [PageTable.leaf_setLeaf, hw.leaf, h.copied]
    by_cases e' : v' = v
    · subst e'
      rw [if_pos rfl, if_pos (by omega)]
      unfold PageTable.shared
      rw [if_pos (by omega), hl]
      rfl
    · rw [if_neg e']
      by_cases hlt : v' < v
      · rw [if_pos hlt, if_pos (by omega)]
        unfold PageTable.shared
        rw [if_pos hlt, if_pos (by omega)]
      · rw [if_neg hlt, if_neg (by omega : ¬ v' < v + 1)]
  · rw [tablesFor_succ h.tables hvn hne, hfree, h.paid, hw.paid rfl]
    omega
  · rw [hoom, hw.oom, h.oom]
    simp

/-- **How `uvmcopy` ends**, from page `v` on for `n` pages. -/
def CopyEnd (m0 m' : Mem) (old new0 : PageTable) (ts : List PageTable) (ks : List Nat) (v n : Nat)
    (r : Bool × PageTable × PageTable) : Prop :=
  (r.1 = true ∧ r.2.1 = old.share (v + n) ∧ Copying m0 m' old new0 r.2.2 ts ks (v + n)) ∨
  (r.1 = false ∧ m'.oomWarned = true ∧ m0.Keeps (Seen old.leaf ts ks) m' ∧
    (∀ v', r.2.2.leaf v' = if v' < USERVPN then none else new0.leaf v') ∧
    ∃ u, v ≤ u ∧ u < v + n ∧ old.leaf u ≠ none ∧ r.2.1 = old.share u ∧
      Inv m' (r.2.2 :: old.share u :: ts) ks ∧
      tablesFor new0 old u ≤ m0.freelist.length ∧ m0.freelist.length < tablesFor new0 old (u + 1))

theorem uvmcopyLoop_sat (n : Nat) (h : Copying m0 m old new0 new ts ks v) (hn : v + n ≤ USERVPN) :
    (uvmcopyLoop n (old.share v) new (v * PGSIZE) m).Returns
      fun r m' => CopyEnd m0 m' old new0 ts ks v n r := by
  induction n generalizing m new v with
  | zero => exact Or.inl ⟨rfl, rfl, h⟩
  | succ n ih =>
    have hv : v < USERVPN := by omega
    have hvn : v < NVPN := Nat.lt_of_lt_of_le hv (by decide)
    have hwf := h.inv.wf (old.share v) (by simp)
    unfold uvmcopyLoop
    rw [hwf.pte_eq, page_div, page_succ, share_leaf_self]
    have hgo : ∀ r m', CopyEnd m0 m' old new0 ts ks (v + 1) n r →
        CopyEnd m0 m' old new0 ts ks v (n + 1) r := by
      rintro r m' (⟨h1, h2, h3⟩ | ⟨h1, h2, h3, h4, u, h5, h6, h7⟩)
      · have e : v + (n + 1) = v + 1 + n := by omega
        exact Or.inl ⟨h1, e ▸ h2, e ▸ h3⟩
      · exact Or.inr ⟨h1, h2, h3, h4, u, by omega, by omega, h7⟩
    cases hl : old.leaf v with
    | none =>
      have hs := share_succ_none hl
      rw [← hs]
      exact (ih (h.skip hv hl) (by omega)).imp hgo
    | some e =>
      have hne : old.leaf v ≠ none := by
        rw [hl]
        exact Option.some_ne_none e
      have hnl : new.leaf v = none := by
        rw [h.copied, if_neg (by omega), if_pos hv]
      refine (mappages_sat h.inv hvn hnl e.ppn e.flags.share).bind
        fun r m1 ⟨new1, hw, hr⟩ => ?_
      obtain ⟨ok, new2⟩ := r
      cases ok with
      | false =>
        have e2 : new2 = new1 := hr
        subst e2
        have hz : (0 : Nat) = 0 * PGSIZE := rfl
        have hu := uvmunmap_sat (v := 0) (v + 1) hw.inv (by omega)
        rw [← hz] at hu
        refine hu.bind fun new3 m2 ⟨e3, hinv3, hk3, _⟩ => ?_
        have hshort := hw.short rfl
        have hpaid := h.paid
        have hsucc := tablesFor_succ h.tables hvn hne
        refine Or.inr ⟨rfl, hk3.oom (by rw [hw.oom]; simp), ?_, fun v' => ?_, v,
          Nat.le_refl v, by omega, hne, rfl, hinv3, by omega, by omega⟩
        · refine (h.keeps.trans (hw.keeps.mono fun q hq => live_cons (live_share hq v))).trans ?_
          exact hk3.mono fun q hq => live_cons (live_share hq v)
        · show new3.leaf v' = _
          rw [e3]
          show (if 0 ≤ v' ∧ v' < 0 + (v + 1) then none else new2.leaf v') = _
          rw [hw.leaf, h.copied]
          by_cases h1 : v' < v + 1
          · rw [if_pos (by omega), if_pos (by omega)]
          · rw [if_neg (by omega), if_neg (by omega : ¬ v' < v)]
      | true =>
        have e2 : new2 = new1.setLeaf v (some e.share) := hr
        subst e2
        have hol : (old.share v).leaf v = some e := by
          rw [share_leaf_self, hl]
        have hnl1 : new1.leaf v = none := by
          rw [hw.leaf, hnl]
        have hrefs := refs_share ts ks hv hol hnl1
        have hp1 := hrefs e.ppn
        have hq1 : ∀ q, q ≠ e.ppn → refs (new1.setLeaf v (some e.share) ::
            (old.share v).setLeaf v (some e.share) :: ts) ks q =
            refs (new1 :: old.share v :: ts) ks q := fun q hq => by
          rw [hrefs, names_ne fun e => hq e.symm, Nat.add_zero]
        rw [names_self] at hp1
        have hmem : old.share v ∈ new1 :: old.share v :: ts := by simp
        have hpos := Inv.users_pos hmem hv hol
        have hsmall := hw.inv.refs_small hmem hv hol
        have hlive : 0 < refs (new1 :: old.share v :: ts) ks e.ppn := by
          unfold refs
          omega
        refine (kaddref_sat hw.inv.exact hlive (by omega) hp1 hq1).bind
          fun r m2 hm2 => ?_
        obtain ⟨hr0, hexact, hfirst, hram, hoom, hfree⟩ := hm2
        have hstep := h.step hv hl hw hexact hfirst hram hoom hfree
        -- the parent's entry is as if it were always written
        have hold : (if e.flags.share = e.flags then old.share v
            else (old.share v).setLeaf v (some ⟨e.ppn, e.flags.share⟩)) = old.share (v + 1) := by
          rw [share_succ_some hl]
          split
          · rename_i hsame
            have : e.share = e := by
              unfold Pte.share
              rw [hsame]
            rw [this, setLeaf_same hol]
          · rfl
        rw [if_neg (by omega : ¬ r < 0), hold]
        exact (ih hstep (by omega)).imp hgo

/-- **`uvmcopy`** into a table whose user range is empty. -/
theorem uvmcopy_sat (h : Inv m (new :: old :: ts) ks) {sz : Nat} (hs : sz ≤ TRAPFRAME)
    (hnew : ∀ v < USERVPN, new.leaf v = none) :
    (uvmcopy old new sz m).Returns fun r m' => CopyEnd m m' old new ts ks 0 (pages sz) r := by
  have h0 : old.share 0 = old := by
    unfold PageTable.share
    rw [PageTable.shared_zero]
  have hstart : Copying m m old new new ts ks 0 := by
    refine ⟨by rwa [h0], Mem.Keeps.refl m, fun v' => ?_, provides_zero new old, ?_, rfl⟩
    · rw [if_neg (by omega)]
      split
      · exact hnew v' ‹_›
      · rfl
    · unfold tablesFor
      simp
  have hn : pages sz = (sz + (PGSIZE - 1)) / PGSIZE := by unfold pages; rfl
  have hloop := uvmcopyLoop_sat (pages sz) hstart (by have := pages_le hs; omega)
  rw [h0, Nat.zero_mul] at hloop
  unfold uvmcopy
  rw [← hn]
  exact hloop

end

end HaiOS.Vm
