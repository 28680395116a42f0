/-
  File:      HaiOS/Vm/Growth.lean
  Subject:   WHAT GROWING AND SHRINKING DO: `uvmdealloc`, `uvmalloc`, `uvmfree`, `uvmclear` under the
             account of Vm/Account.

  * `pages x` -- the number of pages that `x` bytes take; `pgroundup_eq` -- PGROUNDUP in pages;
  * `Inv.not_full` -- no table maps its whole user range: there is not that much memory.
-/
import HaiOS.Vm.Tables

namespace HaiOS.Vm

open Lib Lib.Routine Function

theorem pages_eq (x : Nat) : pages x = (x + 4095) / 4096 := by
  unfold pages
  rfl

theorem pages_zero : pages 0 = 0 := by
  rw [pages_eq]

theorem pgroundup_eq {x : Nat} (h : x ≤ TRAPFRAME) : pgroundup x = pages x * PGSIZE := by
  unfold pgroundup pages
  rw [Nat.mod_eq_of_lt]
  have : x ≤ 2 ^ 38 - 4096 - 4096 := h
  show x + 4095 < 2 ^ 64
  omega

theorem pages_le {x : Nat} (h : x ≤ TRAPFRAME) : pages x ≤ USERVPN := by
  have : x ≤ 2 ^ 38 - 4096 - 4096 := h
  rw [pages_eq, USERVPN_eq]
  omega

theorem pages_mono {x y : Nat} (h : x ≤ y) : pages x ≤ pages y := by
  rw [pages_eq, pages_eq]
  omega

theorem viaInt_eq {n : Nat} (h : n < 2 ^ 31) : viaInt n = n := by
  unfold viaInt
  rw [Nat.mod_eq_of_lt (by omega), if_pos h]

section

variable {m m' : Mem} {t t' : PageTable} {ts : List PageTable} {ks : List Nat} {v : Nat} {f : Flags}

/-- **No table maps its whole user range**: its pages are different, and there are fewer of them. -/
theorem Inv.not_full (h : Inv m (t :: ts) ks) : ∃ v < USERVPN, t.leaf v = none := by
  by_contra hno
  have hsome : ∀ v < USERVPN, ∃ e, t.leaf v = some e := by
    intro v hv
    cases he : t.leaf v with
    | none => exact absurd ⟨v, hv, he⟩ hno
    | some e => exact ⟨e, rfl⟩
  let ppn : Nat → Nat := fun v => ((t.leaf v).map Pte.ppn).getD 0
  have hmaps : ∀ v ∈ Finset.range USERVPN, ppn v ∈ Finset.range NPAGE := by
    intro v hv
    obtain ⟨e, he⟩ := hsome v (Finset.mem_range.mp hv)
    have hpos : 0 < userRefs (t :: ts) e.ppn :=
      Inv.users_pos List.mem_cons_self (Finset.mem_range.mp hv) he
    have hm := h.exact.managed (p := e.ppn) (by unfold refs; omega)
    show ((t.leaf v).map Pte.ppn).getD 0 ∈ _
    rw [he]
    exact Finset.mem_range.mpr hm.2
  have hinj : Set.InjOn ppn (Finset.range USERVPN) := by
    intro v hv v' hv' hpp
    have hv1 := Finset.mem_range.mp (Finset.mem_coe.mp hv)
    have hv2 := Finset.mem_range.mp (Finset.mem_coe.mp hv')
    obtain ⟨e, he⟩ := hsome v hv1
    obtain ⟨e', he'⟩ := hsome v' hv2
    have : e.ppn = e'.ppn := by
      simpa [ppn, he, he'] using hpp
    exact (h.wf t List.mem_cons_self).inj v v' e e' hv1 hv2 he he' this
  have hcard := Finset.card_le_card_of_injOn ppn hmaps hinj
  rw [Finset.card_range, Finset.card_range, USERVPN_eq, NPAGE_eq] at hcard
  omega

/-! ## 1. Shrinking -/

theorem cut_zero (t : PageTable) (v : Nat) : t.cut v 0 = t.leaf := by
  funext v'
  exact if_neg (by omega)

/-- The entries from the new size on go; the tables stay. -/
def PageTable.shrink (t : PageTable) (oldsz newsz : Nat) : PageTable :=
  if newsz < oldsz then { t with leaf := t.cut (pages newsz) (pages oldsz - pages newsz) } else t

variable {oldsz base newsz : Nat}

/-- **`uvmdealloc`** inside the user range. -/
theorem uvmdealloc_sat (h : Inv m (t :: ts) ks) {oldsz : Nat} (ho : oldsz ≤ TRAPFRAME) (newsz : Nat) :
    (uvmdealloc t oldsz newsz m).Returns
      fun r m' => r = (min oldsz newsz, t.shrink oldsz newsz) ∧
        Inv m' (t.shrink oldsz newsz :: ts) ks ∧
        m.Keeps (Seen (t.shrink oldsz newsz).leaf ts ks) m' := by
  unfold uvmdealloc PageTable.shrink
  by_cases hle : oldsz ≤ newsz
  · rw [if_pos hle, if_neg (by omega), Nat.min_eq_left hle]
    exact ⟨rfl, h, Mem.Keeps.refl m⟩
  · have hlt : newsz < oldsz := by omega
    have hn : newsz ≤ TRAPFRAME := by omega
    have h1 := pages_mono hlt.le
    have h2 := pages_le ho
    rw [if_neg hle, if_pos hlt, Nat.min_eq_right hlt.le, pgroundup_eq ho, pgroundup_eq hn]
    by_cases hpg : pages newsz * PGSIZE < pages oldsz * PGSIZE
    · have hd : (pages oldsz * PGSIZE - pages newsz * PGSIZE) / PGSIZE = pages oldsz - pages newsz := by
        rw [← Nat.sub_mul, page_div]
      have hint : viaInt (pages oldsz - pages newsz) = pages oldsz - pages newsz := by
        rw [USERVPN_eq] at h2
        exact viaInt_eq (by omega)
      rw [if_pos hpg, hd, hint]
      refine (uvmunmap_sat _ h (by omega)).bind fun t1 m1 ⟨he, hinv, hkeeps, _⟩ => ?_
      subst he
      exact ⟨rfl, hinv, hkeeps.mono fun _ => Seen.live⟩
    · have he : pages oldsz - pages newsz = 0 := by
        have : pages oldsz ≤ pages newsz := Nat.le_of_mul_le_mul_right (by omega) (by decide : 0 < PGSIZE)
        omega
      rw [if_neg hpg, he, cut_zero]
      exact ⟨rfl, h, Mem.Keeps.refl m⟩

/-! ## 2. Growing -/

/-- **`n` pages from `v` on are new**, filled with zeros and nobody else's; the other entries are as
    they were. -/
structure Grew (m' : Mem) (t t' : PageTable) (ts : List PageTable) (ks : List Nat) (v n : Nat)
    (f : Flags) : Prop where
  new : ∀ v', v ≤ v' → v' < v + n →
    ∃ p, t'.leaf v' = some ⟨p, f⟩ ∧ m'.ram p = (fun _ => 0) ∧ ¬ Live ts ks p
  old : ∀ v', ¬ (v ≤ v' ∧ v' < v + n) → t'.leaf v' = t.leaf v'

/-- All pages below `v` are mapped. -/
def PageTable.Dense (t : PageTable) (v : Nat) : Prop := ∀ v' < v, t.leaf v' ≠ none

theorem Inv.dense_lt (h : Inv m (t :: ts) ks) (hd : t.Dense v) : v < USERVPN := by
  obtain ⟨v', hv', hn⟩ := h.not_full
  by_contra hge
  exact hd v' (by omega) hn

/-- How `uvmalloc` ends: all pages are there, or memory ran out and the entries from `base` on are
    gone. -/
def AllocEnd (m m' : Mem) (t : PageTable) (ts : List PageTable) (ks : List Nat)
    (base newsz v n : Nat) (f : Flags) (r : Nat × PageTable) : Prop :=
  (r.1 = newsz ∧ Grew m' t r.2 ts ks v n f ∧ v + n ≤ USERVPN ∧ m'.oomWarned = m.oomWarned ∧
    m.Keeps (Seen t.leaf ts ks) m') ∨
  (r.1 = 0 ∧ r.2.leaf = t.cut base (v - base) ∧ m'.oomWarned = true ∧
    m.Keeps (Seen (t.cut base (v - base)) ts ks) m')

theorem cut_some {t : PageTable} {v n v' : Nat} {e : Pte} (h : t.cut v n v' = some e) :
    t.leaf v' = some e ∧ ¬ (v ≤ v' ∧ v' < v + n) := by
  unfold PageTable.cut at h
  split at h
  · cases h
  · exact ⟨h, ‹_›⟩

/-- A failed turn of `uvmalloc`: the pages mapped so far go back. -/
theorem uvmalloc_back {m0 : Mem} {t0 : PageTable} (h : Inv m (t :: ts) ks) (hb : base ≤ v)
    (hv : v < USERVPN) (ho : m.oomWarned = true) (hl : t.leaf = t0.leaf)
    (hk : m0.Keeps (Seen t0.leaf ts ks) m) (newsz n : Nat) (f : Flags) :
    ((do
        let (_, t) ← uvmdealloc t (v * PGSIZE) (base * PGSIZE)
        pure (0, t) : VmM (Nat × PageTable)) m).Returns
      fun r m' => Inv m' (r.2 :: ts) ks ∧ AllocEnd m0 m' t0 ts ks base newsz v n f r := by
  have hT : v * PGSIZE ≤ TRAPFRAME := by
    rw [USERVPN_eq] at hv
    show v * 4096 ≤ 2 ^ 38 - 4096 - 4096
    omega
  have hp : ∀ x, pages (x * PGSIZE) = x := fun x => by
    rw [pages_eq]
    show (x * 4096 + 4095) / 4096 = x
    omega
  refine (uvmdealloc_sat h hT (base * PGSIZE)).bind fun r m1 ⟨he, hinv, hkeeps⟩ => ?_
  subst he
  have hleaf : (t.shrink (v * PGSIZE) (base * PGSIZE)).leaf = t0.cut base (v - base) := by
    unfold PageTable.shrink
    split
    · show t.cut _ _ = _
      rw [hp, hp]
      unfold PageTable.cut
      rw [hl]
    · rename_i hnlt
      have hbv : v - base = 0 := by
        have : v * 4096 ≤ base * 4096 := Nat.le_of_not_lt hnlt
        omega
      rw [hbv, cut_zero, hl]
  rw [hleaf] at hkeeps
  refine ⟨hinv, Or.inr ⟨rfl, hleaf, hkeeps.oom ho, Mem.Keeps.trans (hk.mono ?_) hkeeps⟩⟩
  exact fun q hq => hq.mono fun _ _ hc => (cut_some hc).1

/-- **The loop of `uvmalloc`.** -/
theorem uvmallocLoop_sat (n : Nat) (h : Inv m (t :: ts) ks) (hb : base ≤ v)
    (hnone : ∀ v', v ≤ v' → v' < USERVPN → t.leaf v' = none) (hroom : v + n ≤ USERVPN ∨ t.Dense v) :
    (uvmallocLoop (base * PGSIZE) newsz f n t (v * PGSIZE) m).Returns
      fun r m' => Inv m' (r.2 :: ts) ks ∧ AllocEnd m m' t ts ks base newsz v n f r := by
  induction n generalizing t v m with
  | zero =>
    refine ⟨h, Or.inl ⟨rfl, ⟨fun v' _ _ => by omega, fun _ _ => rfl⟩, ?_, rfl, Mem.Keeps.refl m⟩⟩
    rcases hroom with hr | hr
    · exact hr
    · exact (h.dense_lt hr).le
  | succ n ih =>
    have hv : v < USERVPN := by
      rcases hroom with hr | hr
      · omega
      · exact h.dense_lt hr
    have hvn : v < NVPN := Nat.lt_of_lt_of_le hv (by decide)
    have hlv := hnone v (Nat.le_refl v) hv
    refine (kalloc_inv h).bind fun o m1 ho => ?_
    cases o with
    | none =>
      obtain ⟨-, rfl⟩ := ho
      have hk : m.Keeps (Seen t.leaf ts ks) { m with oomWarned := true } :=
        ⟨rfl, fun _ _ => rfl, fun _ => rfl⟩
      exact uvmalloc_back h.setOom hb hv rfl rfl hk newsz _ f
    | some p =>
      obtain ⟨h0, htook, hinv1⟩ := ho
      have hnot : ¬ Seen t.leaf ts ks p := fun hs => by
        have := hs.live
        unfold Live at this
        omega
      let m2 : Mem := { m1 with ram := Function.update m1.ram p fun _ => 0 }
      have hkeep2 : m.Keeps (Seen t.leaf ts ks) m2 := by
        refine (htook.keeps hnot).trans ⟨rfl, fun q hq => update_of_ne ?_ _ _, id⟩
        rintro rfl
        exact hnot hq
      refine (memset_sat p 0 m1 _).bind fun _ _ e => ?_
      subst e
      refine (mappages_sat (hinv1.setRam _) hvn hlv p f).bind
        fun r m3 ⟨t1, hw, hr⟩ => ?_
      obtain ⟨ok, t2⟩ := r
      have hkeep3 : m.Keeps (Seen t.leaf ts ks) m3 :=
        hkeep2.trans (hw.keeps.mono fun q hq => live_page hq.live)
      cases ok with
      | false =>
        have e : t2 = t1 := hr
        subst e
        refine (kfree_inv hw.inv).bind fun _ m4 ⟨hinv4, hk4⟩ => ?_
        have ho4 : m4.oomWarned = true := hk4.oom (by rw [hw.oom]; simp)
        refine uvmalloc_back hinv4 hb hv ho4 hw.leaf (hkeep3.trans (hk4.mono fun q hq => ?_))
          newsz _ f
        rw [← hw.leaf] at hq
        exact hq.live
      | true =>
        have e : t2 = t1.setLeaf v (some ⟨p, f⟩) := hr
        subst e
        have hl1 : t1.leaf v = none := by rw [hw.leaf, hlv]
        have hlow : t1.low (v / 512) ≠ none := fun hn => ((hw.lows rfl _).mp hn).2 rfl
        have hinv3 := hw.inv.map hv hl1 hlow f
        have hleaf : ∀ v', (t1.setLeaf v (some ⟨p, f⟩)).leaf v' =
            if v' = v then some ⟨p, f⟩ else t.leaf v' := fun v' => by
          rw [PageTable.leaf_setLeaf, hw.leaf]
        rw [page_succ]
        refine (ih hinv3 (by omega) (fun v' h1 h2 => ?_) ?_).imp fun r m' ⟨hinv', hend⟩ => ?_
        · rw [hleaf, if_neg (by omega)]
          exact hnone v' (by omega) h2
        · rcases hroom with hr | hr
          · exact Or.inl (by omega)
          · refine Or.inr fun v' hv' => ?_
            rw [hleaf]
            split
            · exact Option.some_ne_none _
            · exact hr v' (by omega)
        · refine ⟨hinv', ?_⟩
          have hzero : m3.ram p = fun _ => 0 := by
            have hlive : Live (t :: ts) (p :: ks) p := by
              unfold Live
              rw [refs_page, names_self]
              omega
            rw [hw.keeps.ram p hlive]
            exact update_self p _ _
          have ho3 : m3.oomWarned = m.oomWarned := by
            rw [hw.oom]
            rw [htook.oom]
            simp
          have hsub : ∀ v' e, t.leaf v' = some e →
              (t1.setLeaf v (some ⟨p, f⟩)).leaf v' = some e := by
            intro v' e he
            rw [hleaf, if_neg, he]
            rintro rfl
            rw [hlv] at he
            cases he
          rcases hend with ⟨e1, hgrew, hle, hoom, hk⟩ | ⟨e1, hcut, hoom, hk⟩
          · refine Or.inl ⟨e1, ⟨fun v' h1 h2 => ?_, fun v' hout => ?_⟩, by omega,
              hoom.trans ho3, hkeep3.trans (hk.mono fun q hq => hq.mono hsub)⟩
            · by_cases e : v' = v
              · subst e
                have hself : (t1.setLeaf v' (some ⟨p, f⟩)).leaf v' = some ⟨p, f⟩ := by
                  rw [hleaf, if_pos rfl]
                refine ⟨p, by rw [hgrew.old v' (by omega), hself], ?_, fun hl => ?_⟩
                · rw [hk.ram p (Or.inr ⟨v', hv, _, hself, rfl⟩), hzero]
                · exact hnot (Or.inl hl)
              · exact hgrew.new v' (by omega) (by omega)
            · rw [hgrew.old v' (by omega), hleaf, if_neg (by omega)]
          · have hcuts : (t1.setLeaf v (some ⟨p, f⟩)).cut base (v + 1 - base) =
                t.cut base (v - base) := by
              funext v'
              unfold PageTable.cut
              rw [hleaf]
              by_cases e : v' = v
              · subst e
                rw [if_pos (by omega), if_neg (by omega), hlv]
              · rw [if_neg e]
                exact if_congr (by omega) rfl rfl
            rw [hcuts] at hcut hk
            refine Or.inr ⟨e1, hcut, hoom, Mem.Keeps.trans (hkeep3.mono fun q hq => ?_) hk⟩
            exact hq.mono fun _ _ hc => (cut_some hc).1

/-- How `uvmalloc` returns: nothing to do; the new pages are there; or 0, with the entries as they
    were. -/
def AllocRes (m m' : Mem) (t : PageTable) (ts : List PageTable) (ks : List Nat)
    (oldsz newsz : Nat) (f : Flags) (r : Nat × PageTable) : Prop :=
  (newsz < oldsz ∧ r = (oldsz, t) ∧ m' = m) ∨
  (oldsz ≤ newsz ∧ r.1 = newsz ∧ Grew m' t r.2 ts ks (pages oldsz) (pages newsz - pages oldsz) f ∧
    newsz ≤ TRAPFRAME ∧ m'.oomWarned = m.oomWarned) ∨
  (oldsz ≤ newsz ∧ r.1 = 0 ∧ r.2.leaf = t.leaf ∧ m'.oomWarned = true)

/-- **`uvmalloc`** from a size whose pages above are not mapped. The new size lies in the user range,
    or everything below is mapped: then memory ends before the user range does. -/
theorem uvmalloc_sat (h : Inv m (t :: ts) ks) {oldsz newsz : Nat} (ho : oldsz ≤ TRAPFRAME)
    (hnone : ∀ v, pages oldsz ≤ v → v < USERVPN → t.leaf v = none)
    (hroom : newsz ≤ TRAPFRAME ∨ t.Dense (pages oldsz)) (xperm : Flags) :
    (uvmalloc t oldsz newsz xperm m).Returns
      fun r m' => Inv m' (r.2 :: ts) ks ∧ m.Keeps (Seen t.leaf ts ks) m' ∧
        AllocRes m m' t ts ks oldsz newsz xperm.user r := by
  unfold uvmalloc
  by_cases hlt : newsz < oldsz
  · rw [if_pos hlt]
    exact ⟨h, Mem.Keeps.refl m, Or.inl ⟨hlt, rfl, rfl⟩⟩
  · have hle : oldsz ≤ newsz := by omega
    have hmono := pages_mono hle
    have hn : (newsz + (PGSIZE - 1) - pages oldsz * PGSIZE) / PGSIZE = pages newsz - pages oldsz := by
      rw [pages_eq newsz]
      show (newsz + 4095 - pages oldsz * 4096) / 4096 = _
      omega
    rw [if_neg hlt]
    show (uvmallocLoop (pgroundup oldsz) newsz xperm.user
      ((newsz + (PGSIZE - 1) - pgroundup oldsz) / PGSIZE) t (pgroundup oldsz) m).Sat _ _
    rw [pgroundup_eq ho, hn]
    refine (uvmallocLoop_sat _ h (Nat.le_refl _) hnone ?_).imp fun r m' ⟨hinv, hend⟩ => ?_
    · rcases hroom with hr | hr
      · have := pages_le hr
        exact Or.inl (by omega)
      · exact Or.inr hr
    · rw [AllocEnd, Nat.sub_self, cut_zero] at hend
      rcases hend with ⟨e1, hgrew, hU, hoom, hk⟩ | ⟨e1, hl, hoom, hk⟩
      · refine ⟨hinv, hk, Or.inr (Or.inl ⟨hle, e1, hgrew, ?_, hoom⟩)⟩
        have : pages newsz ≤ USERVPN := by omega
        rw [pages_eq, USERVPN_eq] at this
        show newsz ≤ 2 ^ 38 - 4096 - 4096
        omega
      · exact ⟨hinv, hk, Or.inr (Or.inr ⟨hle, e1, hl, hoom⟩)⟩

/-! ## 3. `uvmfree`, `uvmclear` -/

/-- **`uvmfree`**: with no entry from the size on, the table goes with everything it maps. It never
    panics with "freewalk: leaf". -/
theorem uvmfree_sat (h : Inv m (t :: ts) ks) {sz : Nat} (hs : sz ≤ TRAPFRAME)
    (hl : ∀ v, pages sz ≤ v → t.leaf v = none) :
    (uvmfree t sz m).Returns fun _ m' => Inv m' ts ks ∧ m.Keeps (Live ts ks) m' := by
  unfold uvmfree
  by_cases h0 : 0 < sz
  · rw [if_pos h0, pgroundup_eq hs, page_div]
    have hu := uvmunmap_sat (v := 0) (pages sz) h (by have := pages_le hs; omega)
    rw [Nat.zero_mul] at hu
    refine hu.bind fun t1 m1 ⟨he, hinv, hk, _⟩ => ?_
    subst he
    refine (freewalk_sat hinv fun v => ?_).imp fun _ m2 ⟨hinv2, hk2⟩ =>
      ⟨hinv2, (hk.mono fun _ hq => live_cons hq).trans hk2⟩
    show (if 0 ≤ v ∧ v < 0 + pages sz then none else t.leaf v) = none
    split
    · rfl
    · exact hl v (by omega)
  · rw [if_neg h0]
    have e : sz = 0 := by omega
    subst e
    exact freewalk_sat h fun v => hl v (by rw [pages_zero]; omega)

/-- **`uvmclear`** of a page that is mapped. -/
theorem uvmclear_sat (h : Inv m (t :: ts) ks) {e : Pte} (hv : v < USERVPN) (hl : t.leaf v = some e) :
    (uvmclear t (v * PGSIZE) m).Returns
      fun t' m' => m' = m ∧ t' = t.setLeaf v (some ⟨e.ppn, { e.flags with u := false }⟩) ∧
        Inv m (t' :: ts) ks := by
  have hwf := h.wf t List.mem_cons_self
  have hlow : t.low (v / 512) ≠ none := fun hn => by
    rw [hwf.leaf v hn] at hl
    cases hl
  have hmid : t.mid (v / 512 / 512) ≠ none := fun hn => hlow (hwf.low _ hn)
  have hwalk : t.walk (v * PGSIZE) = some (some e) := by
    unfold PageTable.walk
    have hva := page_lt (v := v) (Nat.lt_of_lt_of_le hv (by decide))
    rw [if_neg (Nat.not_le.mpr hva), page_div, if_neg hmid, if_neg hlow, hl]
  unfold uvmclear
  rw [hwalk, page_div]
  exact ⟨rfl, rfl, h.reflag hl id⟩

end

end HaiOS.Vm
