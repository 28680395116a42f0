/-
  File:      HaiOS/Vm/Faults.lean
  Subject:   FAULTS, LOADS, STORES AND COPIES keep the account and implement private memory.

  * `viewOf ram leaf` -- the private pages that the entries `leaf` stand for: a copy-on-write page is
    writable, and its bytes are those of the shared page;
  * `cowfault_sat`, `vmfault_sat` -- what the two repairs do; a copy-on-write fault changes nothing
    in the view;
  * `Touched` -- an access to one page: the account holds, only the page of the access can be new,
    and unless memory ran out the view moves as `Priv.touch` says; `access_sat`, `addrOrFault_sat`,
    `copyoutPage_sat` -- the three ways into a page all do that.
-/
import HaiOS.Vm.Growth
import HaiOS.Vm.Private

namespace HaiOS.Vm

open Lib Lib.Routine Function

/-! ## 1. The view -/

/-- The private page that an entry stands for. -/
def Pte.cell (ram : Nat → Store) (e : Pte) : Cell :=
  ⟨e.flags.w || e.flags.cow, e.flags.x, e.flags.u, ram e.ppn⟩

/-- **The private pages** that the entries of the user range stand for. -/
def viewOf (ram : Nat → Store) (leaf : Nat → Option Pte) : Nat → Option Cell := fun v =>
  if v < USERVPN then (leaf v).map (Pte.cell ram) else none

/-- The private address space of a page table and a break. -/
def privOf (m : Mem) (t : PageTable) (sz : Nat) : Priv := ⟨sz, viewOf m.ram t.leaf⟩

/-- The entries above the user range: not for user code, and never copy-on-write. -/
def PageTable.Fenced (t : PageTable) : Prop :=
  ∀ v e, USERVPN ≤ v → t.leaf v = some e → e.flags.u = false ∧ e.flags.cow = false

section

variable {m m' : Mem} {t t' : PageTable} {ts : List PageTable} {ks : List Nat} {v va sz : Nat}

variable {leaf : Nat → Option Pte}

theorem viewOf_none (ram : Nat → Store) (hv : v < USERVPN) :
    viewOf ram leaf v = none ↔ leaf v = none := by
  unfold viewOf
  rw [if_pos hv]
  exact Option.map_eq_none_iff

variable {e : Pte}

theorem viewOf_some (ram : Nat → Store) (hv : v < USERVPN) (he : leaf v = some e) :
    viewOf ram leaf v = some (e.cell ram) := by
  unfold viewOf
  rw [if_pos hv, he]
  rfl

theorem viewOf_congr {ram ram' : Nat → Store}
    (h : ∀ v < USERVPN, ∀ e, leaf v = some e → ram' e.ppn = ram e.ppn) :
    viewOf ram' leaf = viewOf ram leaf := by
  funext v
  unfold viewOf
  split
  · cases he : leaf v with
    | none => rfl
    | some e =>
      show some (e.cell ram') = some (e.cell ram)
      unfold Pte.cell
      rw [h v ‹_› e he]
  · rfl

/-- **Pages that are kept look the same.** -/
theorem viewOf_keeps {K : Nat → Prop} (hk : m.Keeps K m')
    (h : ∀ v < USERVPN, ∀ e, leaf v = some e → K e.ppn) : viewOf m'.ram leaf = viewOf m.ram leaf :=
  viewOf_congr fun v hv e he => hk.ram e.ppn (h v hv e he)

/-- One entry is written, the other pages are kept: the view changes at that page alone. -/
theorem viewOf_setLeaf (t : PageTable) (ram ram' : Nat → Store) (e : Pte) (hv : v < USERVPN)
    (h : ∀ v' < USERVPN, v' ≠ v → ∀ e', t.leaf v' = some e' → ram' e'.ppn = ram e'.ppn) :
    viewOf ram' (t.setLeaf v (some e)).leaf =
      update (viewOf ram t.leaf) v (some (e.cell ram')) := by
  funext v'
  rw [update_apply]
  by_cases ev : v' = v
  · subst ev
    rw [if_pos rfl]
    exact viewOf_some ram' hv (by rw [PageTable.leaf_setLeaf, if_pos rfl])
  · rw [if_neg ev]
    unfold viewOf
    split
    · rw [PageTable.leaf_setLeaf, if_neg ev]
      cases he : t.leaf v' with
      | none => rfl
      | some e' =>
        show some (e'.cell ram') = some (e'.cell ram)
        unfold Pte.cell
        rw [h v' ‹_› ev e' he]
    · rfl

/-! ## 2. Copy-on-write -/

variable (h : Inv m (t :: ts) ks) (hf : t.Fenced) (hs : sz ≤ TRAPFRAME)

include h hf in
/-- **`cowfault`**: the entry gets a page of its own with the same bytes; or there is nothing to do,
    or no memory, and nothing changes. -/
theorem cowfault_sat (va : Nat) :
    (cowfault t va m).Returns
      fun r m' => Inv m' (r.2 :: ts) ks ∧ m.Keeps (Live ts ks) m' ∧
        viewOf m'.ram r.2.leaf = viewOf m.ram t.leaf ∧
        ((r.1 = true ∧ va / PGSIZE < USERVPN ∧
            ∃ e p, t.leaf (va / PGSIZE) = some e ∧ e.flags.cow = true ∧
              r.2 = t.setLeaf (va / PGSIZE) (some ⟨p, e.flags.own⟩)) ∨
          (r.1 = false ∧ r.2 = t ∧
            (m' = m ∧ (∀ e, t.leaf (va / PGSIZE) = some e → e.flags.cow = false) ∨
              m'.oomWarned = true))) := by
  have hwf := h.wf t List.mem_cons_self
  have hdiv : pgrounddown va / PGSIZE = va / PGSIZE := page_div _
  unfold cowfault
  rw [hwf.pte_eq, hdiv]
  cases hl : t.leaf (va / PGSIZE) with
  | none =>
    refine ⟨h, Mem.Keeps.refl m, rfl, Or.inr ⟨rfl, rfl, Or.inl ⟨rfl, ?_⟩⟩⟩
    intro e he
    cases he
  | some e =>
    by_cases hc : e.flags.cow = false
    · simp only
      rw [if_pos hc]
      refine ⟨h, Mem.Keeps.refl m, rfl, Or.inr ⟨rfl, rfl, Or.inl ⟨rfl, ?_⟩⟩⟩
      rintro _ ⟨⟩
      exact hc
    · have hv : va / PGSIZE < USERVPN := by
        by_contra hge
        exact hc (hf _ e (by omega) hl).2
      simp only
      rw [if_neg hc]
      refine (kalloc_inv h).bind fun o m1 ho => ?_
      cases o with
      | none =>
        obtain ⟨-, rfl⟩ := ho
        exact ⟨h.setOom, ⟨rfl, fun _ _ => rfl, fun _ => rfl⟩, rfl,
          Or.inr ⟨rfl, rfl, Or.inr rfl⟩⟩
      | some p =>
        obtain ⟨h0, htook, hinv1⟩ := ho
        have hother : ∀ q, Live (t :: ts) ks q → q ≠ p := by
          rintro q hq rfl
          unfold Live at hq
          omega
        have hlive : ∀ v' < USERVPN, ∀ e', t.leaf v' = some e' → Live (t :: ts) ks e'.ppn :=
          fun v' hv' e' he' => Seen.live (Or.inr ⟨v', hv', e', he', rfl⟩)
        let m2 : Mem := { m1 with ram := update m1.ram p (m1.ram e.ppn) }
        have hram2 : ∀ q, q ≠ p → m2.ram q = m.ram q := fun q hq => by
          show update m1.ram p _ q = m.ram q
          rw [update_of_ne hq, htook.ram, update_of_ne hq]
        have hself2 : m2.ram p = m.ram e.ppn := by
          show update m1.ram p _ p = _
          rw [update_self, htook.ram,
            update_of_ne (hother _ (hlive _ hv e hl))]
        have hcopy : (copyPage p e.ppn m1).Returns fun _ m' => m' = m2 := rfl
        refine hcopy.bind fun _ _ em => ?_
        subst em
        have hinv2 : Inv m2 (t :: ts) (p :: ks) := hinv1.setRam _
        refine (kfree_leaf hinv2 hv hl).bind fun _ m3 ⟨hinv3, hk3⟩ => ?_
        have hlow : t.low (va / PGSIZE / 512) ≠ none := fun hn => by
          rw [hwf.leaf _ hn] at hl
          cases hl
        have hnone : (t.setLeaf (va / PGSIZE) none).leaf (va / PGSIZE) = none := by
          rw [PageTable.leaf_setLeaf, if_pos rfl]
        have hmap := hinv3.map hv hnone hlow e.flags.own
        have hidem : (t.setLeaf (va / PGSIZE) none).setLeaf (va / PGSIZE) (some ⟨p, e.flags.own⟩) =
            t.setLeaf (va / PGSIZE) (some ⟨p, e.flags.own⟩) := by
          unfold PageTable.setLeaf
          simp only [update_idem]
        rw [hidem] at hmap
        refine ⟨hmap, ⟨hk3.first.trans htook.first, fun q hq => ?_, fun ho => hk3.oom (htook.oom.trans ho)⟩,
          ?_, Or.inl ⟨rfl, hv, e, p, rfl, by simpa using hc, rfl⟩⟩
        · rw [hk3.ram q (live_cons (live_page hq)), hram2 q (hother q (live_cons hq))]
        · -- the new page holds what the old one held, the other pages are untouched
          rw [viewOf_setLeaf t m.ram m3.ram _ hv fun v' hv' hne e' he' => ?_]
          · have hp3 : m3.ram p = m.ram e.ppn := by
              rw [hk3.ram p, hself2]
              refine live_cons ?_
              unfold Live
              rw [refs_page, names_self]
              omega
            have hcell : Pte.cell m3.ram ⟨p, e.flags.own⟩ = e.cell m.ram := by
              unfold Pte.cell Flags.own
              simp only [hp3, Cell.mk.injEq, and_true]
              have : e.flags.cow = true := by simpa using hc
              simp [this]
            rw [hcell, ← viewOf_some m.ram hv hl, update_eq_self]
          · rw [hk3.ram e'.ppn, hram2 _ (hother _ (hlive v' hv' e' he'))]
            refine Seen.live (Or.inr ⟨v', hv', e', ?_, rfl⟩)
            rw [PageTable.leaf_setLeaf, if_neg hne, he']

/-! ## 3. Lazy allocation -/

theorem pgrounddown_eq (va : Nat) : pgrounddown va = va / PGSIZE * PGSIZE := rfl

theorem vpn_lt (hs : sz ≤ TRAPFRAME) (hva : va < sz) : va / PGSIZE < USERVPN := by
  have : sz ≤ 2 ^ 38 - 4096 - 4096 := hs
  rw [USERVPN_eq]
  show va / 4096 < 67108862
  omega

include h hs in
/-- **`vmfault`** on the process's own table: a page below the break that is not there appears, filled
    with zeros; otherwise nothing is mapped. -/
theorem vmfault_sat (va : Nat) :
    (vmfault ⟨t, sz, none⟩ va m).Returns
      fun r m' => ∃ t', r.2 = ⟨t', sz, none⟩ ∧ Inv m' (t' :: ts) ks ∧ m.Keeps (Seen t.leaf ts ks) m' ∧
        ((∃ p, r.1 = some p ∧ va < sz ∧ t.leaf (va / PGSIZE) = none ∧
            t'.leaf = update t.leaf (va / PGSIZE) (some ⟨p, Flags.W.user⟩) ∧
            m'.ram p = fun _ => 0) ∨
          (r.1 = none ∧ t'.leaf = t.leaf ∧
            (m' = m ∧ t' = t ∧ ¬ (va < sz ∧ t.leaf (va / PGSIZE) = none) ∨ m'.oomWarned = true))) := by
  have hwf := h.wf t List.mem_cons_self
  have hdiv : pgrounddown va / PGSIZE = va / PGSIZE := page_div _
  unfold vmfault
  by_cases hva : sz ≤ va
  · rw [if_pos hva]
    exact ⟨t, rfl, h, Mem.Keeps.refl m, Or.inr ⟨rfl, rfl, Or.inl ⟨rfl, rfl, by omega⟩⟩⟩
  rw [if_neg hva]
  have hcur : (⟨t, sz, none⟩ : Space).cur = t := rfl
  rw [hcur, hwf.pte_eq, hdiv]
  cases hl : t.leaf (va / PGSIZE) with
  | some e =>
    exact ⟨t, rfl, h, Mem.Keeps.refl m, Or.inr ⟨rfl, rfl, Or.inl ⟨rfl, rfl, by simp⟩⟩⟩
  | none =>
    have hv := vpn_lt hs (by omega : va < sz)
    have hvn : va / PGSIZE < NVPN := Nat.lt_of_lt_of_le hv (by decide)
    rw [if_neg (by simp)]
    refine (kalloc_inv h).bind fun o m1 ho => ?_
    cases o with
    | none =>
      obtain ⟨-, rfl⟩ := ho
      exact ⟨t, rfl, h.setOom, ⟨rfl, fun _ _ => rfl, fun _ => rfl⟩,
        Or.inr ⟨rfl, rfl, Or.inr rfl⟩⟩
    | some p =>
      obtain ⟨h0, htook, hinv1⟩ := ho
      have hnot : ¬ Seen t.leaf ts ks p := fun hsn => by
        have := hsn.live
        unfold Live at this
        omega
      refine (memset_sat p 0 m1 _).bind fun _ _ e => ?_
      subst e
      have hkeep2 : m.Keeps (Seen t.leaf ts ks)
          { m1 with ram := update m1.ram p fun _ => 0 } := by
        refine (htook.keeps hnot).trans ⟨rfl, fun q hq => update_of_ne ?_ _ _, id⟩
        rintro rfl
        exact hnot hq
      rw [pgrounddown_eq]
      refine (mappages_sat (hinv1.setRam _) hvn hl p Flags.W.user).bind
        fun r m3 ⟨t1, hw, hr⟩ => ?_
      obtain ⟨ok, t2⟩ := r
      have hkeep3 : m.Keeps (Seen t.leaf ts ks) m3 :=
        hkeep2.trans (hw.keeps.mono fun q hq => live_page hq.live)
      cases ok with
      | false =>
        have e : t2 = t1 := hr
        subst e
        refine (kfree_inv hw.inv).bind fun _ m4 ⟨hinv4, hk4⟩ => ?_
        refine ⟨t2, rfl, hinv4, hkeep3.trans (hk4.mono fun q hq => ?_),
          Or.inr ⟨rfl, hw.leaf, Or.inr (hk4.oom (by rw [hw.oom]; simp))⟩⟩
        rw [← hw.leaf] at hq
        exact hq.live
      | true =>
        have e : t2 = t1.setLeaf (va / PGSIZE) (some ⟨p, Flags.W.user⟩) := hr
        subst e
        have hl1 : t1.leaf (va / PGSIZE) = none := by rw [hw.leaf, hl]
        have hlow : t1.low (va / PGSIZE / 512) ≠ none := fun hn => ((hw.lows rfl _).mp hn).2 rfl
        refine ⟨_, rfl, hw.inv.map hv hl1 hlow Flags.W.user, hkeep3,
          Or.inl ⟨p, rfl, by omega, rfl, ?_, ?_⟩⟩
        · show update t1.leaf _ _ = _
          rw [hw.leaf]
        · have hlive : Live (t :: ts) (p :: ks) p := by
            unfold Live
            rw [refs_page, names_self]
            omega
          rw [hw.keeps.ram p hlive]
          exact update_self p _ _

/-! ## 4. An access to a page -/

/-- **An access to the page of `va`** has ended: with the physical page, or in refusal. -/
structure Touched (m m' : Mem) (t t' : PageTable) (ts : List PageTable) (ks : List Nat)
    (sz : Nat) (write : Bool) (va : Nat) (o : Option Nat) : Prop where
  inv : Inv m' (t' :: ts) ks
  keeps : m.Keeps (Live ts ks) m'
  high : ∀ v, USERVPN ≤ v → t'.leaf v = t.leaf v
  /-- only the page of the access can be new, and only below the break -/
  grow : ∀ v, t'.leaf v ≠ none → t.leaf v ≠ none ∨ v = va / PGSIZE ∧ va < sz
  found : ∀ p, o = some p → va / PGSIZE < USERVPN ∧ ∃ e, t'.leaf (va / PGSIZE) = some e ∧
    e.ppn = p ∧ e.flags.u = true ∧ (write = true → e.flags.w = true)
  /-- unless memory ran out, the private memory moves as it should -/
  view : m'.oomWarned = false → privOf m' t' sz = (privOf m t sz).fault va
  refused : m'.oomWarned = false → o = none → ((privOf m t sz).fault va).find write va = none

variable {write : Bool} {o : Option Nat}

theorem Touched.fenced (h : Touched m m' t t' ts ks sz write va o) (hf : t.Fenced) :
    t'.Fenced := fun v e hv he => hf v e hv (by rw [← h.high v hv, he])

/-- A page that the process may access so. -/
theorem find_there (hv : va / PGSIZE < USERVPN) (he : t.leaf (va / PGSIZE) = some e)
    (hu : e.flags.u = true) (hw : write = true → e.flags.w = true) :
    (privOf m t sz).find write va = some (e.cell m.ram) := by
  refine Priv.find_some (viewOf_some m.ram hv he) ⟨hu, fun hwr => ?_⟩
  show (e.flags.w || e.flags.cow) = true
  rw [hw hwr]
  rfl

/-- An access that found its page, as the private memory sees it. -/
theorem Touched.touch_got {p : Nat} (h : Touched m m' t t' ts ks sz write va (some p))
    (hview : privOf m' t' sz = (privOf m t sz).fault va) :
    (privOf m t sz).touch write va = (viewOf m'.ram t'.leaf (va / PGSIZE), privOf m' t' sz) := by
  obtain ⟨hv, e, he, -, hu, hw⟩ := h.found p rfl
  unfold Priv.touch
  rw [← hview, viewOf_some m'.ram hv he, find_there hv he hu hw]

/-- The access as the private memory sees it. -/
theorem Touched.touch (h : Touched m m' t t' ts ks sz write va o) (ho : m'.oomWarned = false) :
    (privOf m t sz).touch write va =
      (if o = none then none else viewOf m'.ram t'.leaf (va / PGSIZE), privOf m' t' sz) := by
  cases o with
  | none =>
    unfold Priv.touch
    rw [if_pos rfl, h.view ho, h.refused ho rfl]
  | some p =>
    rw [if_neg (Option.some_ne_none p)]
    exact h.touch_got (h.view ho)

/-- What a fault does to the private memory when the page is there, or the address is not below the
    break. -/
theorem fault_same (hs : sz ≤ TRAPFRAME) (h : ¬ (va < sz ∧ t.leaf (va / PGSIZE) = none)) :
    (privOf m t sz).fault va = privOf m t sz := by
  refine if_neg fun hc => h ⟨hc.1, ?_⟩
  exact (viewOf_none m.ram (vpn_lt hs hc.1)).mp hc.2

/-- A page that appears. -/
theorem fault_new {p : Nat} (hs : sz ≤ TRAPFRAME) (hva : va < sz) (hl : t.leaf (va / PGSIZE) = none)
    (hl' : t'.leaf = update t.leaf (va / PGSIZE) (some ⟨p, Flags.W.user⟩))
    (hz : m'.ram p = fun _ => 0) (hk : m.Keeps (Seen t.leaf ts ks) m') :
    privOf m' t' sz = (privOf m t sz).fault va := by
  have hv := vpn_lt hs hva
  have hcell : Pte.cell m'.ram ⟨p, Flags.W.user⟩ = Cell.zero := by
    unfold Pte.cell
    rw [hz]
    rfl
  unfold Priv.fault
  rw [if_pos ⟨hva, (viewOf_none m.ram hv).mpr hl⟩]
  have hview := viewOf_setLeaf t m.ram m'.ram ⟨p, Flags.W.user⟩ hv
    fun v' hv' _ e' he' => hk.ram e'.ppn (Or.inr ⟨v', hv', e', he', rfl⟩)
  unfold privOf Priv.setPage
  rw [hl', ← hcell]
  exact congrArg (Priv.mk sz) hview

/-- Nothing is refused but what the view refuses. -/
theorem find_none {write : Bool} (hv : ∀ e, t.leaf (va / PGSIZE) = some e → va / PGSIZE < USERVPN →
      ¬ (e.flags.u = true ∧ (write = true → (e.flags.w || e.flags.cow) = true))) :
    (privOf m t sz).find write va = none := by
  refine Priv.find_eq_none fun c hc => ?_
  replace hc : viewOf m.ram t.leaf (va / PGSIZE) = some c := hc
  by_cases hlt : va / PGSIZE < USERVPN
  · cases he : t.leaf (va / PGSIZE) with
    | none =>
      rw [(viewOf_none m.ram hlt).mpr he] at hc
      cases hc
    | some e =>
      rw [viewOf_some m.ram hlt he] at hc
      cases hc
      exact hv e he hlt
  · have : viewOf m.ram t.leaf (va / PGSIZE) = none := if_neg hlt
    rw [this] at hc
    cases hc

include h hs in
/-- An access that needs no repair. -/
theorem touched_same (hv : va / PGSIZE < USERVPN)
    (hl : t.leaf (va / PGSIZE) = some e) (hu : e.flags.u = true)
    (hw : write = true → e.flags.w = true) :
    Touched m m t t ts ks sz write va (some e.ppn) where
  inv := h
  keeps := Mem.Keeps.refl m
  high := fun _ _ => rfl
  grow := fun _ hne => Or.inl hne
  found := by
    rintro _ ⟨⟩
    exact ⟨hv, e, hl, rfl, hu, hw⟩
  view := fun _ => by
    rw [fault_same hs]
    rw [hl]
    simp
  refused := fun _ hn => nomatch hn

include h hs in
/-- An access refused on the spot. -/
theorem touched_refused {write : Bool} (hno : ¬ (va < sz ∧ t.leaf (va / PGSIZE) = none))
    (hv : ∀ e, t.leaf (va / PGSIZE) = some e → va / PGSIZE < USERVPN →
      ¬ (e.flags.u = true ∧ (write = true → (e.flags.w || e.flags.cow) = true))) :
    Touched m m t t ts ks sz write va none where
  inv := h
  keeps := Mem.Keeps.refl m
  high := fun _ _ => rfl
  grow := fun _ hne => Or.inl hne
  found := fun _ hn => nomatch hn
  view := fun _ => (fault_same hs hno).symm
  refused := fun _ _ => by
    rw [fault_same hs hno]
    exact find_none hv

variable {m0 m'' : Mem}

include h hs in
/-- **`vmfault` as an access** that began at `m0`: nothing changed since and no entry lets the access
    through, or memory ran out on the way. -/
theorem vmfault_touched {m0 : Mem} (write : Bool) (hk0 : m0.Keeps (Live ts ks) m)
    (hv : m.oomWarned = false → m = m0 ∧ ∀ e, t.leaf (va / PGSIZE) = some e → va / PGSIZE < USERVPN →
      ¬ (e.flags.u = true ∧ (write = true → (e.flags.w || e.flags.cow) = true))) :
    (vmfault ⟨t, sz, none⟩ va m).Returns
      fun r m' => ∃ t', r.2 = ⟨t', sz, none⟩ ∧ Touched m0 m' t t' ts ks sz write va r.1 ∧
        ∀ p, r.1 = some p → t'.leaf (va / PGSIZE) = some ⟨p, Flags.W.user⟩ := by
  refine (vmfault_sat h hs va).imp fun r m' ⟨t', hr, hinv, hk, hcase⟩ => ⟨t', hr, ?_⟩
  have hkl : m0.Keeps (Live ts ks) m' := hk0.trans (hk.mono fun q hq => Or.inl hq)
  have hback : m'.oomWarned = false → m.oomWarned = false := hk.oom_false
  rcases hcase with ⟨p, hp, hva, hl, hl', hz⟩ | ⟨hn, hl', hcase⟩
  · have hlt := vpn_lt hs hva
    have hat : t'.leaf (va / PGSIZE) = some ⟨p, Flags.W.user⟩ := by
      rw [hl', update_self]
    rw [hp]
    refine ⟨⟨hinv, hkl, fun v hv' => ?_, fun v hne => ?_, ?_, fun ho => ?_,
      (fun _ hn => nomatch hn)⟩, ?_⟩
    · rw [hl', update_of_ne (by omega)]
    · by_cases e : v = va / PGSIZE
      · exact Or.inr ⟨e, hva⟩
      · rw [hl', update_of_ne e] at hne
        exact Or.inl hne
    · rintro _ ⟨⟩
      exact ⟨hlt, _, hat, rfl, rfl, fun _ => rfl⟩
    · obtain ⟨rfl, -⟩ := hv (hback ho)
      exact fault_new hs hva hl hl' hz hk
    · rintro _ ⟨⟩
      exact hat
  · rw [hn]
    have hsame : m'.oomWarned = false →
        m' = m0 ∧ t' = t ∧ ¬ (va < sz ∧ t.leaf (va / PGSIZE) = none) := fun ho => by
      obtain ⟨rfl, -⟩ := hv (hback ho)
      rcases hcase with hcase | hoom
      · exact hcase
      · rw [hoom] at ho
        cases ho
    refine ⟨⟨hinv, hkl, fun v _ => by rw [hl'], fun v hne => Or.inl (by rwa [hl'] at hne),
      (fun _ hq => nomatch hq), fun ho => ?_, fun ho _ => ?_⟩, fun _ hq => nomatch hq⟩
    · obtain ⟨rfl, rfl, hno⟩ := hsame ho
      exact (fault_same hs hno).symm
    · obtain ⟨rfl, rfl, hno⟩ := hsame ho
      rw [fault_same hs hno]
      exact find_none (hv (hback ho)).2

include h hf hs in
/-- **`walkaddr` or `vmfault`.** -/
theorem addrOrFault_sat (va : Nat) :
    (addrOrFault ⟨t, sz, none⟩ va m).Returns
      fun r m' => ∃ t', r.2 = ⟨t', sz, none⟩ ∧ Touched m m' t t' ts ks sz false va r.1 := by
  have hwf := h.wf t List.mem_cons_self
  unfold addrOrFault
  have hcur : (⟨t, sz, none⟩ : Space).cur = t := rfl
  rw [hcur]
  unfold PageTable.walkaddr
  rw [hwf.pte_eq]
  cases hl : t.leaf (va / PGSIZE) with
  | none =>
    refine (vmfault_touched h hs false (Mem.Keeps.refl m) fun _ => ⟨rfl, fun e he => ?_⟩).imp
      fun _ _ ⟨t', hr, ht, _⟩ => ⟨t', hr, ht⟩
    rw [hl] at he
    cases he
  | some e =>
    by_cases hu : e.flags.u = true
    · have hv : va / PGSIZE < USERVPN := by
        by_contra hge
        rw [(hf _ e (by omega) hl).1] at hu
        cases hu
      simp only [if_pos hu]
      exact ⟨t, rfl, touched_same h hs hv hl hu fun hw => nomatch hw⟩
    · simp only [if_neg hu]
      refine (vmfault_touched h hs false (Mem.Keeps.refl m) fun _ => ⟨rfl, fun e' he' _ hc => ?_⟩).imp
        fun _ _ ⟨t', hr, ht, _⟩ => ⟨t', hr, ht⟩
      rw [hl] at he'
      cases he'
      exact hu hc.1

/-- A copy-on-write fault on the way of an access changes nothing the view can see. -/
theorem Touched.cow {m'' : Mem} {t'' : PageTable} {write : Bool} {o o' : Option Nat}
    (h : Touched m m' t t' ts ks sz write va o) (hinv : Inv m'' (t'' :: ts) ks)
    (hk : m'.Keeps (Live ts ks) m'') (hview : viewOf m''.ram t''.leaf = viewOf m'.ram t'.leaf)
    (hdom : ∀ v, t''.leaf v = none ↔ t'.leaf v = none)
    (hhigh : ∀ v, USERVPN ≤ v → t''.leaf v = t'.leaf v)
    (hfound : ∀ p, o' = some p → va / PGSIZE < USERVPN ∧ ∃ e, t''.leaf (va / PGSIZE) = some e ∧
      e.ppn = p ∧ e.flags.u = true ∧ e.flags.w = true)
    (href : m''.oomWarned = false → o' = none → ((privOf m t sz).fault va).find true va = none) :
    Touched m m'' t t'' ts ks sz true va o' := by
  refine ⟨hinv, h.keeps.trans hk, fun v hv => (hhigh v hv).trans (h.high v hv), fun v hne => ?_,
    fun p hp => ?_, fun ho => ?_, href⟩
  · exact h.grow v fun hn => hne ((hdom v).mpr hn)
  · obtain ⟨hv, e, he, hp, hu, hw⟩ := hfound p hp
    exact ⟨hv, e, he, hp, hu, fun _ => hw⟩
  · have ho' : m'.oomWarned = false := by
      by_contra hne
      rw [hk.oom (by simpa using hne)] at ho
      cases ho
    unfold privOf at *
    rw [hview]
    exact h.view ho'

include h hf hs in
/-- **The page `copyout` writes to.** -/
theorem copyoutPage_sat (va : Nat) :
    (copyoutPage ⟨t, sz, none⟩ va m).Returns
      fun r m' => ∃ t', r.2 = ⟨t', sz, none⟩ ∧ Touched m m' t t' ts ks sz true va r.1 := by
  unfold copyoutPage
  by_cases hva : MAXVA ≤ va
  · rw [if_pos hva]
    have hge : NVPN ≤ va / PGSIZE := Nat.div_le_div_right hva
    have hU : USERVPN ≤ va / PGSIZE := Nat.le_trans (by decide) hge
    refine ⟨t, rfl, touched_refused h hs (fun hc => ?_) fun e he hlt => absurd hlt (by omega)⟩
    have := vpn_lt hs hc.1
    omega
  rw [if_neg hva]
  refine (addrOrFault_sat h hf hs va).bind fun r m1 ⟨t1, hr, ht1⟩ => ?_
  obtain ⟨pa0, s1⟩ := r
  cases hr
  have hwf1 := ht1.inv.wf t1 List.mem_cons_self
  have hcur : (⟨t1, sz, none⟩ : Space).cur = t1 := rfl
  simp only [hcur, hwf1.pte_eq]
  cases pa0 with
  | none =>
    refine ⟨t1, rfl, ⟨ht1.inv, ht1.keeps, ht1.high, ht1.grow, (fun _ hq => nomatch hq), ht1.view,
      fun ho _ => Priv.find_write (ht1.refused ho rfl)⟩⟩
  | some p0 =>
    obtain ⟨hv, e, he, hp, hu, -⟩ := ht1.found p0 rfl
    rw [he]
    simp only
    by_cases hw : e.flags.w = true
    · rw [if_pos hw]
      refine ⟨t1, rfl, ⟨ht1.inv, ht1.keeps, ht1.high, ht1.grow, fun q hq => ?_, ht1.view,
        fun _ hn => nomatch hn⟩⟩
      cases hq
      exact ⟨hv, e, he, hp, hu, fun _ => hw⟩
    rw [if_neg hw]
    by_cases hc : e.flags.cow = false
    · rw [if_pos hc]
      refine ⟨t1, rfl, ⟨ht1.inv, ht1.keeps, ht1.high, ht1.grow, (fun _ hq => nomatch hq), ht1.view,
        fun ho _ => ?_⟩⟩
      rw [← ht1.view ho]
      refine find_none fun e' he' _ hcc => ?_
      rw [he] at he'
      cases he'
      have := hcc.2 rfl
      rw [hc] at this
      simp [hw] at this
    rw [if_neg hc]
    refine (cowfault_sat ht1.inv (ht1.fenced hf) va).bind
      fun r2 m2 ⟨hinv2, hk2, hview2, hcase⟩ => ?_
    obtain ⟨ok, t2⟩ := r2
    rcases hcase with ⟨hok, -, e1, p1, he1, hcow, ht2⟩ | ⟨hok, ht2, hcase⟩
    · cases hok
      have het : t2 = t1.setLeaf (va / PGSIZE) (some ⟨p1, e1.flags.own⟩) := ht2
      rw [he] at he1
      cases he1
      have hat : t2.leaf (va / PGSIZE) = some ⟨p1, e.flags.own⟩ := by
        rw [het, PageTable.leaf_setLeaf, if_pos rfl]
      have hwalk : t2.walkaddr va = some p1 := by
        unfold PageTable.walkaddr
        rw [(hinv2.wf t2 List.mem_cons_self).pte_eq, hat]
        exact if_pos hu
      simp only [if_neg (by simp : ¬ true = false), hwalk, Option.getD_some]
      refine ⟨t2, rfl, ht1.cow hinv2 hk2 hview2 (fun v => ?_) (fun v hv' => ?_) ?_
        fun _ hn => nomatch hn⟩
      · rw [het, PageTable.leaf_setLeaf]
        split
        · rename_i ev
          rw [ev, he]
          simp
        · exact Iff.rfl
      · rw [het, PageTable.leaf_setLeaf, if_neg (by omega)]
      · rintro _ ⟨⟩
        exact ⟨hv, _, hat, rfl, hu, rfl⟩
    · cases hok
      have het : t2 = t1 := ht2
      subst het
      rcases hcase with ⟨-, hno⟩ | hoom
      · exact absurd (hno e he) hc
      · refine ⟨t2, rfl, ht1.cow hinv2 hk2 hview2 (fun _ => Iff.rfl) (fun _ _ => rfl)
          (fun _ hq => nomatch hq) fun ho _ => ?_⟩
        rw [hoom] at ho
        cases ho

/-- A trap on an entry that is valid and not copy-on-write repairs nothing. -/
theorem usertrap_settled (hwf : t.WF) (hl : t.leaf (va / PGSIZE) = some e)
    (hc : e.flags.cow = false) :
    usertrap ⟨t, sz, none⟩ va m = .ok (false, ⟨t, sz, none⟩) m := by
  have hdiv : pgrounddown va / PGSIZE = va / PGSIZE := page_div _
  have hpte : t.pte (pgrounddown va) = some e := by
    rw [hwf.pte_eq, hdiv, hl]
  have hcow : cowfault t va m = .ok (false, t) m := by
    unfold cowfault
    rw [hpte]
    simp only [if_pos hc, pure_run]
  have hvm : vmfault ⟨t, sz, none⟩ va m = .ok (none, ⟨t, sz, none⟩) m := by
    unfold vmfault
    have hcur : (⟨t, sz, none⟩ : Space).cur = t := rfl
    rw [hcur, hpte]
    split
    · rfl
    · rfl
  unfold usertrap
  rw [bind_ok hcow]
  simp only [if_neg (by simp : ¬ false = true)]
  rw [bind_ok hvm]
  rfl

/-- An access to such an entry ends at once. -/
theorem access_settled (hwf : t.WF) (n : Nat) (hl : t.leaf (va / PGSIZE) = some e)
    (hc : e.flags.cow = false) :
    access write (n + 1) ⟨t, sz, none⟩ va m =
      .ok (if e.flags.u = true ∧ (write = true → e.flags.w = true) then some e.ppn else none,
        ⟨t, sz, none⟩) m := by
  unfold access PageTable.translate
  rw [hwf.pte_eq, hl]
  by_cases hp : e.flags.u = true ∧ (write = true → e.flags.w = true)
  · simp only [if_pos hp]
    rfl
  · simp only [if_neg hp]
    rw [bind_ok (usertrap_settled hwf hl hc)]
    rfl

/-- The instruction runs again after `vmfault`, or the process is killed. -/
theorem access_again (n : Nat) {t0 : PageTable} (h : Touched m0 m t0 t ts ks sz write va o)
    (hat : ∀ p, o = some p → t.leaf (va / PGSIZE) = some ⟨p, Flags.W.user⟩) :
    ((if o.isSome = true then access write (n + 1) ⟨t, sz, none⟩ va
        else pure (none, ⟨t, sz, none⟩) : VmM (Option Nat × Space)) m).Returns
      fun r m' => ∃ t', r.2 = ⟨t', sz, none⟩ ∧ Touched m0 m' t0 t' ts ks sz write va r.1 := by
  cases o with
  | none => exact ⟨t, rfl, h⟩
  | some p =>
    have hset : access write (n + 1) ⟨t, sz, none⟩ va m = .ok (some p, ⟨t, sz, none⟩) m := by
      rw [access_settled (h.inv.wf t List.mem_cons_self) n (hat p rfl) rfl]
      rw [if_pos ⟨rfl, fun _ => rfl⟩]
    show (access write (n + 1) ⟨t, sz, none⟩ va m).Sat _ _
    rw [hset]
    exact ⟨t, rfl, h⟩

include h hf hs in
/-- **A load or a store of user code.** -/
theorem access_sat (n : Nat) (write : Bool) (va : Nat) :
    (access write (n + 2) ⟨t, sz, none⟩ va m).Returns
      fun r m' => ∃ t', r.2 = ⟨t', sz, none⟩ ∧ Touched m m' t t' ts ks sz write va r.1 := by
  have hwf := h.wf t List.mem_cons_self
  unfold access
  cases htr : t.translate write va with
  | some p =>
    unfold PageTable.translate at htr
    rw [hwf.pte_eq] at htr
    cases hl : t.leaf (va / PGSIZE) with
    | none =>
      rw [hl] at htr
      cases htr
    | some e =>
      rw [hl] at htr
      simp only at htr
      split at htr
      · rename_i hp
        cases htr
        have hv : va / PGSIZE < USERVPN := by
          by_contra hge
          rw [(hf _ e (by omega) hl).1] at hp
          cases hp.1
        exact ⟨t, rfl, touched_same h hs hv hl hp.1 hp.2⟩
      · cases htr
  | none =>
    have hno : ∀ e, t.leaf (va / PGSIZE) = some e →
        ¬ (e.flags.u = true ∧ (write = true → e.flags.w = true)) := by
      intro e hl hp
      unfold PageTable.translate at htr
      rw [hwf.pte_eq, hl] at htr
      simp only [if_pos hp] at htr
      cases htr
    let Q : Bool × Space → Mem → Prop := fun r m' =>
      ((if r.1 = true then access write (n + 1) r.2 va else pure (none, r.2) :
        VmM (Option Nat × Space)) m').Returns
        fun r m' => ∃ t', r.2 = ⟨t', sz, none⟩ ∧ Touched m m' t t' ts ks sz write va r.1
    have htrap : (usertrap ⟨t, sz, none⟩ va m).Returns Q := by
      refine (cowfault_sat h hf va).bind fun r m1 ⟨hinv1, hk1, hview1, hcase⟩ => ?_
      obtain ⟨ok, t1⟩ := r
      rcases hcase with ⟨hok, hv, e, p, hl, hc, ht1⟩ | ⟨hok, ht1, hcase⟩
      · cases hok
        have het : t1 = t.setLeaf (va / PGSIZE) (some ⟨p, e.flags.own⟩) := ht1
        have hat : t1.leaf (va / PGSIZE) = some ⟨p, e.flags.own⟩ := by
          rw [het, PageTable.leaf_setLeaf, if_pos rfl]
        have hset : access write (n + 1) ⟨t1, sz, none⟩ va m1 = .ok
            (if e.flags.u = true then some p else none, ⟨t1, sz, none⟩) m1 := by
          rw [access_settled (hinv1.wf t1 List.mem_cons_self) n hat rfl]
          simp only [Flags.own, implies_true, and_true]
        show (access write (n + 1) ⟨t1, sz, none⟩ va m1).Sat _ _
        rw [hset]
        refine ⟨t1, rfl, hinv1, hk1, fun v hv' => ?_, fun v hne => Or.inl fun hn => ?_,
          fun q hq => ?_, fun _ => ?_, fun _ hn => ?_⟩
        · rw [het, PageTable.leaf_setLeaf, if_neg (by omega)]
        · rw [het, PageTable.leaf_setLeaf] at hne
          split at hne
          · rename_i ev
            rw [ev, hl] at hn
            cases hn
          · exact hne hn
        · by_cases hu : e.flags.u = true
          · rw [if_pos hu] at hq
            cases hq
            exact ⟨hv, _, hat, rfl, hu, fun _ => rfl⟩
          · rw [if_neg hu] at hq
            cases hq
        · rw [fault_same hs (by rw [hl]; simp)]
          exact congrArg (Priv.mk sz) hview1
        · rw [fault_same hs (by rw [hl]; simp)]
          refine find_none fun e' he' _ hc' => ?_
          rw [hl] at he'
          cases he'
          rw [if_pos hc'.1] at hn
          cases hn
      · cases hok
        have e1 : t1 = t := ht1
        subst e1
        refine (vmfault_touched hinv1 hs write hk1 fun ho => ?_).bind
          fun r m2 ⟨t2, hr, ht2, hat⟩ => ?_
        · rcases hcase with ⟨hm, hnc⟩ | hoom
          · refine ⟨hm, fun e he _ hp => hno e he ⟨hp.1, fun hw => ?_⟩⟩
            have := hp.2 hw
            rwa [hnc e he, Bool.or_false] at this
          · rw [hoom] at ho
            cases ho
        · obtain ⟨o, s2⟩ := r
          cases hr
          exact access_again n ht2 hat
    exact htrap.bind fun r m' hr => hr

/-! ## 5. Whole operations -/

/-- **One address space moved**: the account holds, nobody else's pages were touched, and pages
    appeared only below the break. -/
structure Moved (m m' : Mem) (t t' : PageTable) (ts : List PageTable) (ks : List Nat) (sz : Nat) :
    Prop where
  inv : Inv m' (t' :: ts) ks
  keeps : m.Keeps (Live ts ks) m'
  high : ∀ v, USERVPN ≤ v → t'.leaf v = t.leaf v
  grow : ∀ v, t'.leaf v ≠ none → t.leaf v ≠ none ∨ v < pages sz

include h in
theorem Moved.refl (sz : Nat) : Moved m m t t ts ks sz :=
  ⟨h, Mem.Keeps.refl m, fun _ _ => rfl, fun _ hne => Or.inl hne⟩

theorem Moved.trans {t'' : PageTable} (h : Moved m m' t t' ts ks sz)
    (h' : Moved m' m'' t' t'' ts ks sz) : Moved m m'' t t'' ts ks sz where
  inv := h'.inv
  keeps := h.keeps.trans h'.keeps
  high := fun v hv => (h'.high v hv).trans (h.high v hv)
  grow := fun v hne => (h'.grow v hne).elim (h.grow v) Or.inr

theorem Moved.fenced (h : Moved m m' t t' ts ks sz) (hf : t.Fenced) : t'.Fenced :=
  fun v e hv he => hf v e hv (by rw [← h.high v hv, he])

theorem Touched.moved (h : Touched m m' t t' ts ks sz write va o) :
    Moved m m' t t' ts ks sz where
  inv := h.inv
  keeps := h.keeps
  high := h.high
  grow := fun v hne => by
    rcases h.grow v hne with hl | ⟨rfl, hlt⟩
    · exact Or.inl hl
    · refine Or.inr ?_
      rw [pages_eq]
      show va / 4096 < _
      omega

/-- **A routine on one address space implements `f`**: unless memory ran out, result and private
    memory are those of `f`. -/
def Does {α : Type} (m : Mem) (t : PageTable) (ts : List PageTable) (ks : List Nat) (sz : Nat)
    (f : Priv → α × Priv) (r : α × Space) (m' : Mem) : Prop :=
  ∃ t', r.2 = ⟨t', sz, none⟩ ∧ Moved m m' t t' ts ks sz ∧
    (m'.oomWarned = false → f (privOf m t sz) = (r.1, privOf m' t' sz))

include h in
/-- A page mapped writable is nobody else's. -/
theorem Inv.own_page (hv : v < USERVPN) (hl : t.leaf v = some e)
    (hw : e.flags.w = true) : ¬ Live ts ks e.ppn := by
  have h1 := h.sole t List.mem_cons_self v hv e hl hw
  have h2 : 0 < t.users e.ppn := PageTable.users_pos.mpr ⟨v, hv, e, hl, rfl⟩
  rw [refs_cons] at h1
  unfold Live
  omega

include h in
/-- **Bytes written to a page mapped writable** are written to that page of the private memory, and
    nowhere else. -/
theorem poke_own (hv : v < USERVPN) (hl : t.leaf v = some e)
    (hw : e.flags.w = true) (off : Nat) (bs : List UInt8) (sz : Nat) :
    (poke e.ppn off bs m).Returns
      fun _ m' => m'.oomWarned = m.oomWarned ∧ Moved m m' t t ts ks sz ∧
        privOf m' t sz = (privOf m t sz).setPage v
          { e.cell m.ram with data := patch (m.ram e.ppn) off bs } := by
  refine ⟨rfl, ⟨h.setRam _, ⟨rfl, fun q hq => update_of_ne ?_ _ _, id⟩, fun _ _ => rfl,
    fun _ hne => Or.inl hne⟩, ?_⟩
  · rintro rfl
    exact h.own_page hv hl hw hq
  · let ram' := update m.ram e.ppn (patch (m.ram e.ppn) off bs)
    have hsame : (t.setLeaf v (some e)).leaf = t.leaf := by
      show update t.leaf v (some e) = t.leaf
      rw [← hl, update_eq_self]
    have hview := viewOf_setLeaf t m.ram ram' e hv fun v' hv' hne e' he' => by
      refine update_of_ne (fun hpp => hne ?_) _ _
      exact (h.wf t List.mem_cons_self).inj v' v e' e hv' hv he' hl hpp
    rw [hsame] at hview
    have hcell : e.cell ram' = { e.cell m.ram with data := patch (m.ram e.ppn) off bs } := by
      unfold Pte.cell
      rw [show ram' e.ppn = _ from update_self e.ppn _ _]
    rw [hcell] at hview
    exact congrArg (Priv.mk sz) hview

include h hf hs in
/-- **A load implements the load of private memory.** -/
theorem load_sat (va : Nat) : (load ⟨t, sz, none⟩ va m).Returns (Does m t ts ks sz (·.load va)) := by
  refine (access_sat h hf hs 1 false va).bind fun r m1 ⟨t1, hr, ht⟩ => ?_
  obtain ⟨o, s1⟩ := r
  cases hr
  cases o with
  | none =>
    refine ⟨t1, rfl, ht.moved, fun ho => ?_⟩
    show (privOf m t sz).load va = _
    unfold Priv.load
    rw [ht.touch ho]
    rfl
  | some p =>
    obtain ⟨hv, e, he, rfl, -⟩ := ht.found p rfl
    refine ⟨t1, rfl, ht.moved, fun ho => ?_⟩
    show (privOf m t sz).load va = _
    unfold Priv.load
    rw [ht.touch ho, if_neg (Option.some_ne_none _), viewOf_some m1.ram hv he]
    rfl

include h hf hs in
/-- **A store implements the store of private memory.** -/
theorem store_sat (va : Nat) (b : UInt8) :
    (store ⟨t, sz, none⟩ va b m).Returns (Does m t ts ks sz (·.store va b)) := by
  refine (access_sat h hf hs 1 true va).bind fun r m1 ⟨t1, hr, ht⟩ => ?_
  obtain ⟨o, s1⟩ := r
  cases hr
  cases o with
  | none =>
    refine ⟨t1, rfl, ht.moved, fun ho => ?_⟩
    show (privOf m t sz).store va b = _
    unfold Priv.store
    rw [ht.touch ho]
    rfl
  | some p =>
    obtain ⟨hv, e, he, rfl, -, hw⟩ := ht.found p rfl
    refine (poke_own ht.inv hv he (hw rfl) (va % PGSIZE) [b] sz).bind
      fun _ m2 ⟨hom, hmv, hview⟩ => ⟨t1, rfl, ht.moved.trans hmv, fun ho => ?_⟩
    show (privOf m t sz).store va b = _
    unfold Priv.store
    rw [ht.touch (hom ▸ ho), if_neg (Option.some_ne_none _), viewOf_some m1.ram hv he, hview]
    rfl

theorem sub_pgrounddown (va : Nat) : va - pgrounddown va = va % PGSIZE := by
  show va - va / 4096 * 4096 = va % 4096
  omega

theorem pgrounddown_div (va : Nat) : pgrounddown va / PGSIZE = va / PGSIZE := page_div _

/-- The loop of `copyin`. -/
theorem copyinLoop_sat (k : Nat) (h : Inv m (t :: ts) ks) (hf : t.Fenced) (hs : sz ≤ TRAPFRAME)
    (srcva len : Nat) (dst : List UInt8) :
    (copyinLoop k ⟨t, sz, none⟩ srcva len dst m).Returns
      (Does m t ts ks sz (Priv.copyinLoop k · srcva len dst)) := by
  induction k generalizing m t srcva len dst with
  | zero => exact ⟨t, rfl, Moved.refl h sz, fun _ => rfl⟩
  | succ k ih =>
    unfold copyinLoop
    split
    · rename_i hlen
      refine ⟨t, rfl, Moved.refl h sz, fun _ => ?_⟩
      show (if len = 0 then _ else _) = _
      rw [if_pos hlen]
    · rename_i hlen
      refine (addrOrFault_sat h hf hs (pgrounddown srcva)).bind
        fun r m1 ⟨t1, hr, ht⟩ => ?_
      obtain ⟨o, s1⟩ := r
      cases hr
      cases o with
      | none =>
        refine ⟨t1, rfl, ht.moved, fun ho => ?_⟩
        show (if len = 0 then _ else _) = _
        rw [if_neg hlen, ← pgrounddown_eq, ht.touch ho]
        rfl
      | some p =>
        obtain ⟨hv, e, he, rfl, -⟩ := ht.found p rfl
        refine (ih ht.inv (ht.fenced hf) _ _ _).imp fun r m3 ⟨t3, hr3, hmv, hview⟩ =>
          ⟨t3, hr3, ht.moved.trans hmv, fun ho => ?_⟩
        show (if len = 0 then _ else _) = _
        rw [if_neg hlen, ← pgrounddown_eq, ht.touch (hmv.keeps.oom_false ho),
          if_neg (Option.some_ne_none _), viewOf_some m1.ram hv he, ← hview ho, sub_pgrounddown]
        rfl

include h hf hs in
/-- **`copyin` implements the copy from private memory.** -/
theorem copyin_sat (srcva len : Nat) :
    (copyin ⟨t, sz, none⟩ srcva len m).Returns (Does m t ts ks sz (·.copyin srcva len)) :=
  copyinLoop_sat len h hf hs srcva len []

/-- The loop of `copyout`. -/
theorem copyoutLoop_sat (k : Nat) (h : Inv m (t :: ts) ks) (hf : t.Fenced) (hs : sz ≤ TRAPFRAME)
    (dstva : Nat) (src : List UInt8) :
    (copyoutLoop k ⟨t, sz, none⟩ dstva src m).Returns
      (Does m t ts ks sz (Priv.copyoutLoop k · dstva src)) := by
  induction k generalizing m t dstva src with
  | zero => exact ⟨t, rfl, Moved.refl h sz, fun _ => rfl⟩
  | succ k ih =>
    unfold copyoutLoop
    split
    · rename_i hsrc
      refine ⟨t, rfl, Moved.refl h sz, fun _ => ?_⟩
      show (if src = [] then _ else _) = _
      rw [if_pos hsrc]
    · rename_i hsrc
      refine (copyoutPage_sat h hf hs (pgrounddown dstva)).bind
        fun r m1 ⟨t1, hr, ht⟩ => ?_
      obtain ⟨o, s1⟩ := r
      cases hr
      cases o with
      | none =>
        refine ⟨t1, rfl, ht.moved, fun ho => ?_⟩
        show (if src = [] then _ else _) = _
        rw [if_neg hsrc, ← pgrounddown_eq, ht.touch ho]
        rfl
      | some p =>
        obtain ⟨hv, e, he, rfl, -, hw⟩ := ht.found p rfl
        refine (poke_own ht.inv hv he (hw rfl) _ _ sz).bind
          fun _ m2 ⟨hom, hmv2, hview2⟩ => ?_
        refine (ih hmv2.inv (ht.fenced hf) _ _).imp fun r m3 ⟨t3, hr3, hmv, hview⟩ =>
          ⟨t3, hr3, (ht.moved.trans hmv2).trans hmv, fun ho => ?_⟩
        have ho1 : m1.oomWarned = false := hom ▸ hmv.keeps.oom_false ho
        show (if src = [] then _ else _) = _
        rw [if_neg hsrc, ← pgrounddown_eq, ht.touch ho1, if_neg (Option.some_ne_none _),
          viewOf_some m1.ram hv he, ← hview ho, hview2, sub_pgrounddown, pgrounddown_div]
        rfl

include h hf hs in
/-- **`copyout` implements the copy into private memory.** -/
theorem copyout_sat (dstva : Nat) (src : List UInt8) :
    (copyout ⟨t, sz, none⟩ dstva src m).Returns (Does m t ts ks sz (·.copyout dstva src)) :=
  copyoutLoop_sat src.length h hf hs dstva src

end

end HaiOS.Vm
