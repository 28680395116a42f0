/-
  File:      HaiOS/Vm/Account.lean
  Subject:   WHO REFERS TO WHICH PAGE. The references that page tables and the kernel hold, and the
             invariant that the allocator's counts are the number of them.

  * `refs ts ks p` -- the references to page `p` from the page tables `ts` (their own pages and the
    user pages they map) and from the kernel's pages `ks`;
  * `Inv m ts ks` -- the records of `m` are exact for these references, a page of the kernel has no
    other reference, and a page some table maps writable has no other reference.

  The table a routine works on stands at the head of the list; the others are its frame.
-/
import HaiOS.Vm.Uvm
import HaiOS.Lib.Count

namespace HaiOS.Vm

open Lib Lib.Routine

theorem USERVPN_eq : USERVPN = 67108862 := rfl

theorem NPAGE_eq : NPAGE = 589824 := rfl

/-! ## 1. References -/

/-- 1 when the entry names the table page `p`. -/
def names (p : Nat) : Option Nat → Nat
  | none => 0
  | some q => if q = p then 1 else 0

/-- 1 when the leaf entry maps the page `p`. -/
def maps (p : Nat) : Option Pte → Nat
  | none => 0
  | some e => if e.ppn = p then 1 else 0

namespace PageTable

/-- How often `p` is a page of the table itself. -/
@[irreducible] def tables (t : PageTable) (p : Nat) : Nat :=
  names p (some t.root) + total (Finset.range 512) (names p) t.mid +
    total (Finset.range (512 * 512)) (names p) t.low

/-- The leaf entries of the user range that map `p`. -/
@[irreducible] def users (t : PageTable) (p : Nat) : Nat := total (Finset.range USERVPN) (maps p) t.leaf

/-- The shape of a page table: entries stand in tables that are there, and the user range maps no
    page twice. -/
structure WF (t : PageTable) : Prop where
  mid : ∀ i, 256 ≤ i → t.mid i = none
  low : ∀ k, t.mid (k / 512) = none → t.low k = none
  leaf : ∀ v, t.low (v / 512) = none → t.leaf v = none
  inj : ∀ v v' e e', v < USERVPN → v' < USERVPN → t.leaf v = some e → t.leaf v' = some e' →
    e.ppn = e'.ppn → v = v'

end PageTable

/-- References of the kernel: pages of tables, and the pages `ks`. -/
def kernRefs (ts : List PageTable) (ks : List Nat) (p : Nat) : Nat :=
  (ts.map (·.tables p)).sum + ks.count p

/-- References of user code. -/
def userRefs (ts : List PageTable) (p : Nat) : Nat := (ts.map (·.users p)).sum

/-- All references to page `p`. -/
def refs (ts : List PageTable) (ks : List Nat) (p : Nat) : Nat := kernRefs ts ks p + userRefs ts p

/-- Somebody refers to the page. -/
def Live (ts : List PageTable) (ks : List Nat) (p : Nat) : Prop := 0 < refs ts ks p

/-- **The account of the memory is exact.** -/
structure Inv (m : Mem) (ts : List PageTable) (ks : List Nat) : Prop where
  exact : m.Exact (refs ts ks)
  wf : ∀ t ∈ ts, t.WF
  held : ∀ p, 0 < kernRefs ts ks p → refs ts ks p = 1
  sole : ∀ t ∈ ts, ∀ v < USERVPN, ∀ e, t.leaf v = some e → e.flags.w = true →
    refs ts ks e.ppn = 1
  few : ts.length < 2 ^ 15

section Refs

variable {t t' : PageTable} {ts : List PageTable} {ks : List Nat} {p q v : Nat}

theorem kernRefs_cons (t : PageTable) (ts : List PageTable) (ks : List Nat) (p : Nat) :
    kernRefs (t :: ts) ks p = t.tables p + kernRefs ts ks p := by
  simp [kernRefs]
  omega

theorem kernRefs_page (ts : List PageTable) (k : Nat) (ks : List Nat) (p : Nat) :
    kernRefs ts (k :: ks) p = names p (some k) + kernRefs ts ks p := by
  unfold kernRefs names
  rw [List.count_cons]
  simp only [beq_iff_eq]
  omega

theorem userRefs_cons (t : PageTable) (ts : List PageTable) (p : Nat) :
    userRefs (t :: ts) p = t.users p + userRefs ts p := by
  simp [userRefs]

theorem refs_cons (t : PageTable) (ts : List PageTable) (ks : List Nat) (p : Nat) :
    refs (t :: ts) ks p = t.tables p + t.users p + refs ts ks p := by
  unfold refs
  rw [kernRefs_cons, userRefs_cons]
  omega

theorem refs_page (ts : List PageTable) (k : Nat) (ks : List Nat) (p : Nat) :
    refs ts (k :: ks) p = names p (some k) + refs ts ks p := by
  unfold refs
  rw [kernRefs_page]
  omega

theorem names_none (p : Nat) : names p none = 0 := rfl

theorem names_self (p : Nat) : names p (some p) = 1 := if_pos rfl

theorem names_ne (h : q ≠ p) : names p (some q) = 0 := if_neg h

theorem maps_none (p : Nat) : maps p none = 0 := rfl

theorem maps_some (p : Nat) (e : Pte) : maps p (some e) = names p (some e.ppn) := rfl

theorem maps_mk (p q : Nat) (f : Flags) : maps p (some ⟨q, f⟩) = names p (some q) := rfl

theorem maps_le_one (p : Nat) (e : Option Pte) : maps p e ≤ 1 := by
  cases e with
  | none => exact Nat.zero_le 1
  | some e =>
    show (if e.ppn = p then 1 else 0) ≤ 1
    split_ifs <;> omega

theorem maps_pos {o : Option Pte} : 0 < maps p o ↔ ∃ e, o = some e ∧ e.ppn = p := by
  cases o with
  | none => simp [maps]
  | some e =>
    by_cases h : e.ppn = p
    · simp [maps, h]
    · simp [maps, h]

theorem PageTable.users_pos : 0 < t.users p ↔ ∃ v < USERVPN, ∃ e, t.leaf v = some e ∧ e.ppn = p := by
  unfold PageTable.users
  rw [total_pos]
  simp only [Finset.mem_range, maps_pos]

theorem PageTable.WF.users_le_one (h : t.WF) (p : Nat) : t.users p ≤ 1 := by
  unfold PageTable.users
  refine total_le_one (maps_le_one p) fun v hv v' hv' h1 h2 => ?_
  obtain ⟨e, he, hp⟩ := maps_pos.mp h1
  obtain ⟨e', he', hp'⟩ := maps_pos.mp h2
  exact h.inj v v' e e' (Finset.mem_range.mp hv) (Finset.mem_range.mp hv') he he'
    (hp.trans hp'.symm)

theorem userRefs_le_length (h : ∀ t ∈ ts, t.WF) (p : Nat) : userRefs ts p ≤ ts.length := by
  induction ts with
  | nil => exact Nat.le_refl 0
  | cons t ts ih =>
    rw [userRefs_cons, List.length_cons]
    have h1 := (h t List.mem_cons_self).users_le_one p
    have h2 := ih fun t ht => h t (List.mem_cons_of_mem _ ht)
    omega

/-- The entry of page `v` changes, inside the user range. -/
theorem PageTable.users_setLeaf (hv : v < USERVPN) (e : Option Pte) (p : Nat) :
    (t.setLeaf v e).users p + maps p (t.leaf v) = t.users p + maps p e := by
  unfold PageTable.users
  exact total_update (maps p) t.leaf (Finset.mem_range.mpr hv) e

/-- The entries of the trampoline and the trap frame are not counted. -/
theorem PageTable.users_setLeaf_high (hv : USERVPN ≤ v) (e : Option Pte) (p : Nat) :
    (t.setLeaf v e).users p = t.users p := by
  unfold PageTable.users
  exact total_update_of_notMem (maps p) t.leaf (by rw [Finset.mem_range]; omega) e

theorem PageTable.tables_setLeaf (e : Option Pte) (p : Nat) :
    (t.setLeaf v e).tables p = t.tables p := by
  unfold PageTable.tables
  rfl

theorem PageTable.leaf_setLeaf (t : PageTable) (v : Nat) (e : Option Pte) (v' : Nat) :
    (t.setLeaf v e).leaf v' = if v' = v then e else t.leaf v' :=
  Function.update_apply t.leaf v e v'

theorem userRefs_perm {ts' : List PageTable} (h : ts.Perm ts') (p : Nat) :
    userRefs ts p = userRefs ts' p :=
  (h.map _).sum_eq

theorem refs_perm {ts' : List PageTable} {ks' : List Nat} (h : ts.Perm ts') (hk : ks.Perm ks')
    (p : Nat) : refs ts ks p = refs ts' ks' p := by
  unfold refs kernRefs
  rw [userRefs_perm h p, (h.map (·.tables p)).sum_eq, hk.count_eq]

end Refs

/-! ## 2. The ways references move -/

namespace Inv

variable {m m' : Mem} {t t' : PageTable} {ts ts' : List PageTable} {ks ks' : List Nat} {p v : Nat}
  {e : Pte}

theorem perm (h : Inv m ts ks) (ht : ts.Perm ts') (hk : ks.Perm ks') : Inv m ts' ks' := by
  have hr : ∀ p, refs ts' ks' p = refs ts ks p := fun p => (refs_perm ht hk p).symm
  have hkr : ∀ p, kernRefs ts' ks' p = kernRefs ts ks p := by
    intro p
    unfold kernRefs
    rw [(ht.map (·.tables p)).sum_eq, hk.count_eq]
  refine ⟨h.exact.congr hr, fun t hm => h.wf t (ht.mem_iff.mpr hm), fun p hp => ?_,
    fun t hm v hv e he hw => ?_, ht.length_eq ▸ h.few⟩
  · rw [hr]
    exact h.held p (hkr p ▸ hp)
  · rw [hr]
    exact h.sole t (ht.mem_iff.mpr hm) v hv e he hw

/-- The account does not depend on the bytes, nor on the warnings. -/
theorem setMem (h : Inv m ts ks) (he : m'.Exact (refs ts ks)) : Inv m' ts ks :=
  ⟨he, h.wf, h.held, h.sole, h.few⟩

theorem setRam (h : Inv m ts ks) (f : Nat → Store) : Inv { m with ram := f } ts ks :=
  h.setMem (h.exact.setRam f)

theorem setOom (h : Inv m ts ks) : Inv { m with oomWarned := true } ts ks :=
  h.setMem ⟨h.exact.counted, h.exact.free, h.exact.total, h.exact.ready⟩

/-- A page that a table maps in the user range has a reference. -/
theorem users_le (hm : t ∈ ts) (p : Nat) : t.users p ≤ userRefs ts p := by
  induction ts with
  | nil => cases hm
  | cons t1 ts ih =>
    rw [userRefs_cons]
    rcases List.mem_cons.mp hm with rfl | hm
    · omega
    · have := ih hm
      omega

theorem users_pos (hm : t ∈ ts) (hv : v < USERVPN) (he : t.leaf v = some e) :
    0 < userRefs ts e.ppn := by
  have h1 : 0 < t.users e.ppn := PageTable.users_pos.mpr ⟨v, hv, e, he, rfl⟩
  have h2 := users_le hm e.ppn
  omega

/-- A page user code maps is no page of the kernel. -/
theorem kern_of_mapped (h : Inv m ts ks) (hm : t ∈ ts) (hv : v < USERVPN) (he : t.leaf v = some e) :
    kernRefs ts ks e.ppn = 0 := by
  by_contra hne
  have h1 := h.held e.ppn (by omega)
  have h2 := users_pos hm hv he
  unfold refs at h1
  omega

/-- The references to a page that is mapped fit in 15 bits. -/
theorem refs_small (h : Inv m ts ks) (hm : t ∈ ts) (hv : v < USERVPN) (he : t.leaf v = some e) :
    refs ts ks e.ppn < 2 ^ 15 := by
  have h1 := h.kern_of_mapped hm hv he
  have h2 := userRefs_le_length h.wf e.ppn
  have h3 := h.few
  unfold refs
  omega

/-- **The kernel takes a page** nobody refers to. -/
theorem alloc (h : Inv m ts ks) (h0 : refs ts ks p = 0) (he : m'.Exact (refs ts (p :: ks))) :
    Inv m' ts (p :: ks) := by
  refine ⟨he, h.wf, fun q hq => ?_, fun t hm v hv e hl hw => ?_, h.few⟩
  · rw [refs_page]
    by_cases hqp : q = p
    · subst hqp
      rw [names_self, h0]
    · have hn := names_ne (p := q) (fun e : p = q => hqp e.symm)
      rw [kernRefs_page, hn, Nat.zero_add] at hq
      rw [hn, h.held q hq]
  · have h1 := h.sole t hm v hv e hl hw
    have hne : p ≠ e.ppn := by
      rintro rfl
      omega
    rw [refs_page, names_ne hne, h1]

/-- **The kernel gives a page of its own back.** -/
theorem free (h : Inv m ts (p :: ks)) (he : m'.Exact (refs ts ks)) : Inv m' ts ks := by
  have hp : refs ts (p :: ks) p = 1 :=
    h.held p (by rw [kernRefs_page, names_self]; omega)
  rw [refs_page, names_self] at hp
  refine ⟨he, h.wf, fun q hq => ?_, fun t hm v hv e hl hw => ?_, h.few⟩
  · have h1 := h.held q (by rw [kernRefs_page]; omega)
    have hqp : p ≠ q := by
      rintro rfl
      unfold refs at hp
      omega
    rwa [refs_page, names_ne hqp, Nat.zero_add] at h1
  · have h1 := h.sole t hm v hv e hl hw
    have hne : p ≠ e.ppn := by
      rintro rfl
      have := users_pos hm hv hl
      unfold refs at hp
      omega
    rwa [refs_page, names_ne hne, Nat.zero_add] at h1

/-- **The table at the head changes and no page gains a reference**: what held for one reference
    holds still. Every change of one table goes through here. -/
theorem relink (h : Inv m (t :: ts) ks) (hwf : t'.WF) (he : m'.Exact (refs (t' :: ts) ks'))
    (hr : ∀ q, refs (t' :: ts) ks' q ≤ refs (t :: ts) ks q)
    (hk : ∀ q, kernRefs (t' :: ts) ks' q ≤ kernRefs (t :: ts) ks q)
    (hw : ∀ v < USERVPN, ∀ e, t'.leaf v = some e → e.flags.w = true → refs (t :: ts) ks e.ppn = 1) :
    Inv m' (t' :: ts) ks' := by
  refine ⟨he, fun s hs => ?_, fun q hq => ?_, fun s hs v hv e hl hfw => ?_, h.few⟩
  · rcases List.mem_cons.mp hs with rfl | hs
    · exact hwf
    · exact h.wf s (List.mem_cons_of_mem _ hs)
  · have h1 := h.held q (Nat.lt_of_lt_of_le hq (hk q))
    have h2 := hr q
    have h3 : kernRefs (t' :: ts) ks' q ≤ refs (t' :: ts) ks' q := Nat.le_add_right _ _
    omega
  · -- the page is mapped, so it keeps a reference, and it had no other
    have h1 : refs (t :: ts) ks e.ppn = 1 := by
      rcases List.mem_cons.mp hs with rfl | hs
      · exact hw v hv e hl hfw
      · exact h.sole s (List.mem_cons_of_mem _ hs) v hv e hl hfw
    have h2 := hr e.ppn
    have h3 := users_pos hs hv hl
    have h4 : userRefs (t' :: ts) e.ppn ≤ refs (t' :: ts) ks' e.ppn := Nat.le_add_left _ _
    omega

/-- **A page of the kernel becomes a page of a table, or the other way round**: the kernel's
    references stay what they are, the entries too. -/
theorem retable (h : Inv m (t :: ts) ks) (hwf : t'.WF) (hl : t'.leaf = t.leaf)
    (hk : ∀ p, kernRefs (t' :: ts) ks' p = kernRefs (t :: ts) ks p) : Inv m (t' :: ts) ks' := by
  have hr : ∀ p, refs (t' :: ts) ks' p = refs (t :: ts) ks p := by
    intro p
    unfold refs
    rw [hk, userRefs_cons, userRefs_cons]
    unfold PageTable.users
    rw [hl]
  refine h.relink hwf (h.exact.congr hr) (fun q => (hr q).le) (fun q => (hk q).le) ?_
  rw [hl]
  exact h.sole t List.mem_cons_self

variable {o : Option Pte}

/-- The shape of a table after one entry changed. -/
theorem wf_setLeaf (h : t.WF) {o : Option Pte} (hlow : o ≠ none → t.low (v / 512) ≠ none)
    (hnew : ∀ e, o = some e → v < USERVPN →
      ∀ v' < USERVPN, ∀ e', v' ≠ v → t.leaf v' = some e' → e'.ppn ≠ e.ppn) :
    (t.setLeaf v o).WF := by
  refine ⟨h.mid, h.low, fun v1 hl => ?_, fun v1 v2 e1 e2 h1 h2 he1 he2 hpp => ?_⟩
  · rw [PageTable.leaf_setLeaf]
    split
    · rename_i e1
      subst e1
      by_contra hne
      exact hlow hne hl
    · exact h.leaf v1 hl
  · rw [PageTable.leaf_setLeaf] at he1 he2
    split at he1 <;> split at he2
    · rename_i a b
      rw [a, b]
    · rename_i a b
      subst a
      exact absurd hpp.symm (hnew e1 he1 h1 v2 h2 e2 b he2)
    · rename_i a b
      subst b
      exact absurd hpp (hnew e2 he2 h2 v1 h1 e1 a he1)
    · exact h.inj v1 v2 e1 e2 h1 h2 he1 he2 hpp

theorem leaf_cases {t : PageTable} {v v' : Nat} {e : Pte} (h : (t.setLeaf v o).leaf v' = some e) :
    v' = v ∧ o = some e ∨ v' ≠ v ∧ t.leaf v' = some e := by
  rw [PageTable.leaf_setLeaf] at h
  split at h
  · exact Or.inl ⟨‹_›, h⟩
  · exact Or.inr ⟨‹_›, h⟩

theorem kernRefs_setLeaf (o : Option Pte) (q : Nat) :
    kernRefs (t.setLeaf v o :: ts) ks q = kernRefs (t :: ts) ks q := by
  rw [kernRefs_cons, kernRefs_cons, PageTable.tables_setLeaf]

/-- The references after an entry of the user range changed. -/
theorem refs_setLeaf (t : PageTable) (ts : List PageTable) (ks : List Nat) (hv : v < USERVPN)
    (o : Option Pte) (q : Nat) :
    refs (t.setLeaf v o :: ts) ks q + maps q (t.leaf v) = refs (t :: ts) ks q + maps q o := by
  have hu := PageTable.users_setLeaf (t := t) hv o q
  rw [refs_cons, refs_cons, PageTable.tables_setLeaf]
  omega

theorem refs_setLeaf_high (t : PageTable) (ts : List PageTable) (ks : List Nat) (hv : USERVPN ≤ v)
    (o : Option Pte) (q : Nat) :
    refs (t.setLeaf v o :: ts) ks q = refs (t :: ts) ks q := by
  rw [refs_cons, refs_cons, PageTable.tables_setLeaf, PageTable.users_setLeaf_high hv]

/-- **A page of the kernel is mapped** where nothing was. -/
theorem map (h : Inv m (t :: ts) (p :: ks)) (hv : v < USERVPN) (hl : t.leaf v = none)
    (hlow : t.low (v / 512) ≠ none) (f : Flags) :
    Inv m (t.setLeaf v (some ⟨p, f⟩) :: ts) ks := by
  have hk1 : 0 < kernRefs (t :: ts) (p :: ks) p := by
    rw [kernRefs_page, names_self]
    omega
  have hr : ∀ q, refs (t.setLeaf v (some ⟨p, f⟩) :: ts) ks q = refs (t :: ts) (p :: ks) q := by
    intro q
    have hu := refs_setLeaf t ts ks hv (some ⟨p, f⟩) q
    rw [hl, maps_none, maps_mk] at hu
    rw [refs_page]
    omega
  refine h.relink ?_ (h.exact.congr hr) (fun q => (hr q).le) (fun q => ?_) ?_
  · refine wf_setLeaf (h.wf t List.mem_cons_self) (fun _ => hlow) ?_
    rintro _ ⟨⟩ - v' hv' e' - he' rfl
    have := h.kern_of_mapped List.mem_cons_self hv' he'
    omega
  · rw [kernRefs_setLeaf, kernRefs_page]
    exact Nat.le_add_left _ _
  · intro v' hv' e' he' hw
    rcases leaf_cases he' with ⟨-, ⟨⟩⟩ | ⟨-, he'⟩
    · exact h.held p hk1
    · exact h.sole t List.mem_cons_self v' hv' e' he' hw

/-- **An entry outside the user range** -- the trampoline, the trap frame -- counts for nobody. -/
theorem mapHigh (h : Inv m (t :: ts) ks) (hv : USERVPN ≤ v)
    (hlow : o ≠ none → t.low (v / 512) ≠ none) : Inv m (t.setLeaf v o :: ts) ks := by
  have hr := refs_setLeaf_high t ts ks hv o
  refine h.relink ?_ (h.exact.congr hr) (fun q => (hr q).le) (fun q => (kernRefs_setLeaf o q).le) ?_
  · exact wf_setLeaf (h.wf t List.mem_cons_self) hlow fun _ _ hlt => absurd hlt (by omega)
  · intro v' hv' e' he' hw
    rcases leaf_cases he' with ⟨e, -⟩ | ⟨-, he'⟩
    · omega
    · exact h.sole t List.mem_cons_self v' hv' e' he' hw

/-- **A mapping goes**, and with it one reference to its page. -/
theorem unmap (h : Inv m (t :: ts) ks) (hv : v < USERVPN)
    (he : m'.Exact (refs (t.setLeaf v none :: ts) ks)) : Inv m' (t.setLeaf v none :: ts) ks := by
  refine h.relink ?_ he (fun q => ?_) (fun q => (kernRefs_setLeaf none q).le) ?_
  · exact wf_setLeaf (h.wf t List.mem_cons_self) (fun hn => absurd rfl hn) fun _ hn => nomatch hn
  · have := refs_setLeaf t ts ks hv none q
    rw [maps_none] at this
    omega
  · intro v' hv' e' he' hw
    rcases leaf_cases he' with ⟨-, ⟨⟩⟩ | ⟨-, he'⟩
    exact h.sole t List.mem_cons_self v' hv' e' he' hw

/-- **The flags of an entry change**, its page does not; `PTE_W` does not appear. -/
theorem reflag (h : Inv m (t :: ts) ks) (hl : t.leaf v = some e) {f : Flags}
    (hf : f.w = true → e.flags.w = true) : Inv m (t.setLeaf v (some ⟨e.ppn, f⟩) :: ts) ks := by
  have hr : ∀ q, refs (t.setLeaf v (some ⟨e.ppn, f⟩) :: ts) ks q = refs (t :: ts) ks q := by
    intro q
    by_cases hv : v < USERVPN
    · have hu := refs_setLeaf t ts ks hv (some ⟨e.ppn, f⟩) q
      rw [hl, maps_some, maps_mk] at hu
      omega
    · exact refs_setLeaf_high t ts ks (by omega) _ q
  have hwf := h.wf t List.mem_cons_self
  refine h.relink ?_ (h.exact.congr hr) (fun q => (hr q).le) (fun q => (kernRefs_setLeaf _ q).le) ?_
  · refine wf_setLeaf hwf (fun _ hn => ?_) ?_
    · rw [hwf.leaf v hn] at hl
      cases hl
    · rintro _ ⟨⟩ hv v' hv' e' hne he' hpp
      exact hne (hwf.inj v' v e' e hv' hv he' hl hpp)
  · intro v' hv' e' he' hw
    rcases leaf_cases he' with ⟨rfl, ⟨⟩⟩ | ⟨-, he'⟩
    · exact h.sole t List.mem_cons_self v' hv' e hl (hf hw)
    · exact h.sole t List.mem_cons_self v' hv' e' he' hw

/-- **A page user code has gets another entry**, in a table that does not map it yet; no entry for
    the page is writable. -/
theorem join (h : Inv m (t :: ts) ks) (hv : v < USERVPN) (hn : t.leaf v = none)
    (hlow : t.low (v / 512) ≠ none) (hno : t.users p = 0) (hpos : 0 < userRefs ts p)
    (hro : ∀ s ∈ ts, ∀ v' < USERVPN, ∀ e, s.leaf v' = some e → e.ppn = p → e.flags.w = false)
    {f : Flags} (hf : f.w = false) (he : m'.Exact (refs (t.setLeaf v (some ⟨p, f⟩) :: ts) ks)) :
    Inv m' (t.setLeaf v (some ⟨p, f⟩) :: ts) ks := by
  have hr : ∀ q, q ≠ p → refs (t.setLeaf v (some ⟨p, f⟩) :: ts) ks q = refs (t :: ts) ks q := by
    intro q hq
    have hu := refs_setLeaf t ts ks hv (some ⟨p, f⟩) q
    rwa [hn, maps_none, maps_mk, names_ne fun e => hq e.symm, Nat.add_zero, Nat.add_zero] at hu
  have hfree : ∀ v' < USERVPN, ∀ e', t.leaf v' = some e' → e'.ppn ≠ p := by
    rintro v' hv' e' he' rfl
    have := PageTable.users_pos.mpr ⟨v', hv', e', he', rfl⟩
    omega
  refine ⟨he, fun s hs => ?_, fun q hq => ?_, fun s hs v' hv' e' he' hw => ?_, h.few⟩
  · rcases List.mem_cons.mp hs with rfl | hs
    · refine wf_setLeaf (h.wf t List.mem_cons_self) (fun _ => hlow) ?_
      rintro _ ⟨⟩ - v' hv' e' - he'
      exact hfree v' hv' e' he'
    · exact h.wf s (List.mem_cons_of_mem _ hs)
  · rw [kernRefs_setLeaf] at hq
    have h1 := h.held q hq
    have hqp : q ≠ p := by
      rintro rfl
      unfold refs at h1
      rw [userRefs_cons] at h1
      omega
    rw [hr q hqp, h1]
  · rcases List.mem_cons.mp hs with rfl | hs
    · rcases leaf_cases he' with ⟨-, ⟨⟩⟩ | ⟨-, he'⟩
      · rw [hf] at hw
        cases hw
      · rw [hr _ (hfree v' hv' e' he')]
        exact h.sole t List.mem_cons_self v' hv' e' he' hw
    · have hne : e'.ppn ≠ p := by
        intro hpp
        rw [hro s hs v' hv' e' he' hpp] at hw
        cases hw
      rw [hr _ hne]
      exact h.sole s (List.mem_cons_of_mem _ hs) v' hv' e' he' hw

theorem tables_empty (p q : Nat) : (PageTable.empty p).tables q = names q (some p) := by
  have h1 : total (Finset.range 512) (names q) (PageTable.empty p).mid = 0 :=
    total_eq_zero.mpr fun _ _ => rfl
  have h2 : total (Finset.range (512 * 512)) (names q) (PageTable.empty p).low = 0 :=
    total_eq_zero.mpr fun _ _ => rfl
  unfold PageTable.tables
  rw [h1, h2]
  rfl

theorem users_empty (p q : Nat) : (PageTable.empty p).users q = 0 := by
  unfold PageTable.users
  exact total_eq_zero.mpr fun _ _ => rfl

theorem wf_empty (p : Nat) : (PageTable.empty p).WF :=
  ⟨fun _ _ => rfl, fun _ _ => rfl, fun _ _ => rfl, fun _ _ _ _ _ _ h => nomatch h⟩

theorem refs_empty (p q : Nat) : refs (PageTable.empty p :: ts) ks q = refs ts (p :: ks) q := by
  rw [refs_cons, refs_page, tables_empty, users_empty, Nat.add_zero]

theorem kernRefs_empty (p q : Nat) :
    kernRefs (PageTable.empty p :: ts) ks q = kernRefs ts (p :: ks) q := by
  rw [kernRefs_cons, kernRefs_page, tables_empty]

/-- **A page of the kernel becomes an empty page table.** -/
theorem newRoot (h : Inv m ts (p :: ks)) (hfew : ts.length + 1 < 2 ^ 15) :
    Inv m (PageTable.empty p :: ts) ks := by
  refine ⟨h.exact.congr (refs_empty p), fun s hs => ?_, fun q hq => ?_,
    fun s hs v hv e he hw => ?_, hfew⟩
  · rcases List.mem_cons.mp hs with rfl | hs
    · exact wf_empty p
    · exact h.wf s hs
  · rw [refs_empty]
    exact h.held q (kernRefs_empty p q ▸ hq)
  · rw [refs_empty]
    rcases List.mem_cons.mp hs with rfl | hs
    · cases he
    · exact h.sole s hs v hv e he hw

/-- **An empty page table is a page of the kernel again.** -/
theorem dropRoot (h : Inv m (PageTable.empty p :: ts) ks) : Inv m ts (p :: ks) := by
  refine ⟨h.exact.congr fun q => (refs_empty p q).symm, fun s hs => h.wf s (List.mem_cons_of_mem _ hs),
    fun q hq => ?_, fun s hs v hv e he hw => ?_, Nat.lt_of_succ_lt h.few⟩
  · rw [← refs_empty]
    exact h.held q ((kernRefs_empty p q).symm ▸ hq)
  · rw [← refs_empty]
    exact h.sole s (List.mem_cons_of_mem _ hs) v hv e he hw

end Inv

/-! ## 3. The allocator under the account -/

section Routines

variable {m : Mem} {t : PageTable} {ts : List PageTable} {ks : List Nat} {p v : Nat} {e : Pte}

/-- **`kalloc`**: a page nobody referred to is the kernel's now. -/
theorem kalloc_inv (h : Inv m ts ks) :
    (kalloc m).Returns
      fun o m' => match o with
        | none => m.freelist = [] ∧ m' = { m with oomWarned := true }
        | some p => refs ts ks p = 0 ∧ m.Took m' p ∧ Inv m' ts (p :: ks) := by
  refine (kalloc_sat h.exact).imp fun o m' ho => ?_
  cases o with
  | none => exact ho
  | some p =>
    obtain ⟨h0, ht, hx⟩ := ho
    refine ⟨h0, ht, h.alloc h0 (hx _ ?_ fun q hq => ?_)⟩
    · rw [refs_page, names_self, Nat.add_comm]
    · rw [refs_page, names_ne fun e => hq e.symm, Nat.zero_add]

/-- **`kfree`** of a page of the kernel. -/
theorem kfree_inv (h : Inv m ts (p :: ks)) :
    (kfree p m).Returns fun _ m' => Inv m' ts ks ∧ m.Keeps (Live ts ks) m' := by
  have hp : refs ts ks p + 1 = refs ts (p :: ks) p := by
    rw [refs_page, names_self, Nat.add_comm]
  have hq : ∀ q, q ≠ p → refs ts ks q = refs ts (p :: ks) q := fun q hq => by
    rw [refs_page, names_ne fun e => hq e.symm, Nat.zero_add]
  exact (kfree_sat h.exact hp hq).imp fun _ m' hm => ⟨h.free hm.1, hm.2⟩

/-- **`kfree`** of a page that an entry maps, when the entry goes. -/
theorem kfree_leaf (h : Inv m (t :: ts) ks) (hv : v < USERVPN) (hl : t.leaf v = some e) :
    (kfree e.ppn m).Returns
      fun _ m' => Inv m' (t.setLeaf v none :: ts) ks ∧
        m.Keeps (Live (t.setLeaf v none :: ts) ks) m' := by
  have hr : ∀ q, refs (t.setLeaf v none :: ts) ks q + names q (some e.ppn) = refs (t :: ts) ks q := by
    intro q
    have := Inv.refs_setLeaf t ts ks hv none q
    rwa [hl, maps_none, maps_some, Nat.add_zero] at this
  have hp : refs (t.setLeaf v none :: ts) ks e.ppn + 1 = refs (t :: ts) ks e.ppn := by
    rw [← hr, names_self]
  have hq : ∀ q, q ≠ e.ppn → refs (t.setLeaf v none :: ts) ks q = refs (t :: ts) ks q := by
    intro q hq
    rw [← hr q, names_ne fun e => hq e.symm, Nat.add_zero]
  exact (kfree_sat h.exact hp hq).imp fun _ m' hm => ⟨h.unmap hv hm.1, hm.2⟩

theorem live_cons (h : Live ts ks p) : Live (t :: ts) ks p := by
  unfold Live at *
  rw [refs_cons]
  omega

theorem live_page {k : Nat} (h : Live ts ks p) : Live ts (k :: ks) p := by
  unfold Live at *
  rw [refs_page]
  omega

end Routines

end HaiOS.Vm
