/-
  File:      HaiOS/Vm/Tables.lean
  Subject:   WHAT THE PAGE-TABLE ROUTINES DO, under the account of Vm/Account: `walk`, `mappages`,
             `uvmunmap`, `freewalk`, `uvmcreate`.

  * `walkAlloc_sat` -- the tables on the way to a page are there, at the price of exactly the pages
    that were missing, or the memory ran out;
  * `mappages_sat` -- the same, and then the entry is written; no "remap" where nothing was mapped.
-/
import HaiOS.Vm.Account

namespace HaiOS.Vm

open Lib Lib.Routine Function

section

variable {m m' : Mem} {t t' : PageTable} {ts : List PageTable} {ks : List Nat} {p v va : Nat}
  {e : Pte}

/-! ## 1. Looking up -/

/-- In a well-formed table the lookup of an address finds the entry of its page. -/
theorem PageTable.WF.pte_eq (h : t.WF) (va : Nat) : t.pte va = t.leaf (va / PGSIZE) := by
  unfold PageTable.pte PageTable.walk
  split
  · rename_i hva
    have hmid : t.mid (va / PGSIZE / 512 / 512) = none := h.mid _ (by
      show 256 ≤ va / 4096 / 512 / 512
      have : 2 ^ 38 ≤ va := hva
      omega)
    rw [h.leaf _ (h.low _ hmid)]
    rfl
  · split
    · rename_i hmid
      rw [h.leaf _ (h.low _ hmid)]
      rfl
    · split
      · rename_i hlow
        rw [h.leaf _ hlow]
        rfl
      · rfl

theorem page_div (v : Nat) : v * PGSIZE / PGSIZE = v := Nat.mul_div_cancel v (by decide)

theorem page_mod (v : Nat) : v * PGSIZE % PGSIZE = 0 := Nat.mul_mod_left v PGSIZE

theorem page_succ (v : Nat) : v * PGSIZE + PGSIZE = (v + 1) * PGSIZE := (Nat.succ_mul v PGSIZE).symm

theorem page_lt (hv : v < NVPN) : v * PGSIZE < MAXVA := by
  show v * 4096 < 2 ^ 38
  have : v < 67108864 := hv
  omega

/-! ## 2. `walk` with allocation -/

variable {i k : Nat}

theorem kernRefs_addMid (hwf : t.WF) (hi : i < 256) (hn : t.mid i = none) (q : Nat) :
    kernRefs (t.addMid i p :: ts) ks q = kernRefs (t :: ts) (p :: ks) q := by
  have hlow : (t.addMid i p).low = t.low := by
    funext k
    show (if k / 512 = i then none else t.low k) = t.low k
    split
    · rename_i hk
      exact (hwf.low k (hk ▸ hn)).symm
    · rfl
  have hmid := total_update (names q) t.mid (Finset.mem_range.mpr (show i < 512 by omega)) (some p)
  rw [hn, names_none] at hmid
  have ht : (t.addMid i p).tables q = t.tables q + names q (some p) := by
    unfold PageTable.tables
    rw [hlow]
    show names q (some t.root) + total _ (names q) (update t.mid i (some p)) + _ = _
    omega
  rw [kernRefs_cons, kernRefs_page, kernRefs_cons, ht]
  omega

theorem wf_addMid (hwf : t.WF) (hi : i < 256) (hn : t.mid i = none) :
    (t.addMid i p).WF := by
  refine ⟨fun j hj => ?_, fun k hk => ?_, fun v hv => ?_, hwf.inj⟩
  · show update t.mid i (some p) j = none
    rw [update_of_ne (by omega)]
    exact hwf.mid j hj
  · show (if k / 512 = i then none else t.low k) = none
    split
    · rfl
    · rename_i hne
      refine hwf.low k ?_
      rwa [show (t.addMid i p).mid = update t.mid i (some p) from rfl,
        update_of_ne hne] at hk
  · refine hwf.leaf v ?_
    have hk : (if v / 512 / 512 = i then none else t.low (v / 512)) = none := hv
    split at hk
    · rename_i e
      exact hwf.low _ (e ▸ hn)
    · exact hk

/-- A zeroed page of the kernel becomes a table of the second level. -/
theorem Inv.addMid (h : Inv m (t :: ts) (p :: ks)) (hi : i < 256) (hn : t.mid i = none) :
    Inv m (t.addMid i p :: ts) ks :=
  have hwf := h.wf t List.mem_cons_self
  h.retable (wf_addMid hwf hi hn) rfl (kernRefs_addMid hwf hi hn)

theorem leaf_addLow (hwf : t.WF) (hn : t.low k = none) : (t.addLow k p).leaf = t.leaf := by
  funext v
  show (if v / 512 = k then none else t.leaf v) = t.leaf v
  split
  · rename_i hk
    exact (hwf.leaf v (hk ▸ hn)).symm
  · rfl

theorem wf_addLow (hwf : t.WF) (hm : t.mid (k / 512) ≠ none) (hn : t.low k = none) :
    (t.addLow k p).WF := by
  refine ⟨hwf.mid, fun j hj => ?_, fun v hv => ?_, ?_⟩
  · show update t.low k (some p) j = none
    have hne : j ≠ k := by
      rintro rfl
      exact hm hj
    rw [update_of_ne hne]
    exact hwf.low j hj
  · show (if v / 512 = k then none else t.leaf v) = none
    split
    · rfl
    · rename_i hne
      refine hwf.leaf v ?_
      rwa [show (t.addLow k p).low = update t.low k (some p) from rfl,
        update_of_ne hne] at hv
  · rw [leaf_addLow hwf hn]
    exact hwf.inj

/-- A zeroed page of the kernel becomes a table of the lowest level. -/
theorem Inv.addLow (h : Inv m (t :: ts) (p :: ks)) (hm : t.mid (k / 512) ≠ none)
    (hn : t.low k = none) : Inv m (t.addLow k p :: ts) ks := by
  have hwf := h.wf t List.mem_cons_self
  have hlt : k < 512 * 512 := by
    by_contra hge
    exact hm (hwf.mid _ (by omega))
  refine h.retable (wf_addLow hwf hm hn) (leaf_addLow hwf hn) fun q => ?_
  have hlow := total_update (names q) t.low (Finset.mem_range.mpr hlt) (some p)
  rw [hn, names_none] at hlow
  have ht : (t.addLow k p).tables q = t.tables q + names q (some p) := by
    unfold PageTable.tables
    show names q (some t.root) + total _ (names q) t.mid +
      total _ (names q) (update t.low k (some p)) = _
    omega
  rw [kernRefs_cons, kernRefs_page, kernRefs_cons, ht]
  omega

/-- The tables that are missing on the way to page `v`. -/
def PageTable.missing (t : PageTable) (v : Nat) : Nat :=
  (if t.mid (v / 512 / 512) = none then 1 else 0) + (if t.low (v / 512) = none then 1 else 0)

/-- **Tables were made, at a price of `n` pages**, or the memory ran out before. -/
structure Paid (m m' : Mem) (t t' : PageTable) (ts : List PageTable) (ks : List Nat) (n : Nat)
    (ok : Bool) : Prop where
  inv : Inv m' (t' :: ts) ks
  keeps : m.Keeps (Live (t :: ts) ks) m'
  leaf : t'.leaf = t.leaf
  paid : ok = true → m.freelist.length = m'.freelist.length + n
  short : ok = false → m.freelist.length < n
  oom : m'.oomWarned = (m.oomWarned || !ok)

/-- **One level of `walk`.** -/
theorem walkStep_sat (h : Inv m (t :: ts) ks) {e : Option Nat} {add : Nat → PageTable}
    (hadd : e = none → ∀ p m', Inv m' (t :: ts) (p :: ks) → Inv m' (add p :: ts) ks)
    (hleaf : e = none → ∀ p, (add p).leaf = t.leaf) :
    (walkStep t e add m).Returns
      fun r m' => Paid m m' t r.2 ts ks (if e = none then 1 else 0) r.1 ∧
        (r.1 = true → if e = none then ∃ p, r.2 = add p else r.2 = t) := by
  unfold walkStep
  cases e with
  | some q =>
    refine ⟨⟨h, Mem.Keeps.refl m, rfl, fun _ => by simp, (fun hf => nomatch hf), by simp⟩, fun _ => ?_⟩
    simp
  | none =>
    refine (kalloc_inv h).bind fun o m1 ho => ?_
    cases o with
    | none =>
      obtain ⟨hnil, rfl⟩ := ho
      refine ⟨⟨h.setOom, ⟨rfl, fun _ _ => rfl, fun _ => rfl⟩, rfl, (fun hf => nomatch hf),
        fun _ => ?_, by simp⟩, (fun hf => nomatch hf)⟩
      rw [hnil]
      exact Nat.zero_lt_one
    | some p =>
      obtain ⟨h0, htook, hinv⟩ := ho
      have hnot : ¬ Live (t :: ts) ks p := by
        unfold Live
        omega
      refine ⟨⟨hadd rfl p _ (hinv.setRam _), ?_, hleaf rfl p, fun _ => ?_, (fun hf => nomatch hf),
        ?_⟩, fun _ => ⟨p, rfl⟩⟩
      · refine (htook.keeps hnot).trans ⟨rfl, fun q hq => ?_, id⟩
        show update m1.ram p (fun _ => 0) q = m1.ram q
        rw [update_of_ne]
        rintro rfl
        exact hnot hq
      · rw [htook.head, List.length_cons]
        rfl
      · show m1.oomWarned = _
        rw [htook.oom]
        simp

/-- **What `walk` with allocation has done** on the way to page `v`: the tables are there, and no
    others are new. -/
structure Walks (m m' : Mem) (t t' : PageTable) (ts : List PageTable) (ks : List Nat) (v : Nat)
    (ok : Bool) : Prop extends Paid m m' t t' ts ks (t.missing v) ok where
  mids : ok = true → ∀ i, t'.mid i = none ↔ t.mid i = none ∧ i ≠ v / 512 / 512
  lows : ok = true → ∀ k, t'.low k = none ↔ t.low k = none ∧ k ≠ v / 512

theorem Paid.trans {m'' : Mem} {t'' : PageTable} {n n' : Nat} {ok : Bool}
    (h : Paid m m' t t' ts ks n true) (h' : Paid m' m'' t' t'' ts ks n' ok)
    (hlive : ∀ p, Live (t :: ts) ks p → Live (t' :: ts) ks p) :
    Paid m m'' t t'' ts ks (n + n') ok := by
  have h1 := h.paid rfl
  refine ⟨h'.inv, h.keeps.trans (h'.keeps.mono hlive), h'.leaf.trans h.leaf, fun hok => ?_,
    fun hok => ?_, ?_⟩
  · have h2 := h'.paid hok
    omega
  · have h2 := h'.short hok
    omega
  · rw [h'.oom, h.oom]
    simp

theorem live_addMid (hwf : t.WF) (hi : i < 256) (hn : t.mid i = none) (h : Live (t :: ts) ks v) :
    Live (t.addMid i p :: ts) ks v := by
  unfold Live refs at *
  have hu : userRefs (t.addMid i p :: ts) v = userRefs (t :: ts) v := by
    rw [userRefs_cons, userRefs_cons]
    unfold PageTable.users
    rfl
  rw [kernRefs_addMid hwf hi hn, kernRefs_page, hu]
  omega

/-- **`walk` with allocation** below `MAXVA`. -/
theorem walkAlloc_sat (h : Inv m (t :: ts) ks) (hv : v < NVPN) :
    (walkAlloc t (v * PGSIZE) m).Returns fun r m' => Walks m m' t r.2 ts ks v r.1 := by
  have hi : v / 512 / 512 < 256 := by
    have : v < 67108864 := hv
    omega
  unfold walkAlloc
  rw [if_neg (Nat.not_le.mpr (page_lt hv)), page_div]
  have hwf := h.wf t List.mem_cons_self
  refine (walkStep_sat h (fun hn p m' hi' => hi'.addMid hi hn) fun _ _ => rfl).bind
    fun r m1 ⟨hpaid, hr⟩ => ?_
  obtain ⟨ok, t1⟩ := r
  cases ok with
  | false =>
    refine ⟨⟨hpaid.inv, hpaid.keeps, hpaid.leaf, (fun hf => nomatch hf), fun _ => ?_, hpaid.oom⟩,
      (fun hf => nomatch hf), (fun hf => nomatch hf)⟩
    have := hpaid.short rfl
    unfold PageTable.missing
    omega
  | true =>
    have hwf1 := hpaid.inv.wf t1 List.mem_cons_self
    have hr1 : if t.mid (v / 512 / 512) = none then ∃ p, t1 = t.addMid (v / 512 / 512) p
        else t1 = t := hr rfl
    -- the table of the second level is there now, and the lower level is as it was
    have hmids : ∀ i, t1.mid i = none ↔ t.mid i = none ∧ i ≠ v / 512 / 512 := by
      intro i
      split at hr1
      · obtain ⟨p, rfl⟩ := hr1
        show update t.mid (v / 512 / 512) (some p) i = none ↔ _
        by_cases e : i = v / 512 / 512
        · subst e
          simp
        · simp [e]
      · rename_i hne
        rw [hr1]
        refine ⟨fun hn => ⟨hn, ?_⟩, fun hn => hn.1⟩
        rintro rfl
        exact hne hn
    have hlows : t1.low = t.low := by
      split at hr1
      · rename_i hn
        obtain ⟨p, rfl⟩ := hr1
        funext k
        show (if k / 512 = v / 512 / 512 then none else t.low k) = t.low k
        split
        · rename_i hk
          exact (hwf.low k (hk ▸ hn)).symm
        · rfl
      · rw [hr1]
    have hlive : ∀ p, Live (t :: ts) ks p → Live (t1 :: ts) ks p := by
      intro q hq
      split at hr1
      · rename_i hn
        obtain ⟨p, rfl⟩ := hr1
        exact live_addMid hwf hi hn hq
      · rwa [hr1]
    have hmid1 : t1.mid (v / 512 / 512) ≠ none := fun hn => ((hmids _).mp hn).2 rfl
    refine (walkStep_sat hpaid.inv (fun hn p m' hi' => hi'.addLow hmid1 hn)
      fun hn p => leaf_addLow hwf1 hn).imp fun r m2 ⟨hpaid2, hr2⟩ => ?_
    obtain ⟨ok2, t2⟩ := r
    have hall := hpaid.trans hpaid2 hlive
    rw [hlows] at hall
    refine ⟨hall, fun hok i => ?_, fun hok k => ?_⟩
    · have hr3 : if t1.low (v / 512) = none then ∃ p, t2 = t1.addLow (v / 512) p else t2 = t1 :=
        hr2 hok
      split at hr3
      · obtain ⟨p, rfl⟩ := hr3
        exact hmids i
      · rw [hr3]
        exact hmids i
    · have hr3 : if t1.low (v / 512) = none then ∃ p, t2 = t1.addLow (v / 512) p else t2 = t1 :=
        hr2 hok
      rw [← hlows]
      split at hr3
      · obtain ⟨p, rfl⟩ := hr3
        show update t1.low (v / 512) (some p) k = none ↔ _
        by_cases e : k = v / 512
        · subst e
          simp
        · simp [e]
      · rename_i hne
        rw [hr3]
        refine ⟨fun hn => ⟨hn, ?_⟩, fun hn => hn.1⟩
        rintro rfl
        exact hne hn

/-- The loop of `mappages` for one page. -/
theorem mappages_page (t : PageTable) (v p : Nat) (f : Flags) :
    mappages t (v * PGSIZE) PGSIZE p f = walkAlloc t (v * PGSIZE) >>= fun r =>
      if r.1 = false then pure (false, r.2)
      else if (r.2.leaf v).isSome then stop .mappagesRemap
      else pure (true, r.2.setLeaf v (some ⟨p, f⟩)) := by
  unfold mappages
  rw [if_neg (by rw [page_mod]; simp), if_neg (by simp), if_neg (by decide)]
  show mappagesLoop f 1 t (v * PGSIZE) p = _
  unfold mappagesLoop mappagesLoop
  rw [page_div]

/-- **`mappages`** of one page where nothing is mapped: the entry is written once the tables are
    there. It never panics with "remap". -/
theorem mappages_sat (h : Inv m (t :: ts) ks) (hv : v < NVPN) (hl : t.leaf v = none) (p : Nat)
    (f : Flags) :
    (mappages t (v * PGSIZE) PGSIZE p f m).Returns
      fun r m' => ∃ t1, Walks m m' t t1 ts ks v r.1 ∧
        r.2 = if r.1 = true then t1.setLeaf v (some ⟨p, f⟩) else t1 := by
  rw [mappages_page]
  refine (walkAlloc_sat h hv).bind fun r m1 hw => ?_
  obtain ⟨ok, t1⟩ := r
  cases ok with
  | false => exact ⟨t1, hw, rfl⟩
  | true =>
    have hn : ¬ (t1.leaf v).isSome := by
      rw [hw.leaf, hl]
      exact Bool.false_ne_true
    rw [if_neg (by simp), if_neg hn]
    exact ⟨t1, hw, rfl⟩

/-! ## 3. `uvmunmap` -/

/-- The leaf entries without those of the pages from `v` on, `n` of them. -/
def PageTable.cut (t : PageTable) (v n : Nat) : Nat → Option Pte := fun v' =>
  if v ≤ v' ∧ v' < v + n then none else t.leaf v'

/-- The pages that the entries `f` of the user range map, and the pages of the others: what a routine
    that works on one table must not write to. -/
def Seen (f : Nat → Option Pte) (ts : List PageTable) (ks : List Nat) (p : Nat) : Prop :=
  Live ts ks p ∨ ∃ v < USERVPN, ∃ e, f v = some e ∧ e.ppn = p

theorem Seen.live (h : Seen t.leaf ts ks p) : Live (t :: ts) ks p := by
  rcases h with h | h
  · exact live_cons h
  · have := PageTable.users_pos.mpr h
    unfold Live
    rw [refs_cons]
    omega

theorem Seen.mono {f g : Nat → Option Pte} (h : Seen f ts ks p)
    (hfg : ∀ v e, f v = some e → g v = some e) : Seen g ts ks p := by
  rcases h with h | ⟨v, hv, e, he, hp⟩
  · exact Or.inl h
  · exact Or.inr ⟨v, hv, e, hfg v e he, hp⟩

/-- **The loop of `uvmunmap`** in the user range: the entries go, each with its reference; the tables
    stay. -/
theorem uvmunmapLoop_sat (n : Nat) (h : Inv m (t :: ts) ks) (hv : v + n ≤ USERVPN) :
    (uvmunmapLoop true n t (v * PGSIZE) m).Returns
      fun t' m' => t' = { t with leaf := t.cut v n } ∧ Inv m' (t' :: ts) ks ∧
        m.Keeps (Live (t' :: ts) ks) m' ∧ ∀ p, refs (t' :: ts) ks p ≤ refs (t :: ts) ks p := by
  induction n generalizing t v m with
  | zero =>
    have hcut : t.cut v 0 = t.leaf := by
      funext v'
      exact if_neg (by omega)
    rw [hcut]
    exact ⟨rfl, h, Mem.Keeps.refl m, fun _ => Nat.le_refl _⟩
  | succ n ih =>
    have hlt : v < USERVPN := by omega
    unfold uvmunmapLoop
    rw [(h.wf t List.mem_cons_self).pte_eq, page_div, page_succ]
    cases hl : t.leaf v with
    | none =>
      have hcut : t.cut v (n + 1) = t.cut (v + 1) n := by
        funext v'
        unfold PageTable.cut
        by_cases e : v' = v
        · subst e
          rw [if_pos (by omega), if_neg (by omega), hl]
        · exact if_congr (by omega) rfl rfl
      rw [hcut]
      exact ih h (by omega)
    | some e =>
      have hcut : t.cut v (n + 1) = (t.setLeaf v none).cut (v + 1) n := by
        funext v'
        unfold PageTable.cut
        rw [PageTable.leaf_setLeaf]
        by_cases e : v' = v
        · subst e
          rw [if_pos (by omega), if_neg (by omega), if_pos rfl]
        · rw [if_neg e]
          exact if_congr (by omega) rfl rfl
      rw [hcut]
      refine (kfree_leaf h hlt hl).bind fun _ m1 ⟨hinv, hkeeps⟩ => ?_
      refine (ih hinv (by omega)).imp fun t' m' ⟨he, hinv', hkeeps', hle⟩ => ?_
      refine ⟨he, hinv', (hkeeps.mono fun p hp => ?_).trans hkeeps', fun p => ?_⟩
      · unfold Live at *
        have := hle p
        omega
      · have h1 := Inv.refs_setLeaf t ts ks hlt none p
        rw [maps_none] at h1
        have := hle p
        omega

/-- **`uvmunmap`** of `n` user pages from page `v` on. -/
theorem uvmunmap_sat (n : Nat) (h : Inv m (t :: ts) ks) (hv : v + n ≤ USERVPN) :
    (uvmunmap t (v * PGSIZE) n true m).Returns
      fun t' m' => t' = { t with leaf := t.cut v n } ∧ Inv m' (t' :: ts) ks ∧
        m.Keeps (Live (t' :: ts) ks) m' ∧ ∀ p, refs (t' :: ts) ks p ≤ refs (t :: ts) ks p := by
  unfold uvmunmap
  rw [if_neg (by rw [page_mod]; simp)]
  exact uvmunmapLoop_sat n h hv

/-- `uvmunmap` of one page without freeing it: the trampoline, the trap frame. -/
theorem uvmunmap_high (h : Inv m (t :: ts) ks) (hv : USERVPN ≤ v) :
    ∃ t', uvmunmap t (v * PGSIZE) 1 false m = .ok t' m ∧ Inv m (t' :: ts) ks ∧
      t'.leaf = update t.leaf v none := by
  unfold uvmunmap
  rw [if_neg (by rw [page_mod]; simp)]
  unfold uvmunmapLoop uvmunmapLoop
  rw [(h.wf t List.mem_cons_self).pte_eq, page_div]
  cases hl : t.leaf v with
  | none =>
    refine ⟨t, rfl, h, ?_⟩
    rw [← hl, update_eq_self]
  | some e => exact ⟨t.setLeaf v none, rfl, h.mapHigh hv fun hn => absurd rfl hn, rfl⟩

/-! ## 4. `freewalk`, `uvmcreate` -/

/-- A table of the lowest level goes. -/
theorem Inv.dropLow (h : Inv m (t :: ts) ks) (hleaf : ∀ v, t.leaf v = none) (hp : t.low k = some p)
    : Inv m ({ t with low := update t.low k none } :: ts) (p :: ks) := by
  have hwf := h.wf t List.mem_cons_self
  have hlt : k < 512 * 512 := by
    by_contra hge
    rw [hwf.low k (hwf.mid _ (by omega))] at hp
    cases hp
  refine h.retable ⟨hwf.mid, fun j hj => ?_, fun v _ => hleaf v, hwf.inj⟩ rfl fun q => ?_
  · show update t.low k none j = none
    by_cases e : j = k
    · rw [e, update_self]
    · rw [update_of_ne e]
      exact hwf.low j hj
  · have hlow := total_update (names q) t.low (Finset.mem_range.mpr hlt) none
    rw [hp, names_none, Nat.add_zero] at hlow
    rw [kernRefs_page, kernRefs_cons, kernRefs_cons]
    unfold PageTable.tables
    show names q (some p) + (names q (some t.root) + total _ (names q) t.mid +
      total _ (names q) (update t.low k none) + _) = _
    omega

/-- A table of the second level goes, once it names no other. -/
theorem Inv.dropMid (h : Inv m (t :: ts) ks) (hlow : ∀ k, k / 512 = i → t.low k = none)
    (hp : t.mid i = some p) :
    Inv m ({ t with mid := update t.mid i none } :: ts) (p :: ks) := by
  have hwf := h.wf t List.mem_cons_self
  have hlt : i < 512 := by
    by_contra hge
    rw [hwf.mid i (by omega)] at hp
    cases hp
  refine h.retable ⟨fun j hj => ?_, fun k hk => ?_, hwf.leaf, hwf.inj⟩ rfl fun q => ?_
  · show update t.mid i none j = none
    by_cases e : j = i
    · rw [e, update_self]
    · rw [update_of_ne e]
      exact hwf.mid j hj
  · by_cases e : k / 512 = i
    · exact hlow k e
    · have hk' : update t.mid i none (k / 512) = none := hk
      rw [update_of_ne e] at hk'
      exact hwf.low k hk'
  · have hmid := total_update (names q) t.mid (Finset.mem_range.mpr hlt) none
    rw [hp, names_none, Nat.add_zero] at hmid
    rw [kernRefs_page, kernRefs_cons, kernRefs_cons]
    unfold PageTable.tables
    show names q (some p) + (names q (some t.root) +
      total _ (names q) (update t.mid i none) + total _ (names q) t.low + _) = _
    omega

/-- `freewalk` on the way: the table without leaf entries, the rest of the memory as it was. -/
structure Freeing (m0 m : Mem) (t : PageTable) (ts : List PageTable) (ks : List Nat) : Prop where
  inv : Inv m (t :: ts) ks
  keeps : m0.Keeps (Live ts ks) m
  leaf : ∀ v, t.leaf v = none

theorem freewalkLow_sat {m0 : Mem} (h : Freeing m0 m t ts ks) (k : Nat) :
    (freewalkLow t k m).Returns
      fun t' m' => Freeing m0 m' t' ts ks ∧ t'.root = t.root ∧ t'.mid = t.mid ∧
        t'.low = update t.low k none := by
  unfold freewalkLow
  cases hp : t.low k with
  | none =>
    refine ⟨h, rfl, rfl, ?_⟩
    rw [← hp, update_eq_self]
  | some p =>
    have hany : ¬ ((List.range 512).any fun e => (t.leaf (k * 512 + e)).isSome) = true := by
      simp [h.leaf]
    simp only
    rw [if_neg hany]
    refine (kfree_inv (h.inv.dropLow h.leaf hp)).bind fun _ m1 ⟨hinv, hkeeps⟩ => ?_
    exact ⟨⟨hinv, h.keeps.trans (hkeeps.mono fun _ hq => live_cons hq), h.leaf⟩, rfl, rfl, rfl⟩

theorem freewalkMid_sat {m0 : Mem} (h : Freeing m0 m t ts ks) (i : Nat) :
    (freewalkMid t i m).Returns
      fun t' m' => Freeing m0 m' t' ts ks ∧ t'.root = t.root ∧
        t'.mid = update t.mid i none := by
  unfold freewalkMid
  cases hp : t.mid i with
  | none =>
    refine ⟨h, rfl, ?_⟩
    rw [← hp, update_eq_self]
  | some p =>
    -- the tables that the entries still to come name are the only ones left below `i`
    let P : List Nat → PageTable → Mem → Prop := fun l t' m' =>
      Freeing m0 m' t' ts ks ∧ t'.root = t.root ∧ t'.mid = t.mid ∧
        ∀ k, k / 512 = i → k % 512 ∉ l → t'.low k = none
    have hstart : P (List.range 512) t m :=
      ⟨h, rfl, rfl, fun k _ hk => absurd (List.mem_range.mpr (Nat.mod_lt k (by decide))) hk⟩
    have hturn : ∀ j l t' m', P (j :: l) t' m' →
        (freewalkLow t' (i * 512 + j) m').Returns (P l) := by
      rintro j l t' m' ⟨hf, hroot, hmid, hlow⟩
      refine (freewalkLow_sat hf _).imp fun t2 m2 ⟨hf2, hroot2, hmid2, hlow2⟩ => ?_
      refine ⟨hf2, hroot2.trans hroot, hmid2.trans hmid, fun k hk hkl => ?_⟩
      rw [hlow2]
      by_cases e : k = i * 512 + j
      · rw [e, update_self]
      · rw [update_of_ne e]
        refine hlow k hk fun hin => ?_
        rcases List.mem_cons.mp hin with hj | hin
        · omega
        · exact hkl hin
    -- the list of the turns stays a name: unfolding the loop would unroll it
    generalize List.range 512 = l at hstart ⊢
    refine (Outcome.Sat.foldlM hturn l hstart).bind fun t1 m1 ⟨hf, hroot, hmid, hlow⟩ => ?_
    have hp1 : t1.mid i = some p := by rw [hmid, hp]
    refine (kfree_inv (hf.inv.dropMid (fun k hk => hlow k hk (by simp)) hp1)).bind
      fun _ m2 ⟨hinv, hkeeps⟩ => ?_
    refine ⟨⟨hinv, hf.keeps.trans (hkeeps.mono fun _ hq => live_cons hq), hf.leaf⟩, hroot, ?_⟩
    rw [hmid]

/-- **`freewalk`** of a table without leaf entries gives all its pages back. -/
theorem freewalk_sat (h : Inv m (t :: ts) ks) (hleaf : ∀ v, t.leaf v = none) :
    (freewalk t m).Returns fun _ m' => Inv m' ts ks ∧ m.Keeps (Live ts ks) m' := by
  let P : List Nat → PageTable → Mem → Prop := fun l t' m' =>
    Freeing m m' t' ts ks ∧ ∀ i, i ∉ l → t'.mid i = none
  have hstart : P (List.range 512) t m := by
    refine ⟨⟨h, Mem.Keeps.refl m, hleaf⟩, fun i hi => (h.wf t List.mem_cons_self).mid i ?_⟩
    rw [List.mem_range] at hi
    omega
  have hturn : ∀ i l t' m', P (i :: l) t' m' →
      (freewalkMid t' i m').Returns (P l) := by
    rintro i l t' m' ⟨hf, hmid⟩
    refine (freewalkMid_sat hf i).imp fun t2 m2 ⟨hf2, _, hmid2⟩ => ⟨hf2, fun j hj => ?_⟩
    rw [hmid2]
    by_cases e : j = i
    · rw [e, update_self]
    · rw [update_of_ne e]
      refine hmid j fun hin => ?_
      rcases List.mem_cons.mp hin with hji | hin
      · exact e hji
      · exact hj hin
  unfold freewalk
  generalize List.range 512 = l at hstart ⊢
  refine (Outcome.Sat.foldlM hturn l hstart).bind fun t1 m1 ⟨hf, hmid⟩ => ?_
  have hwf := hf.inv.wf t1 List.mem_cons_self
  have hempty : t1 = PageTable.empty t1.root := by
    obtain ⟨root, mid, low, leaf⟩ := t1
    have e1 : mid = fun _ => none := funext fun i => hmid i (by simp)
    have e2 : low = fun _ => none := funext fun k => hwf.low k (hmid _ (by simp))
    have e3 : leaf = fun _ => none := funext hf.leaf
    subst e1 e2 e3
    rfl
  have hinv := hf.inv
  rw [hempty] at hinv
  refine (kfree_inv hinv.dropRoot).imp fun _ m2 ⟨hinv2, hkeeps⟩ => ?_
  exact ⟨hinv2, hf.keeps.trans hkeeps⟩

/-- **`uvmcreate`.** -/
theorem uvmcreate_sat (h : Inv m ts ks) (hfew : ts.length + 1 < 2 ^ 15) :
    (uvmcreate m).Returns
      fun o m' => m.Keeps (Live ts ks) m' ∧ m'.oomWarned = (m.oomWarned || o.isNone) ∧ match o with
        | none => m.freelist = [] ∧ Inv m' ts ks
        | some t => (∃ p, t = PageTable.empty p) ∧ Inv m' (t :: ts) ks ∧
            m.freelist.length = m'.freelist.length + 1 := by
  unfold uvmcreate
  refine (kalloc_inv h).bind fun o m1 ho => ?_
  cases o with
  | none =>
    obtain ⟨hnil, rfl⟩ := ho
    exact ⟨⟨rfl, fun _ _ => rfl, fun _ => rfl⟩, by simp, hnil, h.setOom⟩
  | some p =>
    obtain ⟨h0, htook, hinv⟩ := ho
    have hnot : ¬ Live ts ks p := by
      unfold Live
      omega
    refine ⟨?_, ?_, ⟨p, rfl⟩, (hinv.setRam _).newRoot hfew, ?_⟩
    · refine (htook.keeps hnot).trans ⟨rfl, fun q hq => ?_, id⟩
      show update m1.ram p (fun _ => 0) q = m1.ram q
      rw [update_of_ne]
      rintro rfl
      exact hnot hq
    · show m1.oomWarned = _
      rw [htook.oom]
      simp
    · rw [htook.head, List.length_cons]

end

end HaiOS.Vm
