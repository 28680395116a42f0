/-
  File:      HaiOS/Vm/Mapping.lean
  Subject:   PAGE TABLES ARE FINITE MAPS. What `mappages`, `uvmunmap` and `freewalk` do to the tree
             of Vm/Sv39, over every sequence of calls and with memory running out anywhere.

  * `mapped` -- the finite map that a tree stands for; `MapSpec` -- what the calls do to a finite
    map, in its own terms;
  * `mappagesLoop_maps`, `uvmunmapLoop_clears` -- the calls do that to the tree;
  * `freewalk_frees` -- a tree without leaves goes page by page, each page once;
  * `Built` -- the trees that a sequence of calls makes, with anything else happening to the rest
    of the memory in between;
  * `page_tables_are_maps` -- such a tree is the finite map of its calls.
-/
import HaiOS.Vm.Sv39
import HaiOS.Lib.Machine

namespace HaiOS.Vm.Sv39

open Lib Lib.Routine Lib.Radix Function

/-! ## 1. Finite maps -/

/-- **The finite map of a tree**: the valid entry of a page, if it has one. -/
def mapped (m : Mem) (root v : Nat) : Option Word :=
  if v < NVPN ∧ Valid (leafAt m root v) then some (leafAt m root v) else none

/-- `n` pages from `v` on are mapped to the memory from `pa` on. -/
def setRange (f : Nat → Option Word) (v n : Nat) (pa perm : Word) : Nat → Option Word := fun u =>
  if v ≤ u ∧ u < v + n then some (leafPte (pa + BitVec.ofNat 64 ((u - v) * PGSIZE)) perm) else f u

/-- `n` pages from `v` on are not mapped. -/
def clearRange (f : Nat → Option Word) (v n : Nat) : Nat → Option Word := fun u =>
  if v ≤ u ∧ u < v + n then none else f u

/-- The calls that change an address space. -/
inductive MapCall where
  | mappages (va size pa perm : Word)
  | uvmunmap (va npages : Word)
  deriving DecidableEq, Repr

/-- **What the calls do to a finite map.** `mappages` maps the range and answers 0, or maps a
    proper initial part of it and answers -1; `uvmunmap` unmaps its range. -/
def MapSpec : MapCall → Int → (Nat → Option Word) → (Nat → Option Word) → Prop
  | .mappages va size pa perm, r, f, f' => ∃ k,
      (r = 0 ∧ k = size.toNat / PGSIZE ∨ r = -1 ∧ k < size.toNat / PGSIZE) ∧
        f' = setRange f (va.toNat / PGSIZE) k pa perm
  | .uvmunmap va npages, _, f, f' => f' = clearRange f (va.toNat / PGSIZE) npages.toNat

section Maps

variable {m m' : Mem} {root v t : Nat} {R : Nat → Nat}

theorem mapped_of_leafAt (h : ∀ u < NVPN, leafAt m' root u = leafAt m root u) :
    mapped m' root = mapped m root := by
  funext u
  unfold mapped
  by_cases hu : u < NVPN
  · rw [h u hu]
  · rw [if_neg fun hc => hu hc.1, if_neg fun hc => hu hc.1]

theorem mapped_eq_none (hv : v < NVPN) : mapped m root v = none ↔ ¬ Valid (leafAt m root v) := by
  unfold mapped
  by_cases h : Valid (leafAt m root v)
  · simp [h, hv]
  · simp [h]

/-- The entry of a page whose lowest table is there. -/
theorem leafAt_of_follow (h : follow child (entry m) root (levels v) = some t) :
    leafAt m root v = entry m t (slot v) :=
  lookup_of_follow h (slot v)

/-- Writing the entry of page `v`, as the map has it. -/
theorem Tree.put_mapped (h : Tree m root R)
    (hv : follow child (entry m) root (levels v) = some t) (hlt : v < NVPN) (pte : Word) :
    Tree (Mem.setEntry m t (slot v) pte) root R ∧
      mapped (Mem.setEntry m t (slot v) pte) root =
        update (mapped m root) v (if Valid pte then some pte else none) := by
  obtain ⟨ht, hleaf⟩ := h.put hv hlt pte
  refine ⟨ht, funext fun u => ?_⟩
  unfold mapped
  by_cases hu : u < NVPN
  · rw [hleaf u hu]
    by_cases huv : u = v
    · subst huv
      rw [if_pos rfl, update_self]
      simp [hu]
    · rw [if_neg huv, update_of_ne huv]
  · rw [if_neg fun hc => hu hc.1, update_of_ne (by rintro rfl; exact hu hlt),
      if_neg fun hc => hu hc.1]

/-- **Whatever happens to the rest of the memory**: as long as the tables keep their bytes and
    their references, the tree is the same. -/
theorem Tree.other {R' : Nat → Nat} (h : Tree m root R) (hx : m'.Exact R')
    (hkeep : ∀ (p : List (Fin 512)) x, p.length ≤ 2 → follow child (entry m) root p = some x →
      m'.ram x = m.ram x ∧ R' x = 1) :
    Tree m' root R' ∧ mapped m' root = mapped m root ∧
      ∀ p : List (Fin 512), p.length ≤ 2 →
        follow child (entry m') root p = follow child (entry m) root p := by
  have hentry : ∀ (p : List (Fin 512)) x, p.length ≤ 2 → follow child (entry m) root p = some x →
      ∀ i, entry m' x i = entry m x i := fun p x hp hx i => entry_congr (hkeep p x hp hx).1 i
  have hfollow : ∀ p : List (Fin 512), p.length ≤ 2 →
      follow child (entry m') root p = follow child (entry m) root p := by
    intro q hq
    refine follow_congr fun p i r x hqe hx => hentry p x ?_ hx i
    rw [hqe, List.length_append] at hq
    omega
  refine ⟨⟨hx, fun p q x hp hq => ?_, fun p x hp hx => ?_, fun p x i hp hx hv => ?_,
    fun i hi => ?_⟩, mapped_of_leafAt fun u _ => ?_, hfollow⟩
  · rw [hfollow p hp, hfollow q hq]
    exact h.apart p q x hp hq
  · rw [hfollow p hp] at hx
    exact (hkeep p x hp hx).2
  · rw [hfollow p hp.le] at hx
    rw [hentry p x hp.le hx i] at hv ⊢
    exact h.inner p x i hp hx hv
  · have hroot : follow child (entry m) root [] = some root := rfl
    rw [hentry [] root (Nat.zero_le 2) hroot i]
    exact h.user i hi
  · exact lookup_congr (hfollow _ (length_levels u).le) fun x hx =>
      hentry _ x (length_levels u).le hx _

end Maps

/-! ## 2. `mappages` -/

section Mappages

variable {m : Mem} {root : Nat} {R : Nat → Nat}

/-- **`walk(va, 1)`**: the tree grows and stands for the same map. -/
theorem walk_grows {va : Word} (h : Tree m root R) (hva : va.toNat < MAXVA) :
    (walk root va true m).Returns fun o m' => ∃ R', Tree m' root R' ∧
        mapped m' root = mapped m root ∧ ∀ t i, o = some (t, i) → i = slot (va.toNat / PGSIZE) ∧
          follow child (entry m') root (levels (va.toNat / PGSIZE)) = some t := by
  unfold walk
  rw [if_neg (by omega)]
  refine (walkLevels_grows (p := []) hva h rfl rfl rfl).bind fun o m' hq => ?_
  obtain ⟨R', ht, hleaf, hfollow⟩ := hq
  refine ⟨R', ht, mapped_of_leafAt fun u _ => hleaf u, fun t i ho => ?_⟩
  obtain ⟨t', ht', hti⟩ := Option.map_eq_some_iff.mp ho
  cases hti
  rw [down_two] at hfollow
  exact ⟨px_zero va, hfollow t ht'⟩

theorem setRange_zero (f : Nat → Option Word) (v : Nat) (pa perm : Word) :
    setRange f v 0 pa perm = f := by
  funext u
  exact if_neg (by omega)

/-- The first page, then the others. -/
theorem setRange_succ (f : Nat → Option Word) (v k : Nat) (pa perm : Word) :
    setRange (update f v (some (leafPte pa perm))) (v + 1) k (pa + 4096) perm =
      setRange f v (k + 1) pa perm := by
  funext u
  unfold setRange
  by_cases hu : v + 1 ≤ u ∧ u < v + 1 + k
  · have haddr : pa + 4096 + BitVec.ofNat 64 ((u - (v + 1)) * PGSIZE) =
        pa + BitVec.ofNat 64 ((u - v) * PGSIZE) := by
      have hsum : (u - v) * PGSIZE = 4096 + (u - (v + 1)) * PGSIZE := by
        simp only [PGSIZE]
        omega
      rw [hsum, BitVec.add_assoc, BitVec.ofNat_add]
      rfl
    rw [if_pos hu, if_pos (by omega), haddr]
  · rw [if_neg hu]
    by_cases huv : u = v
    · subst huv
      rw [update_self, if_pos (by omega), Nat.sub_self, Nat.zero_mul]
      simp
    · rw [update_of_ne huv, if_neg (by omega)]

/-- **The loop of `mappages`** over `n` pages that are not mapped: it maps all of them, or memory
    runs out for a table and it has mapped the first `k`. It does not panic. -/
theorem mappagesLoop_maps {n v : Nat} {a pa perm : Word} (h : Tree m root R)
    (ha : a.toNat = v * PGSIZE) (hn : v + n ≤ NVPN)
    (hfree : ∀ u, v ≤ u → u < v + n → mapped m root u = none) :
    (mappagesLoop root perm n a pa m).Returns fun r m' => ∃ R', Tree m' root R' ∧
        ∃ k, (r = 0 ∧ k = n ∨ r = -1 ∧ k < n) ∧ mapped m' root = setRange (mapped m root) v k pa perm := by
  induction n generalizing m R v a pa with
  | zero => exact ⟨R, h, 0, Or.inl ⟨rfl, rfl⟩, (setRange_zero ..).symm⟩
  | succ n ih =>
    have hv : v < NVPN := by omega
    have hpage : a.toNat / PGSIZE = v := by rw [ha, Nat.mul_div_cancel v (by decide)]
    have hva : a.toNat < MAXVA := by
      rw [ha]
      simp only [NVPN, MAXVA, PGSIZE] at *
      omega
    refine (walk_grows h hva).bind fun o m1 hq => ?_
    obtain ⟨R1, ht, hmap, hfollow⟩ := hq
    cases o with
    | none =>
      exact ⟨R1, ht, 0, Or.inr ⟨rfl, by omega⟩, by rw [hmap, setRange_zero]⟩
    | some ti =>
      obtain ⟨t, i⟩ := ti
      obtain ⟨rfl, hfol⟩ := hfollow t i rfl
      rw [hpage] at hfol ⊢
      have hnot : ¬ Valid (entry m1 t (slot v)) := by
        rw [← leafAt_of_follow hfol, ← mapped_eq_none hv, hmap]
        exact hfree v le_rfl (by omega)
      obtain ⟨ht2, hmap2⟩ := ht.put_mapped hfol hv (leafPte pa perm)
      rw [if_pos (valid_leafPte pa perm), hmap] at hmap2
      show ((read >>= _) m1).Sat _ _
      rw [read_bind, if_neg hnot]
      rw [show setEntry t (slot v) (leafPte pa perm) =
        update fun m => Mem.setEntry m t (slot v) (leafPte pa perm) from rfl, update_bind]
      have hnext : (a + 4096).toNat = (v + 1) * PGSIZE := by
        have h4 : (4096 : Word).toNat = 4096 := rfl
        rw [BitVec.toNat_add, ha, h4]
        simp only [NVPN, MAXVA, PGSIZE] at *
        omega
      refine (ih ht2 hnext (by omega) fun u h1 h2 => ?_).imp
        fun r m' ⟨R', ht', k, hk, hm'⟩ => ⟨R', ht', k + 1, ?_, ?_⟩
      · rw [hmap2, update_of_ne (by omega)]
        exact hfree u (by omega) (by omega)
      · omega
      · rw [hm', hmap2, setRange_succ]

end Mappages

/-! ## 3. `uvmunmap` -/

section Uvmunmap

variable {m m' : Mem} {root : Nat} {R : Nat → Nat}

/-- Page `x` is a table of the tree. -/
def IsTable (m : Mem) (root x : Nat) : Prop :=
  ∃ p : List (Fin 512), p.length ≤ 2 ∧ follow child (entry m) root p = some x

/-- `kfree` of a page that is not a table of the tree. -/
theorem Tree.kfree {q : Nat} {u : Unit} (h : Tree m root R) (hr : Vm.kfree q m = .ok u m')
    (hq : ¬ IsTable m root q) :
    (∃ R', Tree m' root R') ∧ mapped m' root = mapped m root ∧
      ∀ p : List (Fin 512), p.length ≤ 2 →
        follow child (entry m') root p = follow child (entry m) root p := by
  -- a call that returns has found a reference
  have hpos : 0 < R q := by
    rw [← h.exact.counted.count q]
    by_contra h0
    unfold Vm.kfree at hr
    rw [read_bind] at hr
    split_ifs at hr with h1 h2
    · cases hr
    · cases hr
    · omega
    · exact h2 ⟨h.exact.ready, by omega⟩
  have hone : update R q (R q - 1) q + 1 = R q := by
    rw [update_self]
    omega
  have hrest : ∀ x, x ≠ q → update R q (R q - 1) x = R x := fun x hx =>
    update_of_ne hx _ _
  have hsat := kfree_sat h.exact hone hrest
  obtain ⟨hx, hkeeps⟩ := hsat.of_ok hr
  obtain ⟨ht, hmap, hfollow⟩ := h.other hx fun p x hp hfx => by
    have hne : x ≠ q := fun e => hq ⟨p, hp, e ▸ hfx⟩
    have h1 : update R q (R q - 1) x = 1 := by
      rw [update_of_ne hne]
      exact h.owned p x hp hfx
    exact ⟨hkeeps.ram x (by show 0 < update R q (R q - 1) x; omega), h1⟩
  exact ⟨⟨_, ht⟩, hmap, hfollow⟩

theorem clearRange_zero (f : Nat → Option Word) (v : Nat) : clearRange f v 0 = f := by
  funext u
  exact if_neg (by omega)

theorem clearRange_succ (f : Nat → Option Word) (v n : Nat) :
    clearRange (update f v none) (v + 1) n = clearRange f v (n + 1) := by
  funext u
  unfold clearRange
  by_cases huv : u = v
  · subst huv
    rw [if_neg (by omega), update_self, if_pos (by omega)]
  · rw [update_of_ne huv]
    exact if_congr (by omega) rfl rfl

/-- The state after one turn of the loop of `uvmunmap` for page `v`. -/
structure Cleared (m m' : Mem) (root v : Nat) : Prop where
  tree : ∃ R', Tree m' root R'
  map : mapped m' root = update (mapped m root) v none
  follow : ∀ p : List (Fin 512), p.length ≤ 2 →
    follow child (entry m') root p = follow child (entry m) root p

/-- **One turn of the loop of `uvmunmap`.** It panics only in `kfree`. -/
theorem unmapPage_clears {v : Nat} {a : Word} {doFree : Bool} (h : Tree m root R)
    (ha : a.toNat = v * PGSIZE)
    (hown : doFree = true → ∀ e, mapped m root v = some e → ¬ IsTable m root (pageOf (PTE2PA e))) :
    (unmapPage root a doFree m).Sat (fun _ m' => Cleared m m' root v)
      fun _ _ => doFree = true := by
  have hpage : a.toNat / PGSIZE = v := by rw [ha, Nat.mul_div_cancel v (by decide)]
  have hsame : mapped m root v = none → Cleared m m root v := fun hnone =>
    ⟨⟨R, h⟩, by rw [← hnone, update_eq_self], fun _ _ => rfl⟩
  unfold unmapPage
  by_cases hva : a.toNat < MAXVA
  · have hv : v < NVPN := by
      simp only [NVPN, MAXVA, PGSIZE] at *
      omega
    rw [bind_ok (walk_lookup hva root m), hpage]
    cases hfol : follow child (entry m) root (levels v) with
    | none =>
      refine hsame ?_
      rw [mapped_eq_none hv, leafAt, lookup_of_none hfol]
      exact not_valid_zero
    | some t =>
      have hleaf := leafAt_of_follow hfol
      show ((read >>= _) m).Sat _ _
      rw [read_bind]
      by_cases hval : Valid (entry m t (slot v))
      · rw [if_neg (not_not.mpr hval)]
        have he : mapped m root v = some (entry m t (slot v)) := by
          rw [← hleaf] at hval ⊢
          exact if_pos ⟨hv, hval⟩
        -- the reference goes before the entry does
        have hfree : (freeLeaf doFree (pageOf (PTE2PA (entry m t (slot v)))) m).Sat
            (fun _ m1 => (∃ R', Tree m1 root R') ∧ mapped m1 root = mapped m root ∧
              ∀ p : List (Fin 512), p.length ≤ 2 →
                follow child (entry m1) root p = follow child (entry m) root p)
            fun _ _ => doFree = true := by
          unfold freeLeaf
          split
          · rename_i hd
            cases hk : kfree (pageOf (PTE2PA (entry m t (slot v)))) m with
            | ok u m1 => exact h.kfree hk (hown hd _ he)
            | fail e m1 => exact hd
          · exact ⟨⟨R, h⟩, rfl, fun _ _ => rfl⟩
        refine hfree.bind fun _ m1 ⟨⟨R1, ht⟩, hmap, hfollow⟩ => ?_
        have hfol1 : follow child (entry m1) root (levels v) = some t := by
          rw [hfollow _ (length_levels v).le, hfol]
        obtain ⟨ht2, hmap2⟩ := ht.put_mapped hfol1 hv 0
        rw [if_neg not_valid_zero, hmap] at hmap2
        refine ⟨⟨R1, ht2⟩, hmap2, fun p hp => ?_⟩
        rw [← hfollow p hp]
        exact follow_set ht.apart (length_levels v) hfol1
          (fun y j hy => entry_setEntry_page hy j) hp
      · rw [if_pos hval]
        refine hsame ?_
        rw [mapped_eq_none hv, hleaf]
        exact hval
  · have hwalk : walk root a false m = .ok none m := by
      unfold walk
      rw [if_pos (by omega)]
      rfl
    rw [bind_ok hwalk]
    refine hsame (if_neg fun hc => ?_)
    simp only [NVPN, MAXVA, PGSIZE] at *
    omega

/-- **The loop of `uvmunmap`** over `n` pages. -/
theorem uvmunmapLoop_clears {n v : Nat} {a : Word} {doFree : Bool} (h : Tree m root R)
    (ha : a.toNat = v * PGSIZE) (hn : (v + n) * PGSIZE < 2 ^ 64)
    (hown : doFree = true → ∀ u e, v ≤ u → u < v + n → mapped m root u = some e →
      ¬ IsTable m root (pageOf (PTE2PA e))) :
    (uvmunmapLoop root doFree n a m).Sat (fun _ m' => (∃ R', Tree m' root R') ∧
        mapped m' root = clearRange (mapped m root) v n)
      fun _ _ => doFree = true := by
  induction n generalizing m R v a with
  | zero => exact ⟨⟨R, h⟩, (clearRange_zero ..).symm⟩
  | succ n ih =>
    refine (unmapPage_clears h ha fun hd e he =>
      hown hd v e le_rfl (by omega) he).bind fun _ m1 hc => ?_
    obtain ⟨R1, ht⟩ := hc.tree
    have hnext : (a + 4096).toNat = (v + 1) * PGSIZE := by
      have h4 : (4096 : Word).toNat = 4096 := rfl
      rw [BitVec.toNat_add, ha, h4]
      simp only [PGSIZE] at *
      omega
    refine (ih ht hnext (by rw [Nat.add_assoc, Nat.add_comm 1 n]; exact hn)
      fun hd u e h1 h2 he => ?_).imp fun _ m' hq => ⟨hq.1, ?_⟩
    · rw [hc.map, update_of_ne (by omega)] at he
      rintro ⟨p, hp, hfp⟩
      rw [hc.follow p hp] at hfp
      exact hown hd u e (by omega) (by omega) he ⟨p, hp, hfp⟩
    · rw [hq.2, hc.map, clearRange_succ]

end Uvmunmap

/-! ## 4. `freewalk` -/

/-- **No leaf below `n`**: at depth 0 nothing is valid, above it what is valid names a table. -/
def Bare (m : Mem) : Nat → Nat → Prop
  | 0, n => ∀ i, ¬ Valid (entry m n i)
  | d + 1, n => ∀ i, Valid (entry m n i) →
      entry m n i &&& (PTE_R ||| PTE_W ||| PTE_X) = 0 ∧ Bare m d (pageOf (PTE2PA (entry m n i)))

/-- The tables below entry `i` of `n`. -/
def below (m : Mem) (d n : Nat) (i : Fin 512) : List Nat :=
  (child (entry m n i)).elim [] (nodes child (entry m) d)

/-- **The pages `l` went to the free list**, first to last, and nothing else changed. -/
structure Freed (m m' : Mem) (R : Nat → Nat) (l : List Nat) : Prop where
  freelist : m'.freelist = l.reverse ++ m.freelist
  ram : ∀ x, x ∉ l → m'.ram x = m.ram x
  exact : m'.Exact fun x => if x ∈ l then 0 else R x

section Freewalk

variable {m m' : Mem} {R : Nat → Nat} {n d : Nat}

theorem nodes_of_ram (h : ∀ x ∈ nodes child (entry m) d n, m'.ram x = m.ram x) :
    nodes child (entry m') d n = nodes child (entry m) d n :=
  nodes_congr fun x hx => funext fun i => entry_congr (h x hx) i

theorem Bare.of_ram (hb : Bare m d n) (h : ∀ x ∈ nodes child (entry m) d n, m'.ram x = m.ram x) :
    Bare m' d n := by
  induction d generalizing n with
  | zero =>
    intro i
    rw [entry_congr (h n (List.mem_singleton_self n)) i]
    exact hb i
  | succ d ih =>
    intro i
    rw [entry_congr (h n (List.mem_append_right _ (List.mem_singleton_self n))) i]
    intro hv
    refine ⟨(hb i hv).1, ih (hb i hv).2 fun x hx => h x (List.mem_append_left _ ?_)⟩
    exact List.mem_flatMap.mpr ⟨i, List.mem_finRange i, by rw [child_of_valid hv]; exact hx⟩

variable {i : Fin 512}

theorem below_of_valid (hv : Valid (entry m n i)) :
    below m d n i = nodes child (entry m) d (pageOf (PTE2PA (entry m n i))) := by
  rw [below, child_of_valid hv, Option.elim_some]

theorem below_of_not_valid (hv : ¬ Valid (entry m n i)) : below m d n i = [] := by
  rw [below, child_of_not_valid hv, Option.elim_none]

theorem below_congr (hi : entry m' n i = entry m n i)
    (hram : ∀ x ∈ below m d n i, m'.ram x = m.ram x) : below m' d n i = below m d n i := by
  unfold below at hram ⊢
  rw [hi]
  cases hc : child (entry m n i) with
  | none => rw [Option.elim_none, Option.elim_none]
  | some c =>
    rw [hc, Option.elim_some] at hram
    rw [Option.elim_some, Option.elim_some]
    exact nodes_of_ram hram

/-- `kfree` of a page with one reference. -/
theorem kfree_last (h : m.Exact R) (h1 : R n = 1) : ∃ m', kfree n m = .ok () m' ∧
    Freed m m' R [n] := by
  have hcnt := h.counted.count n
  obtain ⟨hlo, hhi⟩ := h.managed (p := n) (by omega)
  have hrun : kfree n m = .ok () (m.release n) := by
    unfold kfree
    rw [read_bind, if_neg (by omega), if_neg (by rintro ⟨-, h0⟩; omega), if_neg (by omega)]
    rfl
  refine ⟨_, hrun, rfl, fun x hx => ?_, ?_⟩
  · exact update_of_ne (fun e => hx (List.mem_singleton.mpr e)) _ _
  · have hrest : ∀ x, x ≠ n → (fun x => if x ∈ [n] then 0 else R x) x = R x := fun x hx => by
      simp [hx]
    have hsat := kfree_sat h (by simp [h1]) hrest
    exact (hsat.of_ok hrun).1

/-- One after the other; in between, pages that go in the second part may be written. -/
theorem Freed.trans {m1 m2 m'' : Mem} {l l' : List Nat} (h : Freed m m1 R l)
    (hlist : m2.freelist = m1.freelist) (hram : ∀ x, x ∉ l' → m2.ram x = m1.ram x)
    (h' : Freed m2 m'' (fun x => if x ∈ l then 0 else R x) l') : Freed m m'' R (l ++ l') := by
  refine ⟨?_, fun x hx => ?_, h'.exact.congr fun x => ?_⟩
  · rw [h'.freelist, hlist, h.freelist, List.reverse_append, List.append_assoc]
  · rw [List.mem_append, not_or] at hx
    rw [h'.ram x hx.2, hram x hx.2, h.ram x hx.1]
  · simp only [List.mem_append]
    split_ifs <;> simp_all

/-- The last level: no entry is valid, only the table itself goes. -/
theorem freewalkLoop_zero (free : Nat → Mem → Option (Outcome Panic Mem Unit))
    (hb : ∀ i, ¬ Valid (entry m n i)) (is : List (Fin 512)) :
    freewalkLoop free n is m = some (kfree n m) := by
  induction is with
  | nil => rfl
  | cons i is ih =>
    unfold freewalkLoop
    rw [if_neg fun hc => hb i hc.1, if_neg (hb i)]
    exact ih

/-- What the recursive call does: the tables of the subtree go. -/
def Frees (free : Nat → Mem → Option (Outcome Panic Mem Unit)) (d : Nat) : Prop :=
  ∀ {c : Nat} {m : Mem} {R : Nat → Nat}, m.Exact R → Bare m d c →
    (nodes child (entry m) d c).Nodup → (∀ x ∈ nodes child (entry m) d c, R x = 1) →
    ∃ m', free c m = some (.ok () m') ∧ Freed m m' R (nodes child (entry m) d c)

/-- After the recursive call and `pagetable[i] = 0` the other entries are as they were, and so are
    the subtrees below them. -/
theorem rest_after {m1 : Mem} {is : List (Fin 512)} (hi : i ∉ is)
    (hnd : (is.flatMap (below m d n) ++ [n]).Nodup)
    (hrest : ∀ x ∈ is.flatMap (below m d n) ++ [n], m1.ram x = m.ram x) :
    (∀ j ∈ is, entry (Mem.setEntry m1 n i 0) n j = entry m n j) ∧
      ∀ j ∈ is, ∀ x ∈ below m d n j, (Mem.setEntry m1 n i 0).ram x = m.ram x := by
  have hself : n ∈ is.flatMap (below m d n) ++ [n] :=
    List.mem_append_right _ (List.mem_singleton_self n)
  refine ⟨fun j hj => ?_, fun j hj x hx => ?_⟩
  · have hji : j ≠ i := fun e => hi (e ▸ hj)
    rw [entry_setEntry_index hji]
    exact entry_congr (hrest n hself) j
  · have hmem : x ∈ is.flatMap (below m d n) := List.mem_flatMap.mpr ⟨j, hj, hx⟩
    have hxn : x ≠ n := (List.nodup_append.mp hnd).2.2 x hmem n (List.mem_singleton_self n)
    rw [setEntry_ram, update_of_ne hxn]
    exact hrest x (List.mem_append_left _ hmem)

/-- **The loop of `freewalk`** over entries with tables below them. -/
theorem freewalkLoop_frees {free : Nat → Mem → Option (Outcome Panic Mem Unit)}
    (hfree : Frees free d) {is : List (Fin 512)} (his : is.Nodup) (hx : m.Exact R)
    (hb : ∀ i ∈ is, Valid (entry m n i) → entry m n i &&& (PTE_R ||| PTE_W ||| PTE_X) = 0 ∧
      Bare m d (pageOf (PTE2PA (entry m n i))))
    (hnd : (is.flatMap (below m d n) ++ [n]).Nodup)
    (hone : ∀ x ∈ is.flatMap (below m d n) ++ [n], R x = 1) :
    ∃ m', freewalkLoop free n is m = some (.ok () m') ∧
      Freed m m' R (is.flatMap (below m d n) ++ [n]) := by
  induction is generalizing m R with
  | nil =>
    obtain ⟨m', hrun, hfr⟩ := kfree_last hx (hone n (List.mem_singleton_self n))
    exact ⟨m', congrArg some hrun, hfr⟩
  | cons i is ih =>
    obtain ⟨hi, his⟩ := List.nodup_cons.mp his
    have hb' := fun j hj => hb j (List.mem_cons_of_mem i hj)
    rw [List.flatMap_cons, List.append_assoc] at hnd hone ⊢
    unfold freewalkLoop
    by_cases hv : Valid (entry m n i)
    · obtain ⟨hinner, hbare⟩ := hb i List.mem_cons_self hv
      rw [below_of_valid hv] at hnd hone ⊢
      obtain ⟨hnd1, hnd2, hdisj⟩ := List.nodup_append.mp hnd
      obtain ⟨m1, hrun, hfr⟩ := hfree hx hbare hnd1 fun x hx =>
        hone x (List.mem_append_left _ hx)
      rw [if_pos ⟨hv, hinner⟩, hrun]
      have hout : ∀ x ∈ is.flatMap (below m d n) ++ [n],
          x ∉ nodes child (entry m) d (pageOf (PTE2PA (entry m n i))) := fun x hx hin =>
        hdisj x hin x hx rfl
      obtain ⟨hentry, hram⟩ := rest_after (i := i) hi hnd2 fun x hx => hfr.ram x (hout x hx)
      have hflat : is.flatMap (below (Mem.setEntry m1 n i 0) d n) = is.flatMap (below m d n) :=
        List.flatMap_congr fun j hj => below_congr (hentry j hj) (hram j hj)
      have hb2 : ∀ j ∈ is, Valid (entry (Mem.setEntry m1 n i 0) n j) →
          entry (Mem.setEntry m1 n i 0) n j &&& (PTE_R ||| PTE_W ||| PTE_X) = 0 ∧
          Bare (Mem.setEntry m1 n i 0) d (pageOf (PTE2PA (entry (Mem.setEntry m1 n i 0) n j))) := by
        intro j hj
        rw [hentry j hj]
        intro hvj
        refine ⟨(hb' j hj hvj).1, (hb' j hj hvj).2.of_ram fun x hx => hram j hj x ?_⟩
        rw [below_of_valid hvj]
        exact hx
      rw [← hflat] at hnd2
      obtain ⟨m', hrun', hfr'⟩ := ih his (exact_setEntry hfr.exact) hb2 hnd2 fun x hx => by
        rw [hflat] at hx
        rw [if_neg (hout x hx)]
        exact hone x (List.mem_append_right _ hx)
      rw [hflat] at hfr'
      have hlist : (Mem.setEntry m1 n i 0).freelist = m1.freelist := rfl
      refine ⟨m', hrun', hfr.trans hlist (fun x hx => ?_) hfr'⟩
      have hxn : x ≠ n := fun e => hx (List.mem_append_right _ (List.mem_singleton.mpr e))
      rw [setEntry_ram, update_of_ne hxn]
    · rw [below_of_not_valid hv, List.nil_append] at hnd hone ⊢
      rw [if_neg fun hc => hv hc.1, if_neg hv]
      exact ih his hx hb' hnd hone

/-- **`freewalk` of a tree without leaves**: its tables go to the free list, each once, and it
    calls itself no deeper than the tree is. -/
theorem freewalk_frees (d : Nat) : Frees (freewalk (d + 1)) d := by
  induction d with
  | zero =>
    intro c m R hx hb _ hone
    obtain ⟨m', hrun, hfr⟩ := kfree_last hx (hone c (List.mem_singleton_self c))
    refine ⟨m', ?_, hfr⟩
    show freewalkLoop (freewalk 0) c (List.finRange 512) m = _
    rw [freewalkLoop_zero _ hb, hrun]
  | succ d ih =>
    intro c m R hx hb hnd hone
    exact freewalkLoop_frees ih (List.nodup_finRange 512) hx (fun i _ => hb i) hnd hone

end Freewalk

/-! ## 5. Every sequence of calls -/

/-- The pages of the tables below `root`. -/
def tables (m : Mem) (root : Nat) : List Nat := nodes child (entry m) 2 root

theorem mem_tables {m : Mem} {root x : Nat} : x ∈ tables m root ↔ IsTable m root x := mem_nodes

/-- **The trees that calls make**, with the calls and what they answered. The ranges are whole
    pages, those of `mappages` below `MAXVA` and not mapped yet. A call that frees what was mapped
    frees no table of the tree. Between the calls anything may happen to the rest of the memory. -/
inductive Built (root : Nat) : List (MapCall × Int) → Mem → Prop where
  | create {m m' : Mem} {R : Nat → Nat} (hx : m.Exact R) (h : uvmcreate m = .ok (some root) m') :
      Built root [] m'
  | map {l : List (MapCall × Int)} {m m' : Mem} {va size pa perm : Word} {r : Int}
      (h : Built root l m) (hva : va.toNat % PGSIZE = 0) (hsize : size.toNat % PGSIZE = 0)
      (hpos : size ≠ 0) (hmax : va.toNat + size.toNat ≤ MAXVA)
      (hfree : ∀ u, va.toNat / PGSIZE ≤ u → u < va.toNat / PGSIZE + size.toNat / PGSIZE →
        mapped m root u = none)
      (hr : mappages root va size pa perm m = .ok r m') :
      Built root (l ++ [(.mappages va size pa perm, r)]) m'
  | unmap {l : List (MapCall × Int)} {m m' : Mem} {va npages : Word} {doFree : Bool}
      (h : Built root l m) (hva : va.toNat % PGSIZE = 0)
      (hmax : va.toNat + npages.toNat * PGSIZE < 2 ^ 64)
      (hown : doFree = true → ∀ u e, va.toNat / PGSIZE ≤ u →
        u < va.toNat / PGSIZE + npages.toNat → mapped m root u = some e →
        pageOf (PTE2PA e) ∉ tables m root)
      (hr : uvmunmap root va npages doFree m = .ok () m') :
      Built root (l ++ [(.uvmunmap va npages, 0)]) m'
  | other {l : List (MapCall × Int)} {m m' : Mem} {R : Nat → Nat} (h : Built root l m)
      (hx : m'.Exact R) (hkeep : ∀ x ∈ tables m root, m'.ram x = m.ram x ∧ R x = 1) :
      Built root l m'

section Built

variable {m m' : Mem} {root : Nat} {R : Nat → Nat}

/-- A page of zeros is an empty tree. -/
theorem uvmcreate_tree (hx : m.Exact R) (h : uvmcreate m = .ok (some root) m') :
    (∃ R', Tree m' root R') ∧ mapped m' root = fun _ => none := by
  have hsat : (uvmcreate m).Returns fun o m' => ∀ root, o = some root →
      (∃ R', m'.Exact R' ∧ R' root = 1) ∧ m'.ram root = fun _ => 0 := by
    refine (kalloc_sat hx).bind fun o m1 hk => ?_
    cases o with
    | none => exact fun root ho => by cases ho
    | some p =>
      obtain ⟨h0, -, hx'⟩ := hk
      rintro root ⟨⟩
      refine ⟨⟨update R p 1, (hx' _ ?_ fun q hq => update_of_ne hq _ _).setRam _,
        update_self ..⟩, update_self ..⟩
      rw [update_self, h0]
  obtain ⟨⟨R', hx', hone⟩, hzero⟩ := hsat.of_ok h root rfl
  have hentry : ∀ i, entry m' root i = 0 := entry_zeros hzero
  -- there is one path, the empty one
  have hpath : ∀ (p : List (Fin 512)) x, follow child (entry m') root p = some x →
      p = [] ∧ x = root := by
    intro p x hp
    cases p with
    | nil =>
      cases hp
      exact ⟨rfl, rfl⟩
    | cons i p =>
      obtain ⟨c, hc, -⟩ := Option.bind_eq_some_iff.mp hp
      rw [hentry i, child_zero] at hc
      cases hc
  refine ⟨⟨R', hx', fun p q x _ _ hp hq => ?_, fun p x _ hp => ?_, fun p x i _ hp hv => ?_,
    fun i _ => ?_⟩, funext fun v => ?_⟩
  · rw [(hpath p x hp).1, (hpath q x hq).1]
  · rw [(hpath p x hp).2]
    exact hone
  · rw [(hpath p x hp).2, hentry i] at hv
    exact absurd hv not_valid_zero
  · rw [hentry i]
    exact not_valid_zero
  · have hnone : follow child (entry m') root (levels v) = none := by
      cases hp : follow child (entry m') root (levels v) with
      | none => rfl
      | some x => exact absurd (hpath _ x hp).1 (List.cons_ne_nil _ _)
    have hleaf : leafAt m' root v = 0 := lookup_of_none hnone _
    unfold mapped
    rw [hleaf, if_neg fun hc => not_valid_zero hc.2]

/-- **`mappages`** on a range of pages that are not mapped. -/
theorem mappages_maps {va size pa perm : Word} (h : Tree m root R) (hva : va.toNat % PGSIZE = 0)
    (hsize : size.toNat % PGSIZE = 0) (hpos : size ≠ 0) (hmax : va.toNat + size.toNat ≤ MAXVA)
    (hfree : ∀ u, va.toNat / PGSIZE ≤ u → u < va.toNat / PGSIZE + size.toNat / PGSIZE →
      mapped m root u = none) :
    (mappages root va size pa perm m).Returns fun r m' => (∃ R', Tree m' root R') ∧
        MapSpec (.mappages va size pa perm) r (mapped m root) (mapped m' root) := by
  unfold mappages
  rw [if_neg (not_not.mpr hva), if_neg (not_not.mpr hsize), if_neg hpos]
  have hv : va.toNat = va.toNat / PGSIZE * PGSIZE := by
    simp only [PGSIZE] at *
    omega
  refine (mappagesLoop_maps h hv ?_ hfree).imp fun r m' ⟨R', ht, k, hk, hmap⟩ =>
    ⟨⟨R', ht⟩, k, hk, hmap⟩
  simp only [NVPN, MAXVA, PGSIZE] at *
  omega

/-- **`uvmunmap`** of a range of pages. It panics only in `kfree`. -/
theorem uvmunmap_clears {va npages : Word} {doFree : Bool} (h : Tree m root R)
    (hva : va.toNat % PGSIZE = 0) (hmax : va.toNat + npages.toNat * PGSIZE < 2 ^ 64)
    (hown : doFree = true → ∀ u e, va.toNat / PGSIZE ≤ u → u < va.toNat / PGSIZE + npages.toNat →
      mapped m root u = some e → pageOf (PTE2PA e) ∉ tables m root) :
    (uvmunmap root va npages doFree m).Sat (fun _ m' => (∃ R', Tree m' root R') ∧
        MapSpec (.uvmunmap va npages) 0 (mapped m root) (mapped m' root))
      fun _ _ => doFree = true := by
  unfold uvmunmap
  rw [if_neg (not_not.mpr hva)]
  have hcount : ((va + npages * 4096).toNat - va.toNat) / PGSIZE = npages.toNat := by
    have h4 : (4096 : Word).toNat = 4096 := rfl
    rw [BitVec.toNat_add, BitVec.toNat_mul, h4]
    simp only [PGSIZE] at *
    omega
  have hv : va.toNat = va.toNat / PGSIZE * PGSIZE := by
    simp only [PGSIZE] at *
    omega
  rw [hcount]
  refine uvmunmapLoop_clears h hv ?_ fun hd u e h1 h2 he hin =>
    hown hd u e h1 h2 he (mem_tables.mpr hin)
  simp only [PGSIZE] at *
  omega

/-- What is built is a tree, and it stands for the map of its calls. -/
theorem Built.tree {l : List (MapCall × Int)} (h : Built root l m) :
    (∃ R, Tree m root R) ∧ SpecRun MapSpec (fun _ => none) l (mapped m root) := by
  induction h with
  | create hx h =>
    obtain ⟨ht, hmap⟩ := uvmcreate_tree hx h
    rw [hmap]
    exact ⟨ht, .nil _⟩
  | map _ hva hsize hpos hmax hfree hr ih =>
    obtain ⟨⟨R, ht⟩, hrun⟩ := ih
    obtain ⟨ht', hspec⟩ := (mappages_maps ht hva hsize hpos hmax hfree).of_ok hr
    exact ⟨ht', hrun.snoc hspec⟩
  | unmap _ hva hmax hown hr ih =>
    obtain ⟨⟨R, ht⟩, hrun⟩ := ih
    obtain ⟨ht', hspec⟩ := (uvmunmap_clears ht hva hmax hown).of_ok hr
    exact ⟨ht', hrun.snoc hspec⟩
  | other _ hx hkeep ih =>
    obtain ⟨⟨R, ht⟩, hrun⟩ := ih
    obtain ⟨ht', hmap, -⟩ := ht.other hx fun p x hp hfx => hkeep x (mem_tables.mpr ⟨p, hp, hfx⟩)
    rw [hmap]
    exact ⟨⟨_, ht'⟩, hrun⟩

/-- A tree that maps nothing has no leaves. -/
theorem Tree.bare (h : Tree m root R) (hnone : ∀ v, mapped m root v = none) : Bare m 2 root := by
  intro i hi
  have hi256 : i.val < 256 := by
    by_contra hge
    exact h.user i (by omega) hi
  have hroot : follow child (entry m) root [] = some root := rfl
  refine ⟨h.inner [] root i (by decide) hroot hi, fun j hj => ?_⟩
  generalize hci : pageOf (PTE2PA (entry m root i)) = c at hj ⊢
  have hc : follow child (entry m) root [i] = some c := by
    show (child (entry m root i)).bind _ = _
    rw [child_of_valid hi, hci]
    rfl
  refine ⟨h.inner [i] c j Nat.one_lt_two hc hj, fun k hk => ?_⟩
  generalize hdj : pageOf (PTE2PA (entry m c j)) = t at hk
  have ht : follow child (entry m) root [i, j] = some t := by
    have happ : follow child (entry m) root ([i] ++ [j]) = follow child (entry m) c [j] := by
      rw [follow_append, hc, Option.bind_some]
    rw [show [i, j] = [i] ++ [j] from rfl, happ]
    show (child (entry m c j)).bind _ = _
    rw [child_of_valid hj, hdj]
    rfl
  -- the page whose indices these are
  have hv : (i.val * 512 + j.val) * 512 + k.val < NVPN := by
    simp only [NVPN, MAXVA, PGSIZE]
    omega
  have hlevels : levels ((i.val * 512 + j.val) * 512 + k.val) = [i, j] := by
    simp only [levels, List.cons.injEq, and_true]
    exact ⟨Fin.ext (by show _ % 512 = i.val; omega), Fin.ext (by show _ % 512 = j.val; omega)⟩
  have hslot : slot ((i.val * 512 + j.val) * 512 + k.val) = k :=
    Fin.ext (by show _ % 512 = k.val; omega)
  have hn := (mapped_eq_none hv).mp (hnone _)
  rw [leafAt, hlevels, hslot, lookup_of_follow ht] at hn
  exact hn hk

end Built

/-- **`walk(va, 0)` and `walkaddr` read the finite map** `f`. -/
def Reads (m : Mem) (root : Nat) (f : Nat → Option Word) (va : Word) : Prop :=
  (∃ o, walk root va false m = .ok o m ∧
    (match o with
      | none => f (va.toNat / PGSIZE) = none
      | some (t, i) =>
        f (va.toNat / PGSIZE) = if Valid (entry m t i) then some (entry m t i) else none)) ∧
  walkaddr root va m = .ok
    (match f (va.toNat / PGSIZE) with
      | none => 0
      | some e => if e &&& PTE_U = 0 then 0 else PTE2PA e) m

theorem reads_mapped (m : Mem) (root : Nat) {va : Word} (hva : va.toNat < MAXVA) :
    Reads m root (mapped m root) va := by
  have hv : va.toNat / PGSIZE < NVPN := by
    simp only [NVPN, MAXVA, PGSIZE] at *
    omega
  have hwalk := walk_lookup hva root m
  cases hfol : follow child (entry m) root (levels (va.toNat / PGSIZE)) with
  | none =>
    have hnone : mapped m root (va.toNat / PGSIZE) = none := by
      rw [mapped_eq_none hv, leafAt, lookup_of_none hfol]
      exact not_valid_zero
    rw [hfol] at hwalk
    refine ⟨⟨none, hwalk, hnone⟩, ?_⟩
    unfold walkaddr
    rw [if_neg (by omega), bind_ok hwalk, hnone]
    rfl
  | some t =>
    have hleaf := leafAt_of_follow hfol
    have hmap : mapped m root (va.toNat / PGSIZE) =
        if Valid (entry m t (slot (va.toNat / PGSIZE))) then
          some (entry m t (slot (va.toNat / PGSIZE))) else none := by
      unfold mapped
      rw [hleaf]
      exact if_congr (and_iff_right hv) rfl rfl
    rw [hfol] at hwalk
    refine ⟨⟨_, hwalk, hmap⟩, ?_⟩
    unfold walkaddr
    rw [if_neg (by omega), bind_ok hwalk]
    show (read >>= _) m = _
    rw [read_bind, hmap]
    by_cases hval : Valid (entry m t (slot (va.toNat / PGSIZE)))
    · rw [if_neg (not_not.mpr hval), if_pos hval]
      show (if _ then pure 0 else pure _ : VmM Word) m = .ok (if _ then _ else _) m
      split <;> rfl
    · rw [if_pos hval, if_neg hval]
      rfl

/-- **Page tables implement finite maps.** Of every tree that calls make: it is the map of the
    calls; `walk(va, 0)` and `walkaddr` read that map at every address; `mappages` on pages that
    are not mapped returns 0 or -1, and `uvmunmap` returns; `freewalk`, once nothing is mapped,
    puts every table on the free list once. And an entry gives its address and permissions
    back. -/
theorem page_tables_are_maps {root : Nat} {l : List (MapCall × Int)} {m : Mem}
    (h : Built root l m) :
    SpecRun MapSpec (fun _ => none) l (mapped m root) ∧
    (∀ va : Word, va.toNat < MAXVA → Reads m root (mapped m root) va) ∧
    (∀ va size pa perm : Word, va.toNat % PGSIZE = 0 → size.toNat % PGSIZE = 0 → size ≠ 0 →
      va.toNat + size.toNat ≤ MAXVA →
      (∀ u, va.toNat / PGSIZE ≤ u → u < va.toNat / PGSIZE + size.toNat / PGSIZE →
        mapped m root u = none) →
      ∃ r m', mappages root va size pa perm m = .ok r m' ∧ (r = 0 ∨ r = -1)) ∧
    (∀ va npages : Word, va.toNat % PGSIZE = 0 → va.toNat + npages.toNat * PGSIZE < 2 ^ 64 →
      ∃ m', uvmunmap root va npages false m = .ok () m') ∧
    ((∀ v, mapped m root v = none) → ∃ m', freewalk 3 root m = some (.ok () m') ∧
      (tables m root).Nodup ∧ m'.freelist = (tables m root).reverse ++ m.freelist ∧
      m'.freelist.Nodup) ∧
    ∀ pa perm : Word, pa.toNat % PGSIZE = 0 → perm.toNat < 2 ^ 10 →
      PTE2PA (leafPte pa perm) = pa ∧ PTE_FLAGS (leafPte pa perm) = perm ||| PTE_V := by
  obtain ⟨⟨R, ht⟩, hrun⟩ := h.tree
  refine ⟨hrun, fun va hva => reads_mapped m root hva,
    fun va size pa perm hva hsize hpos hmax hfree => ?_, fun va npages hva hmax => ?_,
    fun hnone => ?_, fun pa perm hpa hperm =>
      ⟨pte2pa_leafPte hpa hperm, pteFlags_leafPte hperm⟩⟩
  · have hsat := @mappages_maps m root R va size pa perm ht hva hsize hpos hmax hfree
    obtain ⟨r, m', hr, -, k, hk, -⟩ := hsat.exists_ok
    exact ⟨r, m', hr, hk.imp And.left And.left⟩
  · have hown : false = true → ∀ u e, va.toNat / PGSIZE ≤ u →
        u < va.toNat / PGSIZE + npages.toNat → mapped m root u = some e →
        pageOf (PTE2PA e) ∉ tables m root := fun hd => absurd hd (by decide)
    have hsat := uvmunmap_clears ht hva hmax hown
    obtain ⟨_, m', hr, -⟩ := (hsat.mono (fun _ _ hq => hq) fun _ _ hf =>
      absurd hf (by decide)).exists_ok
    exact ⟨m', hr⟩
  · have hnd := ht.apart.nodup_nodes
    obtain ⟨m', hr, hfr⟩ := freewalk_frees 2 ht.exact (ht.bare hnone) hnd fun x hx => by
      obtain ⟨p, hp, hfx⟩ := mem_nodes.mp hx
      exact ht.owned p x hp hfx
    exact ⟨m', hr, hnd, hfr.freelist, hfr.exact.counted.nodup⟩

/-- The memory after `kinit` with five pages. -/
def fivePages : Mem :=
  (kinit (NPAGE - 5) (fun _ _ => 0) ⟨0, [], fun _ => 0, 0, 0, false, false, false, false,
    fun _ _ => 0⟩).last

/-- Two pages are mapped at 0x1000, readable and for the user. -/
def twoMapped : Mem :=
  (mappages (NPAGE - 1) 0x1000 0x2000 0x80000000 0x12 (uvmcreate fivePages).last).last

/-- The first of them is unmapped. -/
def oneLeft : Mem := (uvmunmap (NPAGE - 1) 0x1000 1 false twoMapped).last

theorem page_tables_are_maps_one :
    Built (NPAGE - 1) [(.mappages 0x1000 0x2000 0x80000000 0x12, 0), (.uvmunmap 0x1000 1, 0)] oneLeft ∧
      Reads oneLeft (NPAGE - 1) (mapped oneLeft (NPAGE - 1)) 0x2234 ∧
      mapped twoMapped (NPAGE - 1) 1 = some (leafPte 0x80000000 0x12) ∧
      mapped oneLeft (NPAGE - 1) 1 = none ∧
      mapped oneLeft (NPAGE - 1) 2 = some (leafPte 0x80001000 0x12) := by
  have hexact : fivePages.Exact fun _ => 0 := by
    obtain ⟨_, m', hrun, hx, -⟩ := (kinit_exact (show NPAGE - 5 ≤ NPAGE by decide) (fun _ _ => 0)
      ⟨0, [], fun _ => 0, 0, 0, false, false, false, false, fun _ _ => 0⟩).exists_ok
    rw [fivePages, hrun]
    exact hx
  have hcreate : uvmcreate fivePages = .ok (some (NPAGE - 1)) (uvmcreate fivePages).last :=
    Outcome.eq_ok (by decide +kernel)
  have hempty := (uvmcreate_tree hexact hcreate).2
  have hmap : mappages (NPAGE - 1) 0x1000 0x2000 0x80000000 0x12 (uvmcreate fivePages).last =
      .ok 0 twoMapped := Outcome.eq_ok (by decide +kernel)
  have hunmap : uvmunmap (NPAGE - 1) 0x1000 1 false twoMapped = .ok () oneLeft :=
    Outcome.eq_ok (by decide +kernel)
  have hbuilt : Built (NPAGE - 1)
      [(.mappages 0x1000 0x2000 0x80000000 0x12, 0), (.uvmunmap 0x1000 1, 0)] oneLeft :=
    ((Built.create hexact hcreate).map (by decide) (by decide) (by decide) (by decide)
      (fun u _ _ => by rw [hempty]) hmap).unmap (by decide) (by decide) (fun h => by cases h) hunmap
  exact ⟨hbuilt, (page_tables_are_maps hbuilt).2.1 0x2234 (by decide), by decide +kernel⟩

end HaiOS.Vm.Sv39
