/-
  File:      HaiOS/Vm/Sv39.lean
  Subject:   PAGE TABLES IN MEMORY (kernel/vm.c and kernel/riscv.h): 64-bit entries in pages of
             512, the macros that take them apart, `walk`, `walkaddr`, `mappages`, `uvmcreate`,
             `uvmunmap`, `freewalk`, as they read and write the bytes of the tables.

  Vm/PageTable has the tables of one address space as families of entries; here they are where the
  machine has them, in the pages `kalloc` gave. A table is the number of its page.

  * `pte2pa_leafPte`, `pteFlags_leafPte` -- an entry gives its address and permissions back;
  * `Tree` -- the pages below `root` form a tree of three levels: Lib/Radix has the rules;
  * `leafAt` -- the entry of a page, as the tree has it; `walk_lookup` -- `walk(va, 0)` finds it;
  * `walk_grows` -- `walk(va, 1)` adds tables and changes no entry of a page;
  * `Tree.put` -- writing the entry of one page changes that page's and no other's.
-/
import HaiOS.Vm.PageTable
import HaiOS.Lib.Radix

namespace HaiOS.Vm.Sv39

open Lib Lib.Routine Lib.Radix Function

/-! ## 1. Entries -/

/-- A `uint64`: a `pte_t` or an address. -/
abbrev Word : Type := BitVec 64

def PTE_V : Word := 1 <<< 0
def PTE_R : Word := 1 <<< 1
def PTE_W : Word := 1 <<< 2
def PTE_X : Word := 1 <<< 3
def PTE_U : Word := 1 <<< 4

def PA2PTE (pa : Word) : Word := (pa >>> 12) <<< 10

def PTE2PA (pte : Word) : Word := (pte >>> 10) <<< 12

def PTE_FLAGS (pte : Word) : Word := pte &&& 0x3FF

theorem pxmask_lt (x : Word) : (x &&& 0x1FF).toNat < 512 := by
  have h : (0x1FF : Word).toNat = 2 ^ 9 - 1 := rfl
  rw [BitVec.toNat_and, h, Nat.and_two_pow_sub_one_eq_mod]
  exact Nat.mod_lt _ (by decide)

def PX (level : Nat) (va : Word) : Fin 512 :=
  ⟨((va >>> (12 + 9 * level)) &&& 0x1FF).toNat, pxmask_lt _⟩

/-- `*pte & PTE_V`. -/
def Valid (pte : Word) : Prop := pte &&& PTE_V ≠ 0

instance (pte : Word) : Decidable (Valid pte) := inferInstanceAs (Decidable (_ ≠ _))

/-- The address of page `p`. -/
def pageAddr (p : Nat) : Word := BitVec.ofNat 64 (p * PGSIZE)

/-- The page of an address. -/
def pageOf (pa : Word) : Nat := pa.toNat / PGSIZE

/-- The entry that `mappages` writes. -/
def leafPte (pa perm : Word) : Word := PA2PTE pa ||| perm ||| PTE_V

/-- The entry that `walk` writes for a new table. -/
def tablePte (p : Nat) : Word := PA2PTE (pageAddr p) ||| PTE_V

/-- The table an entry names. -/
def child (pte : Word) : Option Nat := if Valid pte then some (pageOf (PTE2PA pte)) else none

/-- Entry `i` of the table in page `p`. -/
def entry (m : Mem) (p : Nat) (i : Fin 512) : Word := BitVec.ofNat 64 (getLE 8 (m.ram p) (8 * i))

/-- The memory with entry `i` of page `p` written. -/
def Mem.setEntry (m : Mem) (p : Nat) (i : Fin 512) (pte : Word) : Mem :=
  { m with ram := update m.ram p (putLE 8 (m.ram p) (8 * i) pte.toNat) }

def setEntry (p : Nat) (i : Fin 512) (pte : Word) : VmM Unit :=
  update fun m => Mem.setEntry m p i pte

/-! ## 2. The routines -/

/-- The loop of `walk` from `level` down to 1, at `pagetable`. -/
def walkLevels (va : Word) (alloc : Bool) : Nat → Nat → VmM (Option Nat)
  | 0, pagetable => pure (some pagetable)
  | level + 1, pagetable => do
    let m ← read
    let pte := entry m pagetable (PX (level + 1) va)
    if Valid pte then walkLevels va alloc level (pageOf (PTE2PA pte))
    else if alloc = false then pure none
    else do
      match ← kalloc with
      | none => pure none
      | some p => do
        memset p 0
        setEntry pagetable (PX (level + 1) va) (tablePte p)
        walkLevels va alloc level p

/-- `walk`: the address of an entry is its table and its index. -/
def walk (pagetable : Nat) (va : Word) (alloc : Bool) : VmM (Option (Nat × Fin 512)) :=
  if MAXVA ≤ va.toNat then pure none
  else do
    let table ← walkLevels va alloc 2 pagetable
    pure (table.map fun t => (t, PX 0 va))

/-- `walkaddr`: 0 if not mapped for the user. -/
def walkaddr (pagetable : Nat) (va : Word) : VmM Word :=
  if MAXVA ≤ va.toNat then pure 0
  else do
    match ← walk pagetable va false with
    | none => pure 0
    | some (t, i) => do
      let m ← read
      let pte := entry m t i
      if ¬ Valid pte then pure 0
      else if pte &&& PTE_U = 0 then pure 0
      else pure (PTE2PA pte)

/-- The loop of `mappages`; with a size of `n` pages `a == last` in its `n`th turn. -/
def mappagesLoop (pagetable : Nat) (perm : Word) : Nat → Word → Word → VmM Int
  | 0, _, _ => pure 0
  | n + 1, a, pa => do
    match ← walk pagetable a true with
    | none => pure (-1)
    | some (t, i) => do
      let m ← read
      if Valid (entry m t i) then stop .mappagesRemap
      else do
        setEntry t i (leafPte pa perm)
        mappagesLoop pagetable perm n (a + 4096) (pa + 4096)

def mappages (pagetable : Nat) (va size pa perm : Word) : VmM Int :=
  if va.toNat % PGSIZE ≠ 0 then stop .mappagesVa
  else if size.toNat % PGSIZE ≠ 0 then stop .mappagesAligned
  else if size = 0 then stop .mappagesSize
  else mappagesLoop pagetable perm (size.toNat / PGSIZE) va pa

def uvmcreate : VmM (Option Nat) := do
  match ← kalloc with
  | none => pure none
  | some p => do
    memset p 0
    pure (some p)

/-- `if(do_free) kfree(pa)`. -/
def freeLeaf (doFree : Bool) (p : Nat) : VmM Unit := if doFree = true then kfree p else pure ()

/-- One turn of the loop of `uvmunmap`. -/
def unmapPage (pagetable : Nat) (a : Word) (doFree : Bool) : VmM Unit := do
  match ← walk pagetable a false with
  | none => pure ()
  | some (t, i) => do
    let m ← read
    if ¬ Valid (entry m t i) then pure ()
    else do
      freeLeaf doFree (pageOf (PTE2PA (entry m t i)))
      setEntry t i 0

def uvmunmapLoop (pagetable : Nat) (doFree : Bool) : Nat → Word → VmM Unit
  | 0, _ => pure ()
  | n + 1, a => do
    unmapPage pagetable a doFree
    uvmunmapLoop pagetable doFree n (a + 4096)

/-- `uvmunmap`: the loop runs while `a < va + npages*PGSIZE`, computed in 64 bits. -/
def uvmunmap (pagetable : Nat) (va npages : Word) (doFree : Bool) : VmM Unit :=
  if va.toNat % PGSIZE ≠ 0 then stop .uvmunmapAligned
  else uvmunmapLoop pagetable doFree (((va + npages * 4096).toNat - va.toNat) / PGSIZE) va

/-- The loop of `freewalk` over the entries `is`, with `freewalk` for the recursive call. -/
def freewalkLoop (free : Nat → Mem → Option (Outcome Panic Mem Unit)) (pagetable : Nat) :
    List (Fin 512) → Mem → Option (Outcome Panic Mem Unit)
  | [], m => some (kfree pagetable m)
  | i :: is, m =>
    let pte := entry m pagetable i
    if Valid pte ∧ pte &&& (PTE_R ||| PTE_W ||| PTE_X) = 0 then
      match free (pageOf (PTE2PA pte)) m with
      | some (.ok _ m') => freewalkLoop free pagetable is (Mem.setEntry m' pagetable i 0)
      | r => r
    else if Valid pte then some (.fail .freewalkLeaf m)
    else freewalkLoop free pagetable is m

/-- `freewalk`, up to `depth` calls deep; `none` when the recursion goes deeper. -/
def freewalk : Nat → Nat → Mem → Option (Outcome Panic Mem Unit)
  | 0, _, _ => none
  | depth + 1, pagetable, m => freewalkLoop (freewalk depth) pagetable (List.finRange 512) m

/-! ## 3. What the macros give back -/

section Bits

variable {pa perm : Word} {i : Nat}

theorem getLsbD_flags (i : Nat) : (0x3FF : Word).getLsbD i = decide (i < 10) := by
  show (BitVec.ofNat 64 (2 ^ 10 - 1)).getLsbD i = _
  rw [BitVec.getLsbD_ofNat, Nat.testBit_two_pow_sub_one]
  by_cases h : i < 10
  · simp [h]
    omega
  · simp [h]

theorem getLsbD_one (i : Nat) : PTE_V.getLsbD i = decide (i = 0) := by
  show (1#64 <<< 0).getLsbD i = _
  by_cases h : i = 0 <;> simp [h, BitVec.getLsbD_one]

/-- An address at a page boundary has no low bits. -/
theorem getLsbD_aligned (h : pa.toNat % PGSIZE = 0) (hi : i < 12) : pa.getLsbD i = false := by
  have hmod : pa.toNat % 2 ^ 12 = 0 := h
  have := Nat.testBit_mod_two_pow pa.toNat 12 i
  rw [hmod, Nat.zero_testBit, decide_eq_true hi, Bool.true_and] at this
  exact this.symm

/-- Permissions are in the low ten bits. -/
theorem getLsbD_perm (h : perm.toNat < 2 ^ 10) (hi : 10 ≤ i) : perm.getLsbD i = false :=
  Nat.testBit_lt_two_pow (Nat.lt_of_lt_of_le h (Nat.pow_le_pow_right (by decide) hi))

theorem getLsbD_leafPte (pa perm : Word) (i : Nat) : (leafPte pa perm).getLsbD i =
    ((decide (i < 64) && !decide (i < 10) && pa.getLsbD (12 + (i - 10))) || perm.getLsbD i ||
      decide (i = 0)) := by
  rw [leafPte, PA2PTE, BitVec.getLsbD_or, BitVec.getLsbD_or, getLsbD_one, BitVec.getLsbD_shiftLeft,
    BitVec.getLsbD_ushiftRight]

/-- **`PTE2PA` gives the address back.** -/
theorem pte2pa_leafPte (hpa : pa.toNat % PGSIZE = 0) (hperm : perm.toNat < 2 ^ 10) :
    PTE2PA (leafPte pa perm) = pa := by
  apply BitVec.eq_of_getLsbD_eq
  intro i hi
  rw [PTE2PA, BitVec.getLsbD_shiftLeft, BitVec.getLsbD_ushiftRight, getLsbD_leafPte,
    getLsbD_perm hperm (by omega)]
  by_cases h : i < 12
  · simp [h, getLsbD_aligned hpa h]
  · have e : 12 + (10 + (i - 12) - 10) = i := by omega
    rw [e]
    simp [hi, h]
    omega

/-- **`PTE_FLAGS` gives the permissions back**, with `PTE_V`. -/
theorem pteFlags_leafPte (hperm : perm.toNat < 2 ^ 10) :
    PTE_FLAGS (leafPte pa perm) = perm ||| PTE_V := by
  apply BitVec.eq_of_getLsbD_eq
  intro i hi
  rw [PTE_FLAGS, BitVec.getLsbD_and, getLsbD_flags, getLsbD_leafPte, BitVec.getLsbD_or, getLsbD_one]
  by_cases h : i < 10
  · simp [h]
  · have h0 : i ≠ 0 := by omega
    have hhigh : perm.getLsbD i = false := getLsbD_perm hperm (by omega)
    simp [h, hhigh, h0]

theorem valid_iff (pte : Word) : Valid pte ↔ pte.getLsbD 0 = true := by
  unfold Valid
  have hand : (pte &&& PTE_V) = if pte.getLsbD 0 then 1 else 0 := by
    apply BitVec.eq_of_getLsbD_eq
    intro i hi
    rw [BitVec.getLsbD_and, getLsbD_one]
    by_cases h : i = 0
    · subst h
      cases pte.getLsbD 0 <;> simp
    · cases pte.getLsbD 0 <;> simp [h]
  rw [hand]
  cases pte.getLsbD 0 <;> simp

theorem valid_leafPte (pa perm : Word) : Valid (leafPte pa perm) := by
  rw [valid_iff, getLsbD_leafPte]
  simp

theorem not_valid_zero : ¬ Valid 0 := by decide

theorem child_zero : child 0 = none := if_neg not_valid_zero

theorem tablePte_eq (p : Nat) : tablePte p = leafPte (pageAddr p) 0 := by
  have h0 : PA2PTE (pageAddr p) ||| (0 : Word) = PA2PTE (pageAddr p) := BitVec.or_zero
  rw [tablePte, leafPte, h0]

/-- An entry for a table names it. -/
theorem child_tablePte {p : Nat} (hp : p < NPAGE) : child (tablePte p) = some p := by
  have haddr : (pageAddr p).toNat = p * PGSIZE := by
    rw [pageAddr, BitVec.toNat_ofNat]
    apply Nat.mod_eq_of_lt
    simp only [NPAGE, PHYSTOP, KERNBASE, PGSIZE] at *
    omega
  have hal : (pageAddr p).toNat % PGSIZE = 0 := by rw [haddr, Nat.mul_mod_left]
  rw [tablePte_eq, child, if_pos (valid_leafPte _ _), pte2pa_leafPte hal (by decide), pageOf, haddr,
    Nat.mul_div_cancel p (by decide)]

/-- An entry for a table has none of the bits of a leaf. -/
theorem tablePte_inner (p : Nat) : tablePte p &&& (PTE_R ||| PTE_W ||| PTE_X) = 0 := by
  apply BitVec.eq_of_getLsbD_eq
  intro i hi
  rw [tablePte_eq, BitVec.getLsbD_and, getLsbD_leafPte]
  have hm : (PTE_R ||| PTE_W ||| PTE_X).getLsbD i = decide (1 ≤ i ∧ i < 4) := by
    revert i
    decide
  rw [hm]
  by_cases h : 1 ≤ i ∧ i < 4
  · have h1 : i < 10 := by omega
    have h2 : i ≠ 0 := by omega
    simp [h1, h2]
  · simp [h]

end Bits

/-! ## 4. Entries in memory -/

section Entries

variable {m m' : Mem} {p q : Nat} {i j : Fin 512} {pte : Word}

theorem entry_congr (h : m'.ram p = m.ram p) (i : Fin 512) : entry m' p i = entry m p i := by
  unfold entry
  rw [h]

theorem setEntry_ram (m : Mem) (p : Nat) (i : Fin 512) (pte : Word) :
    (Mem.setEntry m p i pte).ram = update m.ram p (putLE 8 (m.ram p) (8 * i) pte.toNat) :=
  rfl

theorem exact_setEntry {R : Nat → Nat} (h : m.Exact R) : (Mem.setEntry m p i pte).Exact R :=
  h.setRam _

theorem entry_setEntry_self (m : Mem) (p : Nat) (i : Fin 512) (pte : Word) :
    entry (Mem.setEntry m p i pte) p i = pte := by
  have hlt : pte.toNat < 256 ^ 8 := pte.isLt
  unfold entry
  rw [setEntry_ram, update_self, getLE_putLE_of_lt hlt, BitVec.ofNat_toNat,
    BitVec.setWidth_eq]

theorem entry_setEntry_index (hj : j ≠ i) :
    entry (Mem.setEntry m p i pte) p j = entry m p j := by
  have hne : j.val ≠ i.val := fun e => hj (Fin.ext e)
  unfold entry
  rw [setEntry_ram, update_self, getLE_putLE_disjoint (by omega)]

theorem entry_setEntry_page (hq : q ≠ p) (j : Fin 512) :
    entry (Mem.setEntry m p i pte) q j = entry m q j :=
  entry_congr (update_of_ne hq _ _) j

theorem entry_zeros (h : m.ram p = fun _ => 0) (i : Fin 512) : entry m p i = 0 := by
  unfold entry
  rw [h]
  have : ∀ a, getLE 8 (fun _ => 0) a = 0 := fun a => by
    simp [getLE, slice, List.range_succ, ofLE]
  rw [this]
  rfl

end Entries

/-! ## 5. The tree -/

/-- The indices that lead to the lowest table of page `v`. -/
def levels (v : Nat) : List (Fin 512) :=
  [⟨v / 512 / 512 % 512, Nat.mod_lt _ (by decide)⟩, ⟨v / 512 % 512, Nat.mod_lt _ (by decide)⟩]

/-- The index of page `v` in it. -/
def slot (v : Nat) : Fin 512 := ⟨v % 512, Nat.mod_lt _ (by decide)⟩

/-- **The entry of page `v`**: 0 when there is no table for it. -/
def leafAt (m : Mem) (root v : Nat) : Word := lookup child 0 (entry m) root (levels v) (slot v)

/-- **The tables below `root` form a tree**, each page of it with one reference, while the
    allocator's records are exact for the references `R`. Entries above the lowest level name
    tables, and the half of the root above `MAXVA` is empty. -/
structure Tree (m : Mem) (root : Nat) (R : Nat → Nat) : Prop where
  exact : m.Exact R
  apart : Apart child (entry m) 2 root
  owned : ∀ (p : List (Fin 512)) x, p.length ≤ 2 → follow child (entry m) root p = some x → R x = 1
  inner : ∀ (p : List (Fin 512)) x i, p.length < 2 → follow child (entry m) root p = some x →
    Valid (entry m x i) → entry m x i &&& (PTE_R ||| PTE_W ||| PTE_X) = 0
  user : ∀ i : Fin 512, 256 ≤ i.val → ¬ Valid (entry m root i)

section Pages

variable {u v : Nat} {va : Word}

theorem length_levels (v : Nat) : (levels v).length = 2 := rfl

/-- The indices tell pages apart. -/
theorem page_eq (hu : u < NVPN) (hv : v < NVPN) (hl : levels u = levels v) (hs : slot u = slot v) :
    u = v := by
  simp only [levels, List.cons.injEq, Fin.mk.injEq, and_true] at hl
  simp only [slot, Fin.mk.injEq] at hs
  simp only [NVPN, MAXVA, PGSIZE] at hu hv
  omega

theorem px_eq (level : Nat) (va : Word) :
    (PX level va).val = va.toNat / 2 ^ (12 + 9 * level) % 512 := by
  have h : (0x1FF : Word).toNat = 2 ^ 9 - 1 := rfl
  show ((va >>> (12 + 9 * level)) &&& 0x1FF).toNat = _
  rw [BitVec.toNat_and, BitVec.toNat_ushiftRight, h, Nat.and_two_pow_sub_one_eq_mod,
    Nat.shiftRight_eq_div_pow]

/-- The indices `walk` uses from `level` down to 1. -/
def down (va : Word) : Nat → List (Fin 512)
  | 0 => []
  | level + 1 => PX (level + 1) va :: down va level

theorem down_two (va : Word) : down va 2 = levels (va.toNat / PGSIZE) := by
  have h2 := px_eq 2 va
  have h1 := px_eq 1 va
  show [PX 2 va, PX 1 va] = _
  simp only [levels, List.cons.injEq, and_true]
  refine ⟨Fin.ext ?_, Fin.ext ?_⟩
  · rw [h2]
    show _ = va.toNat / 4096 / 512 / 512 % 512
    omega
  · rw [h1]
    show _ = va.toNat / 4096 / 512 % 512
    omega

theorem px_zero (va : Word) : PX 0 va = slot (va.toNat / PGSIZE) := Fin.ext (px_eq 0 va)

theorem px_user (hva : va.toNat < MAXVA) : (PX 2 va).val < 256 := by
  rw [px_eq]
  simp only [MAXVA] at hva
  omega

end Pages

section Walk

variable {m m' : Mem} {root pt : Nat} {R : Nat → Nat} {va : Word} {p : List (Fin 512)}

theorem child_of_valid {pte : Word} (h : Valid pte) : child pte = some (pageOf (PTE2PA pte)) :=
  if_pos h

theorem child_of_not_valid {pte : Word} (h : ¬ Valid pte) : child pte = none := if_neg h

theorem walkLevels_lookup (va : Word) (level pt : Nat) (m : Mem) :
    walkLevels va false level pt m = .ok (follow child (entry m) pt (down va level)) m := by
  induction level generalizing pt with
  | zero => rfl
  | succ level ih =>
    unfold walkLevels
    rw [read_bind]
    show _ = Outcome.ok ((child (entry m pt (PX (level + 1) va))).bind _) m
    by_cases hv : Valid (entry m pt (PX (level + 1) va))
    · rw [if_pos hv, ih, child_of_valid hv]
      rfl
    · rw [if_neg hv, if_pos rfl, child_of_not_valid hv]
      rfl

/-- **`walk(va, 0)` finds the entry of the page**, or no table for it. -/
theorem walk_lookup (hva : va.toNat < MAXVA) (root : Nat) (m : Mem) :
    walk root va false m =
      .ok ((follow child (entry m) root (levels (va.toNat / PGSIZE))).map
        fun t => (t, slot (va.toNat / PGSIZE))) m := by
  unfold walk
  rw [if_neg (by omega), bind_ok (walkLevels_lookup va 2 root m), down_two, px_zero]
  rfl

/-- A table that `kalloc` gave, zeroed and hung into an entry that named none. -/
theorem Tree.link {i : Fin 512} {f : Nat} {R' : Nat → Nat} {m1 : Mem} (h : Tree m root R)
    (hp : p.length < 2) (hpt : follow child (entry m) root p = some pt)
    (hv : ¬ Valid (entry m pt i)) (huser : p = [] → i.val < 256) (hf : R f = 0)
    (hram : ∀ x, x ≠ f → m1.ram x = m.ram x) (hR : R' f = 1) (hR' : ∀ x, x ≠ f → R' x = R x)
    (hx : m1.Exact R') :
    let m2 := Mem.setEntry { m1 with ram := update m1.ram f fun _ => 0 } pt i (tablePte f)
    Tree m2 root R' ∧ follow child (entry m2) root (p ++ [i]) = some f ∧
      ∀ v, leafAt m2 root v = leafAt m root v := by
  intro m2
  have hpt1 : R pt = 1 := h.owned p pt hp.le hpt
  have hne : pt ≠ f := fun e => by rw [e, hf] at hpt1; cases hpt1
  have hfresh : ∀ q : List (Fin 512), q.length ≤ 2 → follow child (entry m) root q ≠ some f :=
    fun q hq hq' => by have := h.owned q f hq hq'; omega
  have hNP : f < NPAGE := (hx.managed (p := f) (by omega)).2
  -- the entries of the new memory
  have hnamed : entry m2 pt i = tablePte f := entry_setEntry_self ..
  have hbare : ∀ j, entry m2 f j = 0 := fun j => by
    rw [show entry m2 f j = _ from entry_setEntry_page (Ne.symm hne) j]
    exact entry_zeros (update_self ..) j
  have hsame : ∀ y j, y ≠ f → (y = pt → j ≠ i) → entry m2 y j = entry m y j := by
    intro y j hy hj
    have hbase : ∀ j, entry { m1 with ram := update m1.ram f fun _ => 0 } y j =
        entry m y j := entry_congr ((update_of_ne hy _ _).trans (hram y hy))
    by_cases he : y = pt
    · subst he
      rw [← hbase j]
      exact entry_setEntry_index (hj rfl)
    · rw [← hbase j]
      exact entry_setEntry_page he j
  have hl : Link child 0 (entry m) (entry m2) pt f i :=
    ⟨child_zero, child_of_not_valid hv, by rw [hnamed]; exact child_tablePte hNP, hbare, hsame⟩
  have hfollow := fun q hq => follow_link (q := q) h.apart hp hpt hfresh hl hq
  refine ⟨⟨?_, h.apart.link hp hpt hfresh hl, fun q x hq hx' => ?_, fun q x j hq hx' hval => ?_,
    fun j hj => ?_⟩, ?_, fun v => lookup_link h.apart hp hpt hfresh hl (length_levels v) _⟩
  · exact exact_setEntry (hx.setRam _)
  · rw [hfollow q hq] at hx'
    split at hx'
    · cases hx'
      exact hR
    · have h1 := h.owned q x hq hx'
      rw [hR' x fun e => by rw [e, hf] at h1; cases h1]
      exact h1
  · rw [hfollow q hq.le] at hx'
    split at hx'
    · cases hx'
      rw [hbare j] at hval
      exact absurd hval not_valid_zero
    · have hxf : x ≠ f := fun e => hfresh q hq.le (e ▸ hx')
      by_cases he : x = pt ∧ j = i
      · rw [he.1, he.2, hnamed]
        exact tablePte_inner f
      · have hxj := hsame x j hxf fun e1 e2 => he ⟨e1, e2⟩
        rw [hxj] at hval ⊢
        exact h.inner q x j hq hx' hval
  · have hroot : root ≠ f := fun e => hfresh [] (Nat.zero_le _) (congrArg some e)
    rw [hsame root j hroot fun e => ?_]
    · exact h.user j hj
    · -- the entry belongs to the root only when the path is empty
      have := h.apart p [] pt hp.le (Nat.zero_le _) hpt (congrArg some e)
      have := huser this
      rintro rfl
      omega
  · rw [hfollow _ (by rw [List.length_append]; exact hp), if_pos rfl]

/-- The records and the tree do not depend on whether a shortage has been reported. -/
theorem Tree.setOom (h : Tree m root R) (b : Bool) : Tree { m with oomWarned := b } root R :=
  ⟨⟨h.exact.counted, h.exact.free, h.exact.total, h.exact.ready⟩, h.apart, h.owned, h.inner, h.user⟩

/-- **`walk(va, 1)` adds tables to the tree and changes no entry of a page.** It leads to the
    lowest table, or memory ran out. -/
theorem walkLevels_grows (hva : va.toNat < MAXVA) {level : Nat} (h : Tree m root R)
    (hp : p.length + level = 2) (hpre : p ++ down va level = down va 2)
    (hpt : follow child (entry m) root p = some pt) :
    (walkLevels va true level pt m).Returns fun o m' => ∃ R', Tree m' root R' ∧
        (∀ v, leafAt m' root v = leafAt m root v) ∧
        ∀ t, o = some t → follow child (entry m') root (down va 2) = some t := by
  induction level generalizing p pt m R with
  | zero =>
    refine ⟨R, h, fun _ => rfl, fun t ht => ?_⟩
    have hp' : p = down va 2 := by rw [← hpre]; exact (List.append_nil p).symm
    rw [← hp', hpt]
    exact ht
  | succ level ih =>
    have hsplit : (p ++ [PX (level + 1) va]) ++ down va level = down va 2 := by
      rw [List.append_assoc]
      exact hpre
    have hlen : (p ++ [PX (level + 1) va]).length + level = 2 := by
      rw [List.length_append, List.length_singleton]
      omega
    unfold walkLevels
    rw [read_bind]
    by_cases hv : Valid (entry m pt (PX (level + 1) va))
    · rw [if_pos hv]
      refine ih h hlen hsplit ?_
      rw [follow_append, hpt, Option.bind_some]
      show (child (entry m pt (PX (level + 1) va))).bind _ = _
      rw [child_of_valid hv]
      rfl
    · rw [if_neg hv, if_neg (by decide)]
      refine (kalloc_sat h.exact).bind fun o m1 hk => ?_
      cases o with
      | none =>
        obtain ⟨-, rfl⟩ := hk
        exact ⟨R, h.setOom true, fun _ => rfl, fun t ht => by cases ht⟩
      | some f =>
        obtain ⟨hf, htook, hx⟩ := hk
        have huser : p = [] → (PX (level + 1) va).val < 256 := by
          rintro rfl
          have : level = 1 := by simp at hp; omega
          subst this
          exact px_user hva
        have hR : update R f 1 f = 1 := update_self ..
        have hR' : ∀ x, x ≠ f → update R f 1 x = R x := fun x hxf =>
          update_of_ne hxf _ _
        have hram : ∀ x, x ≠ f → m1.ram x = m.ram x := fun x hxf => by
          rw [htook.ram, update_of_ne hxf]
        obtain ⟨ht, hfol, hleaf⟩ := h.link (by omega) hpt hv huser hf hram hR hR'
          (hx _ (by rw [hR, hf]) hR')
        exact (ih ht hlen hsplit hfol).imp fun o m' ⟨R', ht', hleaf', hfol'⟩ =>
          ⟨R', ht', fun v => (hleaf' v).trans (hleaf v), hfol'⟩

/-- The entry of a page in the lowest table may be written: it changes for that page and for no
    other. -/
theorem Tree.put {v t : Nat} (h : Tree m root R)
    (hv : follow child (entry m) root (levels v) = some t) (hlt : v < NVPN) (pte : Word) :
    Tree (Mem.setEntry m t (slot v) pte) root R ∧
      ∀ u < NVPN, leafAt (Mem.setEntry m t (slot v) pte) root u =
        if u = v then pte else leafAt m root u := by
  have hother : ∀ y j, y ≠ t → entry (Mem.setEntry m t (slot v) pte) y j = entry m y j :=
    fun y j hy => entry_setEntry_page hy j
  have hfollow := fun q hq => follow_set (q := q) h.apart (length_levels v) hv hother hq
  -- the lowest table is not one of the tables above it
  have habove : ∀ (q : List (Fin 512)) x, q.length < 2 → follow child (entry m) root q = some x →
      x ≠ t := by
    rintro q x hq hx rfl
    have := h.apart q (levels v) x hq.le le_rfl hx hv
    rw [this] at hq
    exact absurd hq (by rw [length_levels]; decide)
  refine ⟨⟨exact_setEntry h.exact, h.apart.set (length_levels v) hv hother, fun q x hq hx => ?_,
    fun q x j hq hx hval => ?_, fun j hj => ?_⟩, fun u hu => ?_⟩
  · rw [hfollow q hq] at hx
    exact h.owned q x hq hx
  · rw [hfollow q hq.le] at hx
    rw [hother x j (habove q x hq hx)] at hval ⊢
    exact h.inner q x j hq hx hval
  · rw [hother root j (habove [] root (by decide) rfl)]
    exact h.user j hj
  · unfold leafAt
    rw [lookup_set h.apart (length_levels v) hv hother
      (fun j hj => entry_setEntry_index hj) (length_levels u) (slot u), entry_setEntry_self]
    refine if_congr ⟨fun hus => page_eq hu hlt hus.1 hus.2, fun e => ?_⟩ rfl rfl
    rw [e]
    exact ⟨rfl, rfl⟩

end Walk

end HaiOS.Vm.Sv39
