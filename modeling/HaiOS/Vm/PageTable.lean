/-
  File:      HaiOS/Vm/PageTable.lean
  Subject:   PAGE TABLES (kernel/vm.c): the three levels of a user page table, `walk`, `mappages`,
             `uvmcreate`, `uvmunmap`, `freewalk`.

  The tables of one level are one family, indexed by the bits of the page number that select the
  table's entry: `mid i` is the page of the table that entry `i` of the root names, `low k` the
  page of the table that entry `k % 512` of table `k / 512` names, `leaf v` the entry of page `v`.
  An entry without `PTE_V` is `none`. Every leaf entry the kernel makes has `PTE_R`, so this bit
  has no field; the accessed and dirty bits, which the kernel never reads, have none either.
-/
import HaiOS.Vm.Kalloc

namespace HaiOS.Vm

open Lib Lib.Routine Function

/-- `PTE_W`, `PTE_X`, `PTE_U` and `PTE_COW` of a leaf entry. -/
structure Flags where
  w : Bool
  x : Bool
  u : Bool
  cow : Bool
  deriving DecidableEq, Repr

/-- A valid leaf entry: the physical page and the flags. -/
structure Pte where
  ppn : Nat
  flags : Flags
  deriving DecidableEq, Repr

/-- A user page table. -/
structure PageTable where
  root : Nat
  mid : Nat → Option Nat
  low : Nat → Option Nat
  leaf : Nat → Option Pte

/-- The number of pages below `MAXVA`. -/
abbrev NVPN : Nat := MAXVA / PGSIZE

/-- The number of pages below `TRAPFRAME`: the user range. -/
abbrev USERVPN : Nat := TRAPFRAME / PGSIZE

namespace PageTable

/-- `walk(pagetable, va, 0)`: no entry when a table on the way is missing, else the leaf entry. -/
@[irreducible] def walk (t : PageTable) (va : Nat) : Option (Option Pte) :=
  if MAXVA ≤ va then none
  else if t.mid (va / PGSIZE / 512 / 512) = none then none
  else if t.low (va / PGSIZE / 512) = none then none
  else some (t.leaf (va / PGSIZE))

/-- The valid leaf entry of `va`, if there is one. -/
def pte (t : PageTable) (va : Nat) : Option Pte := (t.walk va).join

/-- Write the leaf entry of page `v`. -/
def setLeaf (t : PageTable) (v : Nat) (e : Option Pte) : PageTable :=
  { t with leaf := update t.leaf v e }

/-- The root's entry `i` gets a new table, filled with zeros. -/
def addMid (t : PageTable) (i p : Nat) : PageTable :=
  { t with
    mid := update t.mid i (some p)
    low := fun k => if k / 512 = i then none else t.low k }

/-- Entry `k` of the second level gets a new table, filled with zeros. -/
def addLow (t : PageTable) (k p : Nat) : PageTable :=
  { t with
    low := update t.low k (some p)
    leaf := fun v => if v / 512 = k then none else t.leaf v }

end PageTable

/-! ## 1. `walk` with allocation, `mappages` -/

/-- One level of `walk(pagetable, va, 1)`: when the entry `e` is not valid, a zeroed page becomes
    the table it names. The first component says whether the table is there. -/
def walkStep (t : PageTable) (e : Option Nat) (add : Nat → PageTable) : VmM (Bool × PageTable) :=
  match e with
  | some _ => pure (true, t)
  | none => do
    match ← kalloc with
    | none => pure (false, t)
    | some p => do
      memset p 0
      pure (true, add p)

/-- `walk(pagetable, va, 1)`: create the tables on the way to `va`. Tables made before the memory
    ran out stay. -/
def walkAlloc (t : PageTable) (va : Nat) : VmM (Bool × PageTable) := do
  if MAXVA ≤ va then pure (false, t)
  else do
    let (ok, t) ← walkStep t (t.mid (va / PGSIZE / 512 / 512)) (t.addMid (va / PGSIZE / 512 / 512))
    if ok = false then pure (false, t)
    else walkStep t (t.low (va / PGSIZE / 512)) (t.addLow (va / PGSIZE / 512))

/-- The loop of `mappages`: `n` pages from `a` on, to the pages from `p` on. -/
def mappagesLoop (f : Flags) : Nat → PageTable → Nat → Nat → VmM (Bool × PageTable)
  | 0, t, _, _ => pure (true, t)
  | n + 1, t, a, p => do
    let (ok, t) ← walkAlloc t a
    if ok = false then pure (false, t)
    else if (t.leaf (a / PGSIZE)).isSome then stop .mappagesRemap
    else mappagesLoop f n (t.setLeaf (a / PGSIZE) (some ⟨p, f⟩)) (a + PGSIZE) (p + 1)

/-- `mappages`: false when `walk` could not allocate a table. -/
def mappages (t : PageTable) (va size p : Nat) (f : Flags) : VmM (Bool × PageTable) :=
  if va % PGSIZE ≠ 0 then stop .mappagesVa
  else if size % PGSIZE ≠ 0 then stop .mappagesAligned
  else if size = 0 then stop .mappagesSize
  else mappagesLoop f (size / PGSIZE) t va p

/-! ## 2. `uvmcreate`, `uvmunmap`, `freewalk` -/

/-- The page table whose root page `p` is filled with zeros. -/
def PageTable.empty (p : Nat) : PageTable := ⟨p, fun _ => none, fun _ => none, fun _ => none⟩

/-- `uvmcreate`: an empty table, or none when memory ran out. -/
def uvmcreate : VmM (Option PageTable) := do
  match ← kalloc with
  | none => pure none
  | some p => do
    memset p 0
    pure (some (PageTable.empty p))

/-- The loop of `uvmunmap`: `n` pages from `a` on; missing entries are skipped. -/
def uvmunmapLoop (doFree : Bool) : Nat → PageTable → Nat → VmM PageTable
  | 0, t, _ => pure t
  | n + 1, t, a =>
    match t.pte a with
    | none => uvmunmapLoop doFree n t (a + PGSIZE)
    | some e => do
      if doFree = true then kfree e.ppn else pure ()
      uvmunmapLoop doFree n (t.setLeaf (a / PGSIZE) none) (a + PGSIZE)

/-- `uvmunmap`. -/
def uvmunmap (t : PageTable) (va npages : Nat) (doFree : Bool) : VmM PageTable :=
  if va % PGSIZE ≠ 0 then stop .uvmunmapAligned
  else uvmunmapLoop doFree npages t va

/-- `freewalk` of the lowest table `k`: a valid entry in it is a leaf. -/
def freewalkLow (t : PageTable) (k : Nat) : VmM PageTable :=
  match t.low k with
  | none => pure t
  | some p => do
    if (List.range 512).any fun e => (t.leaf (k * 512 + e)).isSome then stop .freewalkLeaf
    else do
      kfree p
      pure { t with low := update t.low k none }

/-- `freewalk` of the table `i` of the second level. -/
def freewalkMid (t : PageTable) (i : Nat) : VmM PageTable :=
  match t.mid i with
  | none => pure t
  | some p => do
    let t ← (List.range 512).foldlM (fun t j => freewalkLow t (i * 512 + j)) t
    kfree p
    pure { t with mid := update t.mid i none }

/-- `freewalk` of the root. -/
@[irreducible] def freewalk (t : PageTable) : VmM Unit := do
  let t ← (List.range 512).foldlM freewalkMid t
  kfree t.root

end HaiOS.Vm
