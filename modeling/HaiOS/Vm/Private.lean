/-
  File:      HaiOS/Vm/Private.lean
  Subject:   PRIVATE MEMORY. What an address space is for a process: a size and its own pages, each
             with its permissions and its bytes. No page is shared, nothing is counted, memory never
             runs out.

  * `Priv` -- the address space; `Priv.touch` -- an access to a page, which appears, filled with
    zeros, when it lies below the break and is not there yet.

  This is the abstract level: Vm/Faults and Vm/Spaces show that the kernel's page tables implement
  it.
-/
import HaiOS.Vm.Uvm

namespace HaiOS.Vm

open Lib

/-- A page of private memory. -/
structure Cell where
  w : Bool
  x : Bool
  u : Bool
  data : Store

/-- The page that appears at a first access. -/
def Cell.zero : Cell := ⟨true, false, true, fun _ => 0⟩

/-- **A private address space**: the break, and the pages that are there. -/
structure Priv where
  sz : Nat
  page : Nat → Option Cell

namespace Priv

/-- Replace a page. -/
def setPage (s : Priv) (v : Nat) (c : Cell) : Priv :=
  { s with page := Function.update s.page v (some c) }

/-- A page below the break that is not there yet appears. -/
def fault (s : Priv) (va : Nat) : Priv :=
  if va < s.sz ∧ s.page (va / PGSIZE) = none then s.setPage (va / PGSIZE) Cell.zero else s

/-- The page of `va`, when user code may read it, or write it. -/
def find (s : Priv) (write : Bool) (va : Nat) : Option Cell :=
  match s.page (va / PGSIZE) with
  | none => none
  | some c => if c.u = true ∧ (write = true → c.w = true) then some c else none

theorem find_some {s : Priv} {write : Bool} {va : Nat} {c : Cell}
    (hp : s.page (va / PGSIZE) = some c) (hc : c.u = true ∧ (write = true → c.w = true)) :
    s.find write va = some c := by
  unfold find
  rw [hp]
  exact if_pos hc

theorem find_eq_none {s : Priv} {write : Bool} {va : Nat}
    (h : ∀ c, s.page (va / PGSIZE) = some c → ¬ (c.u = true ∧ (write = true → c.w = true))) :
    s.find write va = none := by
  unfold find
  cases hp : s.page (va / PGSIZE) with
  | none => rfl
  | some c => exact if_neg (h c hp)

/-- What cannot be read cannot be written. -/
theorem find_write {s : Priv} {va : Nat} (h : s.find false va = none) : s.find true va = none := by
  unfold find at *
  cases hp : s.page (va / PGSIZE) with
  | none => rfl
  | some c =>
    simp only [hp] at h
    have hu : ¬ c.u = true := fun hu => by
      rw [if_pos ⟨hu, fun hw => nomatch hw⟩] at h
      cases h
    exact if_neg fun hc => hu hc.1

/-- **An access to `va`**: the page, if the access is allowed, and the address space after it. -/
def touch (s : Priv) (write : Bool) (va : Nat) : Option Cell × Priv :=
  ((s.fault va).find write va, s.fault va)

/-- Load a byte; `none` kills the process. -/
def load (s : Priv) (va : Nat) : Option UInt8 × Priv :=
  match s.touch false va with
  | (none, s) => (none, s)
  | (some c, s) => (some (c.data (va % PGSIZE)), s)

/-- Write bytes into one page, at `va`. -/
def put (s : Priv) (va : Nat) (c : Cell) (bs : List UInt8) : Priv :=
  s.setPage (va / PGSIZE) { c with data := patch c.data (va % PGSIZE) bs }

/-- Store a byte; false kills the process. -/
def store (s : Priv) (va : Nat) (b : UInt8) : Bool × Priv :=
  match s.touch true va with
  | (none, s) => (false, s)
  | (some c, s) => (true, s.put va c [b])

/-- Copy bytes to user memory, page by page; false when a page refuses them. -/
def copyoutLoop : Nat → Priv → Nat → List UInt8 → Bool × Priv
  | 0, s, _, _ => (true, s)
  | k + 1, s, dstva, src =>
    if src = [] then (true, s)
    else
      match s.touch true (dstva / PGSIZE * PGSIZE) with
      | (none, s) => (false, s)
      | (some c, s) =>
        let n := min (PGSIZE - dstva % PGSIZE) src.length
        copyoutLoop k (s.put dstva c (src.take n)) (dstva / PGSIZE * PGSIZE + PGSIZE) (src.drop n)

/-- Copy bytes to user memory at `dstva`. -/
def copyout (s : Priv) (dstva : Nat) (src : List UInt8) : Bool × Priv :=
  copyoutLoop src.length s dstva src

/-- Copy bytes from user memory, page by page. -/
def copyinLoop : Nat → Priv → Nat → Nat → List UInt8 → Option (List UInt8) × Priv
  | 0, s, _, _, dst => (some dst, s)
  | k + 1, s, srcva, len, dst =>
    if len = 0 then (some dst, s)
    else
      match s.touch false (srcva / PGSIZE * PGSIZE) with
      | (none, s) => (none, s)
      | (some c, s) =>
        let n := min (PGSIZE - srcva % PGSIZE) len
        copyinLoop k s (srcva / PGSIZE * PGSIZE + PGSIZE) (len - n)
          (dst ++ slice c.data (srcva % PGSIZE) n)

/-- Copy `len` bytes from user memory at `srcva`. -/
def copyin (s : Priv) (srcva len : Nat) : Option (List UInt8) × Priv :=
  copyinLoop len s srcva len []

/-- The break rises, with its pages there at once. -/
def grow (s : Priv) (newsz : Nat) : Priv :=
  ⟨newsz, fun v => if pages s.sz ≤ v ∧ v < pages newsz then some Cell.zero else s.page v⟩

/-- The break falls, and the pages above it go. -/
def shrink (s : Priv) (newsz : Nat) : Priv :=
  ⟨newsz, fun v => if pages newsz ≤ v ∧ v < pages s.sz then none else s.page v⟩

/-- Move the break by `n`: the old break, `none` when the new one lies too high. A fall below 0 does
    nothing. -/
def sbrk (s : Priv) (n : Int) (eager : Bool) : Option Nat × Priv :=
  if 0 ≤ n then
    if TRAPFRAME < addInt s.sz n then (none, s)
    else (some s.sz, if eager = true then s.grow (addInt s.sz n) else { s with sz := addInt s.sz n })
  else if addInt s.sz n < s.sz then (some s.sz, s.shrink (addInt s.sz n))
  else (some s.sz, s)

section

variable {s : Priv} {n : Int} {eager : Bool}

theorem sbrk_refused (h0 : 0 ≤ n) (hT : TRAPFRAME < addInt s.sz n) : s.sbrk n eager = (none, s) := by
  unfold sbrk
  rw [if_pos h0, if_pos hT]

theorem sbrk_rise (h0 : 0 ≤ n) (hT : addInt s.sz n ≤ TRAPFRAME) : s.sbrk n eager =
    (some s.sz, if eager = true then s.grow (addInt s.sz n) else { s with sz := addInt s.sz n }) := by
  unfold sbrk
  rw [if_pos h0, if_neg (Nat.not_lt.mpr hT)]

theorem sbrk_fall (h0 : n < 0) : s.sbrk n eager =
    (some s.sz, if addInt s.sz n < s.sz then s.shrink (addInt s.sz n) else s) := by
  unfold sbrk
  rw [if_neg (Int.not_le.mpr h0)]
  split <;> rfl

theorem grow_self (s : Priv) : s.grow s.sz = s := by
  unfold grow
  congr 1
  funext v
  exact if_neg (by omega)

end

end Priv

end HaiOS.Vm
