/-
  File:      HaiOS/Vm/Kalloc.lean
  Subject:   THE PAGE ALLOCATOR (kernel/kalloc.c): the free list, the 16-bit reference counts,
             `kalloc`, `kfree`, `kaddref`, and the boot of it all, `kinit`.

  A physical page is its number `pa / PGSIZE`. Every routine of the memory system runs over the
  state `Mem` -- the allocator and the bytes of the pages -- and may stop with a `Panic`.

  * `Mem.Exact m R` -- the allocator's records are exact when `R p` is the number of references to
    page `p`; `kinit_exact` -- it holds at boot, when nobody refers to any page.
-/
import HaiOS.Param
import HaiOS.Lib.Routine
import HaiOS.Lib.Bytes
import HaiOS.Lib.Counted
import Mathlib.Order.Interval.Finset.Nat

namespace HaiOS.Vm

open Lib Lib.Routine Function

/-- The number of page numbers below `PHYSTOP`: the length of `refcnt`. -/
abbrev NPAGE : Nat := PHYSTOP / PGSIZE

/-- The panics of the memory system, one constructor a message. -/
inductive Panic where
  /-- `kfree`: "kfree" -/
  | kfree
  /-- `kfree`: "kfree double" -/
  | kfreeDouble
  /-- `mappages`: "mappages: va not aligned" -/
  | mappagesVa
  /-- `mappages`: "mappages: size not aligned" -/
  | mappagesAligned
  /-- `mappages`: "mappages: size" -/
  | mappagesSize
  /-- `mappages`: "mappages: remap" -/
  | mappagesRemap
  /-- `uvmunmap`: "uvmunmap: not aligned" -/
  | uvmunmapAligned
  /-- `freewalk`: "freewalk: leaf" -/
  | freewalkLeaf
  /-- `uvmclear`: "uvmclear" -/
  | uvmclear
  /-- `loadseg`: "loadseg: address should exist" -/
  | loadsegAddress
  /-- `kexit`: "init exiting" -/
  | initExiting
  deriving DecidableEq, Repr

/-- **The memory**: `kmem` and `refcnt` of kernel/kalloc.c and the bytes of the pages. -/
structure Mem where
  /-- the number of the first whole page from `end` on -/
  first : Nat
  freelist : List Nat
  /-- a `ushort` a page -/
  refcnt : Nat → Nat
  totalPages : Nat
  freePages : Nat
  lowWarned : Bool
  critWarned : Bool
  oomWarned : Bool
  ready : Bool
  ram : Nat → Store

/-- A routine of the memory system. -/
abbrev VmM (α : Type) : Type := Routine Panic Mem α

/-! ## 1. The routines -/

/-- `memset(pa, c, PGSIZE)`. -/
def memset (p : Nat) (c : UInt8) : VmM Unit :=
  update fun m => { m with ram := update m.ram p fun _ => c }

/-- The one-time warnings of `kalloc` after a page was taken. -/
def Mem.warn (m : Mem) : Mem :=
  if m.freePages ≤ MEM_CRIT_WATERMARK_PAGES ∧ m.critWarned = false then { m with critWarned := true }
  else if m.freePages ≤ MEM_LOW_WATERMARK_PAGES ∧ m.lowWarned = false then
    { m with lowWarned := true }
  else m

/-- `kalloc`: pop the free list; the page comes filled with junk. -/
def kalloc : VmM (Option Nat) := fun m =>
  match m.freelist with
  | [] => .ok none { m with oomWarned := true }
  | p :: l => .ok (some p) (Mem.warn
      { m with
        freelist := l
        refcnt := update m.refcnt p 1
        freePages := m.freePages - 1
        ram := update m.ram p fun _ => 5 })

/-- The last reference to `p` went: junk in the page, and back on the free list. -/
def Mem.release (m : Mem) (p : Nat) : Mem :=
  { m with
    freelist := p :: m.freelist
    refcnt := update m.refcnt p 0
    freePages := m.freePages + 1
    lowWarned := if MEM_LOW_WATERMARK_PAGES < m.freePages + 1 then false else m.lowWarned
    critWarned := if MEM_CRIT_WATERMARK_PAGES < m.freePages + 1 then false else m.critWarned
    ram := update m.ram p fun _ => 1 }

/-- `kfree`: drop a reference; pages are whole, so the test of the alignment has no branch. -/
def kfree (p : Nat) : VmM Unit := do
  let m ← read
  if p < m.first ∨ NPAGE ≤ p then stop .kfree
  else if m.ready = true ∧ m.refcnt p = 0 then stop .kfreeDouble
  else if 1 < m.refcnt p then
    update fun m => { m with refcnt := update m.refcnt p (m.refcnt p - 1) }
  else update fun m => m.release p

/-- `kaddref`: another reference to a page in use, counted in 16 bits; -1 for a page not in use. -/
def kaddref (p : Nat) : VmM Int := do
  let m ← read
  if NPAGE ≤ p then pure (-1)
  else if m.refcnt p = 0 then pure (-1)
  else do
    update fun m => { m with refcnt := update m.refcnt p ((m.refcnt p + 1) % 2 ^ 16) }
    gets fun m => (m.refcnt p : Int)

/-- `freerange`, page by page from `p` on. -/
def freerange : Nat → Nat → VmM Unit
  | 0, _ => pure ()
  | n + 1, p => do
    update fun m => { m with totalPages := m.totalPages + 1 }
    kfree p
    freerange n (p + 1)

/-- `kinit`: all pages from `end` to `PHYSTOP` go to the free list; from then on a page may not be
    freed twice. -/
def kinit (first : Nat) (ram : Nat → Store) : VmM Unit := do
  update fun _ =>
    { first := first, freelist := [], refcnt := fun _ => 0, totalPages := 0, freePages := 0,
      lowWarned := false, critWarned := false, oomWarned := false, ready := false, ram := ram }
  freerange (NPAGE - first) first
  update fun m => { m with ready := true }

/-! ## 2. Exact records -/

/-- The pages the allocator manages. -/
def Mem.Managed (m : Mem) (p : Nat) : Prop := m.first ≤ p ∧ p < NPAGE

/-- **The allocator's records are exact**: `R p` is the number of references to page `p`. -/
structure Mem.Exact (m : Mem) (R : Nat → Nat) : Prop where
  counted : Counted m.Managed m.freelist m.refcnt R
  free : m.freePages = m.freelist.length
  total : m.totalPages = NPAGE - m.first
  ready : m.ready = true

/-- **What a routine leaves alone**: the bytes of the pages in `K`; a shortage stays on record. -/
structure Mem.Keeps (K : Nat → Prop) (m m' : Mem) : Prop where
  first : m'.first = m.first
  ram : ∀ p, K p → m'.ram p = m.ram p
  oom : m.oomWarned = true → m'.oomWarned = true

namespace Mem

variable {m m' m'' : Mem} {R R' : Nat → Nat} {K K' : Nat → Prop} {p : Nat}

theorem Keeps.refl (m : Mem) : Keeps K m m := ⟨rfl, fun _ _ => rfl, id⟩

theorem Keeps.trans (h : Keeps K m m') (h' : Keeps K m' m'') : Keeps K m m'' :=
  ⟨h'.first.trans h.first, fun p hp => (h'.ram p hp).trans (h.ram p hp), h'.oom ∘ h.oom⟩

theorem Keeps.mono (h : Keeps K m m') (hK : ∀ p, K' p → K p) : Keeps K' m m' :=
  ⟨h.first, fun p hp => h.ram p (hK p hp), h.oom⟩

/-- If memory has not run out by now, it had not run out before. -/
theorem Keeps.oom_false (h : Keeps K m m') (ho : m'.oomWarned = false) : m.oomWarned = false := by
  cases hm : m.oomWarned with
  | false => rfl
  | true => rw [h.oom hm] at ho; cases ho

theorem Exact.congr (h : m.Exact R) (he : ∀ q, R' q = R q) : m.Exact R' :=
  ⟨h.counted.congr he, h.free, h.total, h.ready⟩

theorem Exact.setRam (h : m.Exact R) (f : Nat → Store) : Exact { m with ram := f } R :=
  ⟨h.counted, h.free, h.total, h.ready⟩

theorem Exact.managed (h : m.Exact R) (hp : 0 < R p) : m.Managed p := h.counted.inside p hp

theorem Exact.free_le (h : m.Exact R) : m.freePages ≤ m.totalPages := by
  have hS : ∀ p, m.Managed p → p ∈ Finset.Ico m.first NPAGE := fun p hp =>
    Finset.mem_Ico.mpr hp
  have := h.counted.length_le hS
  rw [Nat.card_Ico] at this
  rw [h.free, h.total]
  exact this

theorem Exact.warn (h : m.Exact R) : m.warn.Exact R := by
  unfold Mem.warn
  split
  · exact ⟨h.counted, h.free, h.total, h.ready⟩
  · split
    · exact ⟨h.counted, h.free, h.total, h.ready⟩
    · exact h

/-- What the warnings leave alone. -/
theorem warn_eq (m : Mem) : m.warn.first = m.first ∧ m.warn.ram = m.ram ∧
    m.warn.oomWarned = m.oomWarned ∧ m.warn.freelist = m.freelist := by
  unfold Mem.warn
  split_ifs <;> exact ⟨rfl, rfl, rfl, rfl⟩

end Mem

/-! ## 3. What the routines do to exact records -/

section Specs

variable {m : Mem} {R : Nat → Nat} {p : Nat}

/-- **`kalloc` took the page `p`.** -/
structure Mem.Took (m m' : Mem) (p : Nat) : Prop where
  first : m'.first = m.first
  head : m.freelist = p :: m'.freelist
  ram : m'.ram = update m.ram p fun _ => 5
  oom : m'.oomWarned = m.oomWarned

theorem Mem.Took.keeps {m' : Mem} {K : Nat → Prop} (h : m.Took m' p) (hp : ¬ K p) :
    m.Keeps K m' := by
  refine ⟨h.first, fun q hq => ?_, fun ho => h.oom.trans ho⟩
  rw [h.ram, update_of_ne]
  exact fun e => hp (e ▸ hq)

/-- **`kalloc`** gives a page nobody refers to, or finds the free list empty. -/
theorem kalloc_sat (h : m.Exact R) :
    (kalloc m).Returns
      fun o m' => match o with
        | none => m.freelist = [] ∧ m' = { m with oomWarned := true }
        | some p => R p = 0 ∧ m.Took m' p ∧
            ∀ R' : Nat → Nat, R' p = R p + 1 → (∀ q, q ≠ p → R' q = R q) → m'.Exact R' := by
  unfold kalloc
  cases hl : m.freelist with
  | nil => exact ⟨rfl, rfl⟩
  | cons p l =>
    have hc : Counted m.Managed (p :: l) m.refcnt R := hl ▸ h.counted
    have hfree := h.free
    rw [hl, List.length_cons] at hfree
    refine ⟨hc.refs_of_free List.mem_cons_self, ?_, fun R' hp hq => ?_⟩
    · obtain ⟨e1, e2, e3, e4⟩ := Mem.warn_eq
        { m with
          freelist := l
          refcnt := update m.refcnt p 1
          freePages := m.freePages - 1
          ram := update m.ram p fun _ => 5 }
      exact ⟨e1, hl.trans (congrArg (p :: ·) e4.symm), e2, e3⟩
    · refine Mem.Exact.warn ⟨hc.take hp hq, ?_, h.total, h.ready⟩
      show m.freePages - 1 = l.length
      omega

/-- **`kfree`** of a page with a reference drops that reference and panics in no way. -/
theorem kfree_sat (h : m.Exact R) {R' : Nat → Nat} (hp : R' p + 1 = R p)
    (hq : ∀ q, q ≠ p → R' q = R q) :
    (kfree p m).Returns fun _ m' => m'.Exact R' ∧ m.Keeps (fun q => 0 < R' q) m' := by
  have hpos : 0 < R p := by omega
  obtain ⟨hlo, hhi⟩ := h.managed hpos
  have hcnt := h.counted.count p
  unfold kfree
  rw [read_bind, if_neg (by omega), if_neg (by rintro ⟨-, h0⟩; omega)]
  by_cases h1 : 1 < m.refcnt p
  · rw [if_pos h1]
    have hc := h.counted.unshare (by omega) hp hq
    rw [← hcnt] at hc
    exact ⟨⟨hc, h.free, h.total, h.ready⟩, ⟨rfl, fun _ _ => rfl, id⟩⟩
  · rw [if_neg h1]
    refine ⟨⟨h.counted.give (by omega) (by omega) hq, ?_, h.total, h.ready⟩,
      ⟨rfl, fun q hpos' => ?_, id⟩⟩
    · show m.freePages + 1 = (p :: m.freelist).length
      rw [List.length_cons, h.free]
    · show update m.ram p (fun _ => 1) q = m.ram q
      rw [update_of_ne]
      rintro rfl
      omega

/-- **`kaddref`** of a page in use adds a reference, as long as 16 bits hold the count. -/
theorem kaddref_sat (h : m.Exact R) {R' : Nat → Nat} (h1 : 0 < R p) (h16 : R p + 1 < 2 ^ 16)
    (hp : R' p = R p + 1) (hq : ∀ q, q ≠ p → R' q = R q) :
    (kaddref p m).Returns fun r m' => 0 ≤ r ∧ m'.Exact R' ∧ m'.first = m.first ∧ m'.ram = m.ram ∧
        m'.oomWarned = m.oomWarned ∧ m'.freelist = m.freelist := by
  obtain ⟨hlo, hhi⟩ := h.managed h1
  have hcnt := h.counted.count p
  unfold kaddref
  rw [read_bind, if_neg (by omega), if_neg (by omega)]
  have hmod : (m.refcnt p + 1) % 2 ^ 16 = R p + 1 := by
    rw [hcnt]
    exact Nat.mod_eq_of_lt h16
  refine ⟨Int.natCast_nonneg _, ⟨?_, h.free, h.total, h.ready⟩, rfl, rfl, rfl, rfl⟩
  show Counted m.Managed m.freelist
    (update m.refcnt p ((m.refcnt p + 1) % 2 ^ 16)) R'
  rw [hmod]
  exact h.counted.share h1 hp hq

theorem memset_sat (p : Nat) (c : UInt8) (m : Mem) (E : Panic → Mem → Prop) :
    (memset p c m).Sat (fun _ m' => m' = { m with ram := update m.ram p fun _ => c }) E :=
  rfl

end Specs

/-! ## 4. Boot -/

/-- The records while `freerange` runs: the pages below `q` are on the free list. -/
structure Mem.Filling (m : Mem) (lo q : Nat) : Prop where
  first : m.first = lo
  nodup : m.freelist.Nodup
  free : ∀ p, p ∈ m.freelist ↔ lo ≤ p ∧ p < q
  refcnt : m.refcnt = fun _ => 0
  freePages : m.freePages = m.freelist.length
  total : m.totalPages = q - lo
  ready : m.ready = false
  oom : m.oomWarned = false

theorem freerange_filling (n : Nat) {first q : Nat} {m : Mem} (h : m.Filling first q)
    (hq : first ≤ q) (hn : q + n ≤ NPAGE) :
    (freerange n q m).Returns fun _ m' => m'.Filling first (q + n) := by
  induction n generalizing q m with
  | zero => exact h
  | succ n ih =>
    unfold freerange
    rw [update_bind]
    have hnot : q ∉ m.freelist := fun hin => by
      have := ((h.free q).mp hin).2
      omega
    -- with `ready` still 0 and the count 0, the page goes straight to the free list
    have hrun : kfree q { m with totalPages := m.totalPages + 1 } =
        .ok () (({ m with totalPages := m.totalPages + 1 } : Mem).release q) := by
      unfold kfree
      rw [read_bind]
      have h1 : ¬ (q < m.first ∨ NPAGE ≤ q) := by
        rw [h.first]
        omega
      rw [if_neg h1, if_neg (by rw [h.ready]; simp), if_neg (by rw [h.refcnt]; simp)]
      rfl
    rw [bind_ok hrun]
    have e : q + (n + 1) = q + 1 + n := by omega
    rw [e]
    refine ih ⟨h.first, List.nodup_cons.mpr ⟨hnot, h.nodup⟩, fun p => ?_, ?_, ?_, ?_, h.ready,
      h.oom⟩ (by omega) (by omega)
    · show p ∈ q :: m.freelist ↔ _
      rw [List.mem_cons, h.free]
      omega
    · show update m.refcnt q 0 = _
      rw [h.refcnt]
      exact update_eq_self q _
    · show m.freePages + 1 = (q :: m.freelist).length
      rw [List.length_cons, h.freePages]
    · show m.totalPages + 1 = q + 1 - first
      rw [h.total]
      omega

/-- **After `kinit` every managed page is free and the records are exact.** -/
theorem kinit_exact {first : Nat} (hf : first ≤ NPAGE) (ram : Nat → Store) (m : Mem) :
    (kinit first ram m).Returns
      fun _ m' => m'.Exact (fun _ => 0) ∧ m'.first = first ∧ m'.oomWarned = false := by
  unfold kinit
  rw [update_bind]
  have h0 : Mem.Filling
      { first := first, freelist := [], refcnt := fun _ => 0, totalPages := 0, freePages := 0,
        lowWarned := false, critWarned := false, oomWarned := false, ready := false, ram := ram }
      first first :=
    ⟨rfl, List.nodup_nil, fun p => by simp, rfl, rfl, by simp, rfl, rfl⟩
  refine (freerange_filling (NPAGE - first) h0 (Nat.le_refl _) (by omega)).bind
    fun _ m' h => ?_
  have e : first + (NPAGE - first) = NPAGE := by omega
  rw [e] at h
  refine ⟨⟨⟨h.nodup, fun p => ?_, fun p => ?_, fun p hp => absurd hp (by simp)⟩, h.freePages,
    ?_, rfl⟩, h.first, h.oom⟩
  · show p ∈ m'.freelist ↔ (m'.first ≤ p ∧ p < NPAGE) ∧ (0 : Nat) = 0
    rw [h.free, h.first]
    simp
  · show m'.refcnt p = 0
    rw [h.refcnt]
  · show m'.totalPages = NPAGE - m'.first
    rw [h.total, h.first]

end HaiOS.Vm
