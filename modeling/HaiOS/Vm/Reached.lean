/-
  File:      HaiOS/Vm/Reached.lean
  Subject:   WHAT HOLDS IN EVERY STATE THAT IS REACHED, read off `sysOk_reached`.

  * `PagesAccounted`, `pages_accounted` -- the free list, the counts and the owners of every page;
  * `SpacesBounded`, `spaces_bounded` -- the bounds of every address space, and that no call stops
    for a page mapped twice or left mapped;
  * `cow_refines` -- without a shortage, runs of the kernel are runs of the private system.
-/
import HaiOS.Vm.Eager

namespace HaiOS.Vm

open Lib Lib.Routine

/-! ## 1. A small machine -/

/-- The memory before the boot. -/
def blank : Sys where
  mem :=
    { first := 0, freelist := [], refcnt := fun _ => 0, totalPages := 0, freePages := 0,
      lowWarned := false, critWarned := false, oomWarned := false, ready := false, ram := fun _ _ => 0 }
  proc := fun _ => .unused
  nextpid := 1
  initproc := ⟨0, by decide⟩
  pipes := []
  kernel := []
  trampoline := 0

/-- A machine that has 15 pages at boot. -/
def small : Sys := (boot (NPAGE - 15) 0 0 (fun _ _ => 0) blank).last

theorem booted_small : Booted small :=
  booted_last (Nat.sub_le _ _) (by decide) _ _ _

variable {l : List (Fin NPROC × Op)}

theorem reached_after {s : Sys} (h : after perform small l = some s) :
    Reached s := by
  obtain ⟨l', hrun, -⟩ := calls_of_after h
  exact ⟨small, l', booted_small, hrun⟩

/-- The slot has a process that passes a test. -/
def Slot.test (x : Slot) (q : Proc → Bool) : Bool :=
  match x with
  | .used p => q p
  | _ => false

/-- The first process of the small machine after some calls, when both pass a test. -/
theorem small_reaches {q : Sys → Proc → Bool}
    (h : ((after perform small l).any fun s => (s.proc small.initproc).test (q s)) = true) :
    ∃ s p, Reached s ∧ s.proc small.initproc = .used p ∧ q s p = true := by
  obtain ⟨s, hs, ht⟩ := (Option.any_eq_true _ _).mp h
  cases hp : s.proc small.initproc with
  | used p =>
    rw [hp] at ht
    exact ⟨s, p, reached_after hs, hp, ht⟩
  | unused =>
    rw [hp] at ht
    cases ht
  | zombie p =>
    rw [hp] at ht
    cases ht

/-! ## 2. Pages -/

namespace Sys

/-- The entries of user ranges that map page `p`. -/
def mappers (s : Sys) (p : Nat) : Nat := userRefs (tables s.proc) p

/-- The holds of the kernel on page `p`: as a page of a page table, a trap frame, a pipe, or a page
    that it took at boot. -/
def holders (s : Sys) (p : Nat) : Nat := kernRefs (tables s.proc) (frames s.proc ++ s.held) p

end Sys

/-- **Every page is accounted for.** -/
structure PagesAccounted (s : Sys) : Prop where
  nodup : s.mem.freelist.Nodup
  free : ∀ p, p ∈ s.mem.freelist ↔ s.mem.Managed p ∧ s.mem.refcnt p = 0
  freePages : s.mem.freePages = s.mem.freelist.length
  total : s.mem.freePages ≤ s.mem.totalPages
  /-- a page in use is the kernel's, once, or it has as many references as entries that map it -/
  owners : ∀ p, s.mem.refcnt p ≠ 0 →
    s.mem.refcnt p = 1 ∧ s.holders p = 1 ∧ s.mappers p = 0 ∨
      s.mem.refcnt p = s.mappers p ∧ s.holders p = 0
  unused : ∀ p, s.mem.refcnt p = 0 → s.holders p = 0 ∧ s.mappers p = 0
  sole : ∀ i q, (s.proc i).proc? = some q → ∀ v < USERVPN, ∀ e, q.pagetable.leaf v = some e →
    e.flags.w = true → s.mem.refcnt e.ppn ≤ 1
  /-- far from the end of its 16 bits, also with one reference more -/
  small : ∀ p, s.mem.refcnt p ≤ NPROC
  /-- no call finds a page freed twice, or any other fault -/
  quiet : ∀ c e s', perform c s = .fail e s' → e = .initExiting

theorem quiet_of_ok {s : Sys} (h : SysOk s) (c : Fin NPROC × Op) (e : Panic) (s' : Sys)
    (hc : perform c s = .fail e s') : e = .initExiting := by
  have hsat := perform_sat h c
  rw [hc] at hsat
  exact hsat

/-- **The page accounts are exact in every state that is reached.** -/
theorem pages_accounted {s : Sys} (h : Reached s) : PagesAccounted s := by
  have hok := sysOk_reached h
  have hx := hok.inv.exact
  have hcount : ∀ p, s.mem.refcnt p = s.holders p + s.mappers p := hx.counted.count
  have hheld : ∀ p, 0 < s.holders p → s.holders p + s.mappers p = 1 := hok.inv.held
  refine ⟨hx.counted.nodup, fun p => ?_, hx.free, hx.free_le, fun p hp => ?_, fun p hp => ?_,
    fun i q hq v hv e he hw => ?_, fun p => ?_, quiet_of_ok hok⟩
  · rw [hx.counted.free, hx.counted.count]
  · have h1 := hcount p
    rcases Nat.eq_zero_or_pos (s.holders p) with h0 | h0
    · exact Or.inr ⟨by omega, h0⟩
    · have h2 := hheld p h0
      exact Or.inl ⟨by omega, by omega, by omega⟩
  · have h1 := hcount p
    exact ⟨by omega, by omega⟩
  · have hmem : q.pagetable ∈ tables s.proc := mem_gather.mpr ⟨i, by rw [hq]; rfl⟩
    rw [hx.counted.count]
    exact Nat.le_of_eq (hok.inv.sole _ hmem v hv e he hw)
  · have h1 := hcount p
    have h2 : s.mappers p ≤ (tables s.proc).length := userRefs_le_length hok.inv.wf p
    have h3 : (tables s.proc).length ≤ NPROC := length_gather_le _ _
    rcases Nat.eq_zero_or_pos (s.holders p) with h0 | h0
    · omega
    · rw [h1, hheld p h0]
      decide

/-- A page, a fork, and a second fork, which runs out of pages half way: the page has two mappers. -/
theorem pages_accounted_shared : ∃ s p e, s.proc small.initproc = .used p ∧
    p.pagetable.leaf 0 = some e ∧ s.mem.refcnt e.ppn = 2 ∧ s.mem.oomWarned = true ∧
    PagesAccounted s := by
  have hrun : ((after perform small [(small.initproc, .sbrk 4096 true), (small.initproc, .fork),
      (small.initproc, .fork)]).any fun s => (s.proc small.initproc).test fun p =>
        (p.pagetable.leaf 0).any fun e => s.mem.refcnt e.ppn == 2 && s.mem.oomWarned) = true := by
    decide +kernel
  obtain ⟨s, p, hs, hp, hq⟩ := small_reaches hrun
  obtain ⟨e, he, hq⟩ := (Option.any_eq_true _ _).mp hq
  rw [Bool.and_eq_true, beq_iff_eq] at hq
  exact ⟨s, p, e, hp, he, hq.1, hq.2, pages_accounted hs⟩

/-! ## 3. Address spaces -/

/-- **Every address space keeps its bounds.** -/
structure SpacesBounded (s : Sys) : Prop where
  size : ∀ i p, (s.proc i).proc? = some p → p.sz ≤ TRAPFRAME
  /-- apart from the trampoline and the trap frame only pages below the break are mapped -/
  below : ∀ i p, (s.proc i).proc? = some p → ∀ v e, p.pagetable.leaf v = some e →
    v * PGSIZE < pgroundup p.sz ∨ v * PGSIZE = TRAPFRAME ∨ v * PGSIZE = TRAMPOLINE
  /-- no page is mapped over another -/
  remap : ∀ c s', perform c s ≠ .fail .mappagesRemap s'
  /-- nothing is left mapped in a table that is freed -/
  freewalk : ∀ c s', perform c s ≠ .fail .freewalkLeaf s'

/-- **The address spaces are bounded in every state that is reached.** -/
theorem spaces_bounded {s : Sys} (h : Reached s) : SpacesBounded s := by
  have hok := sysOk_reached h
  refine ⟨fun i p hp => (hok.ok i p hp).size, fun i p hp v e he => ?_, fun c s' hc => ?_, fun c s' hc => ?_⟩
  · have hfit := hok.ok i p hp
    rw [pgroundup_eq hfit.size, TRAPFRAME_eq, TRAMPOLINE_eq]
    rcases hfit.below v (by rw [he]; exact Option.some_ne_none e) with hlt | rfl | rfl
    · exact Or.inl (Nat.mul_lt_mul_of_pos_right hlt (by decide))
    · exact Or.inr (Or.inl rfl)
    · exact Or.inr (Or.inr rfl)
  · cases quiet_of_ok hok c _ s' hc
  · cases quiet_of_ok hok c _ s' hc

/-- Growth without pages and with pages, neither by a multiple of PGSIZE, a store to a page that is
    not there yet, and a shrink. -/
theorem spaces_bounded_shrunk : ∃ s p, s.proc small.initproc = .used p ∧ p.sz = 900 ∧
    (p.pagetable.leaf 0).isSome ∧ SpacesBounded s := by
  have hrun : ((after perform small [(small.initproc, .sbrk 100 false),
      (small.initproc, .sbrk 5000 true), (small.initproc, .store 50 7),
      (small.initproc, .sbrk (-4200) true)]).any fun s => (s.proc small.initproc).test fun p =>
        p.sz == 900 && (p.pagetable.leaf 0).isSome) = true := by
    decide +kernel
  obtain ⟨s, p, hs, hp, hq⟩ := small_reaches hrun
  rw [Bool.and_eq_true, beq_iff_eq] at hq
  exact ⟨s, p, hp, hq.1, hq.2, spaces_bounded hs⟩

/-! ## 4. Copy-on-write -/

/-- The same state with no shortage on record: the record decides whether the kernel prints a
    warning, and nothing else reads it. -/
def Sys.calm (s : Sys) : Sys := { s with mem := { s.mem with oomWarned := false } }

theorem SysOk.calm {s : Sys} (h : SysOk s) : SysOk s.calm :=
  ⟨h.inv.setMem ⟨h.inv.exact.counted, h.inv.exact.free, h.inv.exact.total, h.inv.exact.ready⟩, h.ok⟩

/-- **Copy-on-write is invisible**: from any state that is reached, a run of calls in which no
    allocation fails is a run of the system in which fork copies every page at once, with the same
    answers, and every process ends with the memory it has there. -/
theorem cow_refines {s0 s : Sys} {l : List ((Fin NPROC × Op) × Ans)} (h : Reached s0)
    (hrun : Calls perform s0.calm l s) (hmem : s.mem.oomWarned = false) :
    SpecRun Eager.Serves (view s0) l (view s) := by
  have hall : SysOk s ∧ (s.mem.oomWarned = false → SpecRun Eager.Serves (view s0) l (view s)) := by
    clear hmem
    induction hrun with
    | nil => exact ⟨(sysOk_reached h).calm, fun _ => .nil (view s0)⟩
    | @snoc s1 s2 l c a _ hc ih =>
      obtain ⟨hok, hrun1⟩ := ih
      have hstep := (perform_sat hok c).of_ok hc
      refine ⟨hstep.ok, fun ho => ?_⟩
      have ho1 : s1.mem.oomWarned = false := Bool.eq_false_iff.mpr fun e =>
        Bool.eq_false_iff.mp ho (hstep.oom e)
      exact (hrun1 ho1).snoc (hstep.serves ho)
  exact hall.2 hmem

/-- A page, a fork, a store by the child, a load by the parent. -/
theorem cow_refines_small : ∃ l s, l.map Prod.fst =
      [(small.initproc, .sbrk 4096 true), (small.initproc, .fork), (⟨1, by decide⟩, .store 0 7),
        (small.initproc, .load 0)] ∧
    Calls perform small.calm l s ∧ s.mem.oomWarned = false ∧
    SpecRun Eager.Serves (view small) l (view s) := by
  have hafter : (after perform small.calm
      [(small.initproc, .sbrk 4096 true), (small.initproc, .fork), (⟨1, by decide⟩, .store 0 7),
        (small.initproc, .load 0)]).map (·.mem.oomWarned) = some false := by decide +kernel
  obtain ⟨s, hs, ho⟩ := Option.map_eq_some_iff.mp hafter
  obtain ⟨l, hrun, hl⟩ := calls_of_after hs
  exact ⟨l, s, hl, hrun, ho, cow_refines (reached_after (l := []) rfl) hrun ho⟩

end HaiOS.Vm
