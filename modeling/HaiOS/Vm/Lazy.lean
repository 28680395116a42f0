/-
  File:      HaiOS/Vm/Lazy.lean
  Subject:   LAZY AND EAGER GROWTH LOOK THE SAME to the processes that use them.

  * `Priv.Same` -- two memories with the same break that differ only in whether a page of zeros is
    there already;
  * `Same.touch`, `Same.sbrk`, `Same.copyin`, `Same.copyout` -- operations below the break answer the
    same on both, and leave them the same;
  * `Eager.Same`, `Same.serves` -- the same for the system of private memories, call by call;
  * `Twin`, `lazy_like_eager` -- two runs of the kernel whose calls differ in nothing but the flag of
    `sbrk` answer the same.
-/
import HaiOS.Vm.Reached

namespace HaiOS.Vm

open Lib Lib.Routine Function

/-! ## 1. Memories -/

namespace Priv

/-- What a page below the break holds, or will hold when it is touched. -/
def cellAt (a : Priv) (v : Nat) : Cell := (a.page v).getD Cell.zero

/-- **The same memory, up to pages of zeros that are not there yet.** -/
structure Same (a b : Priv) : Prop where
  sz : a.sz = b.sz
  cell : ∀ v < pages a.sz, a.cellAt v = b.cellAt v

/-- Nothing is mapped from the break on. -/
def Tight (a : Priv) : Prop := ∀ v, pages a.sz ≤ v → a.page v = none

section

variable {a b : Priv} {va : Nat}

theorem page_lt_pages (h : va < a.sz) : va / PGSIZE < pages a.sz := by
  rw [pages_eq]
  show va / 4096 < _
  omega

/-- A fault makes the page there, with what it was to hold. -/
theorem fault_page (h : va < a.sz) : (a.fault va).page (va / PGSIZE) = some (a.cellAt (va / PGSIZE)) := by
  unfold fault cellAt
  cases hp : a.page (va / PGSIZE) with
  | none =>
    rw [if_pos ⟨h, rfl⟩]
    exact update_self ..
  | some c =>
    rw [if_neg (fun hc => nomatch hc.2), hp]
    rfl

theorem fault_sz (a : Priv) (va : Nat) : (a.fault va).sz = a.sz := by
  unfold fault
  split <;> rfl

theorem fault_at (a : Priv) (va v : Nat) : (a.fault va).cellAt v = a.cellAt v := by
  unfold fault
  split
  · rename_i h
    show (update a.page (va / PGSIZE) (some Cell.zero) v).getD Cell.zero = a.cellAt v
    rcases eq_or_ne v (va / PGSIZE) with rfl | hv
    · rw [update_self, cellAt, h.2]
      rfl
    · rw [update_of_ne hv]
      rfl
  · rfl

theorem Same.refl (a : Priv) : Same a a := ⟨rfl, fun _ _ => rfl⟩

theorem Same.fault (h : Same a b) (va : Nat) : Same (a.fault va) (b.fault va) := by
  refine ⟨by rw [fault_sz, fault_sz, h.sz], fun v hv => ?_⟩
  rw [fault_sz] at hv
  rw [fault_at, fault_at, h.cell v hv]

/-- The same answer, and the same memory after it. -/
def Alike {α : Type} (r r' : α × Priv) : Prop := r.1 = r'.1 ∧ Same r.2 r'.2

/-- **An access below the break.** -/
theorem Same.touch (h : Same a b) (write : Bool) (hva : va < a.sz) :
    Alike (a.touch write va) (b.touch write va) := by
  refine ⟨?_, h.fault va⟩
  show (a.fault va).find write va = (b.fault va).find write va
  unfold find
  rw [fault_page hva, fault_page (h.sz ▸ hva), h.cell _ (page_lt_pages hva)]

theorem Alike.split {α : Type} {r r' : α × Priv} (h : Alike r r') :
    ∃ o a b, r = (o, a) ∧ r' = (o, b) ∧ Same a b := by
  obtain ⟨o, a⟩ := r
  obtain ⟨o', b⟩ := r'
  obtain ⟨h1, h2⟩ := h
  dsimp only at h1 h2
  exact ⟨o, a, b, rfl, by rw [h1], h2⟩

theorem touch_sz (a : Priv) (write : Bool) (va : Nat) : (a.touch write va).2.sz = a.sz := fault_sz a va

theorem Same.setPage (h : Same a b) (v : Nat) (c : Cell) : Same (a.setPage v c) (b.setPage v c) := by
  refine ⟨h.sz, fun v' hv' => ?_⟩
  show (update a.page v (some c) v').getD Cell.zero =
    (update b.page v (some c) v').getD Cell.zero
  rcases eq_or_ne v' v with rfl | hne
  · rw [update_self, update_self]
  · rw [update_of_ne hne, update_of_ne hne]
    exact h.cell v' hv'

theorem Same.load (h : Same a b) (hva : va < a.sz) : Alike (a.load va) (b.load va) := by
  obtain ⟨o, a', b', ha, hb, hs⟩ := (h.touch false hva).split
  unfold Priv.load
  rw [ha, hb]
  cases o with
  | none => exact ⟨rfl, hs⟩
  | some c => exact ⟨rfl, hs⟩

theorem Same.store (h : Same a b) (x : UInt8) (hva : va < a.sz) :
    Alike (a.store va x) (b.store va x) := by
  obtain ⟨o, a', b', ha, hb, hs⟩ := (h.touch true hva).split
  unfold Priv.store
  rw [ha, hb]
  cases o with
  | none => exact ⟨rfl, hs⟩
  | some c => exact ⟨rfl, hs.setPage _ _⟩

/-- The next page of a range below the break is below the break. -/
theorem next_range {d len n sz : Nat} (h : ∀ k < len, d + k < sz) (hn : n = min (PGSIZE - d % PGSIZE) len)
    (k : Nat) (hk : k < len - n) : d / PGSIZE * PGSIZE + PGSIZE + k < sz := by
  have hP : PGSIZE = 4096 := rfl
  rw [hP] at hn ⊢
  have := h (n + k) (by omega)
  omega

variable {d len : Nat}

theorem Same.copyoutLoop (k : Nat) (h : Same a b) {src : List UInt8}
    (hr : ∀ j < src.length, d + j < a.sz) :
    Alike (a.copyoutLoop k d src) (b.copyoutLoop k d src) := by
  induction k generalizing a b d src with
  | zero => exact ⟨rfl, h⟩
  | succ k ih =>
    unfold Priv.copyoutLoop
    by_cases hnil : src = []
    · rw [if_pos hnil, if_pos hnil]
      exact ⟨rfl, h⟩
    · rw [if_neg hnil, if_neg hnil]
      have hpos : 0 < src.length := List.length_pos_iff.mpr hnil
      have hva : d / PGSIZE * PGSIZE < a.sz :=
        Nat.lt_of_le_of_lt (Nat.div_mul_le_self d PGSIZE) (hr 0 hpos)
      have hsz := touch_sz a true (d / PGSIZE * PGSIZE)
      obtain ⟨o, a', b', ha, hb, hs⟩ := (h.touch true hva).split
      rw [ha] at hsz
      rw [ha, hb]
      cases o with
      | none => exact ⟨rfl, hs⟩
      | some c =>
        refine ih (hs.setPage _ _) fun j hj => ?_
        rw [List.length_drop] at hj
        show _ < a'.sz
        rw [hsz]
        exact next_range hr rfl j hj

theorem Same.copyout (h : Same a b) {src : List UInt8} (hr : ∀ j < src.length, d + j < a.sz) :
    Alike (a.copyout d src) (b.copyout d src) :=
  h.copyoutLoop _ hr

theorem Same.copyinLoop (k : Nat) (h : Same a b) {dst : List UInt8} (hr : ∀ j < len, d + j < a.sz) :
    Alike (a.copyinLoop k d len dst) (b.copyinLoop k d len dst) := by
  induction k generalizing a b d len dst with
  | zero => exact ⟨rfl, h⟩
  | succ k ih =>
    unfold Priv.copyinLoop
    by_cases hnil : len = 0
    · rw [if_pos hnil, if_pos hnil]
      exact ⟨rfl, h⟩
    · rw [if_neg hnil, if_neg hnil]
      have hva : d / PGSIZE * PGSIZE < a.sz :=
        Nat.lt_of_le_of_lt (Nat.div_mul_le_self d PGSIZE) (hr 0 (Nat.pos_of_ne_zero hnil))
      have hsz := touch_sz a false (d / PGSIZE * PGSIZE)
      obtain ⟨o, a', b', ha, hb, hs⟩ := (h.touch false hva).split
      rw [ha] at hsz
      rw [ha, hb]
      cases o with
      | none => exact ⟨rfl, hs⟩
      | some c =>
        refine ih hs fun j hj => ?_
        rw [show a'.sz = a.sz from hsz]
        exact next_range hr rfl j hj

theorem Same.copyin (h : Same a b) (hr : ∀ j < len, d + j < a.sz) :
    Alike (a.copyin d len) (b.copyin d len) :=
  h.copyinLoop _ hr

theorem Same.report (h : Same a b) {addr : Nat} (x : Int) (hr : addr ≠ 0 → ∀ j < 4, addr + j < a.sz) :
    Alike (a.report addr x) (b.report addr x) := by
  unfold Priv.report
  by_cases h0 : addr = 0
  · rw [if_pos h0, if_pos h0]
    exact ⟨rfl, h⟩
  · rw [if_neg h0, if_neg h0]
    refine h.copyout ?_
    rw [length_le]
    exact hr h0

/-- A page below a break that rose: what was there, or zeros. -/
theorem cellAt_risen (ha : a.Tight) {newsz v : Nat} (e : Bool) (hv : v < pages newsz) :
    (if e = true then a.grow newsz else { a with sz := newsz }).cellAt v =
      if pages a.sz ≤ v then Cell.zero else a.cellAt v := by
  by_cases hle : pages a.sz ≤ v
  · rw [if_pos hle]
    cases e with
    | true =>
      show (if pages a.sz ≤ v ∧ v < pages newsz then some Cell.zero else a.page v).getD Cell.zero = _
      rw [if_pos ⟨hle, hv⟩]
      rfl
    | false =>
      show (a.page v).getD Cell.zero = _
      rw [ha v hle]
      rfl
  · rw [if_neg hle]
    cases e with
    | true =>
      show (if pages a.sz ≤ v ∧ v < pages newsz then some Cell.zero else a.page v).getD Cell.zero = _
      rw [if_neg fun hc => hle hc.1]
      rfl
    | false => rfl

theorem sz_risen (a : Priv) (newsz : Nat) (e : Bool) :
    (if e = true then a.grow newsz else { a with sz := newsz }).sz = newsz := by
  cases e <;> rfl

/-- **The break moves**, whichever way it grows. -/
theorem Same.sbrk (h : Same a b) (ha : a.Tight) (hb : b.Tight) (n : Int) (e e' : Bool) :
    Alike (a.sbrk n e) (b.sbrk n e') := by
  by_cases h0 : 0 ≤ n
  · by_cases hT : TRAPFRAME < addInt a.sz n
    · rw [sbrk_refused h0 hT, sbrk_refused h0 (h.sz ▸ hT)]
      exact ⟨rfl, h⟩
    · have hT := Nat.not_lt.mp hT
      rw [sbrk_rise h0 hT, sbrk_rise h0 (h.sz ▸ hT), ← h.sz]
      refine ⟨rfl, ?_, fun v hv => ?_⟩
      · show Priv.sz (if e = true then _ else _) = Priv.sz (if e' = true then _ else _)
        rw [sz_risen, sz_risen]
      · have hv : v < Vm.pages (addInt a.sz n) := by
          rw [← sz_risen a (addInt a.sz n) e]
          exact hv
        rw [cellAt_risen ha e hv, cellAt_risen hb e' hv, ← h.sz]
        split
        · rfl
        · exact h.cell v (Nat.not_le.mp ‹_›)
  · have h0 := Int.not_le.mp h0
    rw [sbrk_fall h0, sbrk_fall h0, ← h.sz]
    refine ⟨rfl, ?_⟩
    split
    · rename_i hlt
      refine ⟨rfl, fun v hv => ?_⟩
      have hv : v < pages (addInt a.sz n) := hv
      have hcut : ¬ pages (addInt a.sz n) ≤ v := Nat.not_le.mpr hv
      show (if _ then none else a.page v).getD Cell.zero = (if _ then none else b.page v).getD Cell.zero
      rw [if_neg fun hc => hcut hc.1, if_neg fun hc => hcut hc.1]
      exact h.cell v (Nat.lt_of_lt_of_le hv (pages_mono (Nat.le_of_lt hlt)))
    · exact h

end

end Priv

/-! ## 2. Systems -/

/-- The same process, up to its memory. -/
structure Owner.Same (p q : Owner) : Prop where
  pid : p.pid = q.pid
  parent : p.parent = q.parent
  xstate : p.xstate = q.xstate
  priv : p.priv.Same q.priv

theorem Owner.Same.symm {p q : Owner} (h : p.Same q) : q.Same p :=
  ⟨h.pid.symm, h.parent.symm, h.xstate.symm, h.priv.sz.symm, fun v hv =>
    (h.priv.cell v (by rw [h.priv.sz]; exact hv)).symm⟩

inductive Seat.Same : Seat → Seat → Prop where
  | empty : Seat.Same .empty .empty
  | alive {p q : Owner} (h : p.Same q) : Seat.Same (.alive p) (.alive q)
  | dead {p q : Owner} (h : p.Same q) : Seat.Same (.dead p) (.dead q)

namespace Eager

/-- **The same system, up to pages of zeros that are not there yet.** -/
structure Same (x y : Eager) : Prop where
  seat : ∀ k, (x.seat k).Same (y.seat k)
  nextpid : x.nextpid = y.nextpid
  initproc : x.initproc = y.initproc

/-- No process has anything mapped from its break on. -/
def Tight (x : Eager) : Prop := ∀ k p, x.seat k = .alive p → p.priv.Tight

section

variable {x y : Eager} {i k : Fin NPROC} {p q : Owner}

theorem Same.put (h : Same x y) {u w : Seat} (hu : u.Same w) : Same (x.put i u) (y.put i w) := by
  refine ⟨fun k => ?_, h.nextpid, h.initproc⟩
  show (update x.seat i u k).Same (update y.seat i w k)
  rcases eq_or_ne k i with rfl | hk
  · rw [update_self, update_self]
    exact hu
  · rw [update_of_ne hk, update_of_ne hk]
    exact h.seat k

theorem Same.alive (h : Same x y) (hx : x.seat i = .alive p) : ∃ q, y.seat i = .alive q ∧ p.Same q := by
  have hs := h.seat i
  rw [hx] at hs
  generalize hy : y.seat i = w at hs
  cases hs with
  | alive hpq => exact ⟨_, rfl, hpq⟩

theorem Same.refl (x : Eager) : Same x x := by
  refine ⟨fun k => ?_, rfl, rfl⟩
  cases x.seat k with
  | empty => exact .empty
  | alive p => exact .alive ⟨rfl, rfl, rfl, Priv.Same.refl _⟩
  | dead p => exact .dead ⟨rfl, rfl, rfl, Priv.Same.refl _⟩

theorem Same.symm (h : Same x y) : Same y x := by
  refine ⟨fun k => ?_, h.nextpid.symm, h.initproc.symm⟩
  have hs := h.seat k
  generalize x.seat k = u, y.seat k = w at hs
  cases hs with
  | empty => exact .empty
  | alive hpq => exact .alive hpq.symm
  | dead hpq => exact .dead hpq.symm

theorem Same.firstEmpty (h : Same x y) : x.firstEmpty = y.firstEmpty := by
  unfold Eager.firstEmpty
  congr 1
  funext k
  have hs := h.seat k
  generalize x.seat k = u, y.seat k = w at hs
  cases hs <;> rfl

theorem Same.hasKids (h : Same x y) (i : Fin NPROC) : x.hasKids i = y.hasKids i := by
  unfold Eager.hasKids
  congr 1
  funext k
  have hs := h.seat k
  generalize x.seat k = u, y.seat k = w at hs
  cases hs with
  | empty => rfl
  | alive hpq => simp only [hpq.parent]
  | dead hpq => simp only [hpq.parent]

/-- A scan finds alike where it looks alike. -/
theorem findSome?_rel {α β γ : Type} {R : β → γ → Prop} {f : α → Option β} {g : α → Option γ}
    (h : ∀ k, Option.Rel R (f k) (g k)) (l : List α) : Option.Rel R (l.findSome? f) (l.findSome? g) := by
  induction l with
  | nil => exact .none
  | cons k l ih =>
    rw [List.findSome?_cons, List.findSome?_cons]
    have hk := h k
    generalize f k = u, g k = w at hk
    cases hk with
    | some hr => exact .some hr
    | none => exact ih

theorem Same.deadChild (h : Same x y) (i : Fin NPROC) :
    Option.Rel (fun r r' => r.1 = r'.1 ∧ r.2.Same r'.2) (x.deadChild i) (y.deadChild i) := by
  refine findSome?_rel (fun k => ?_) _
  have hs := h.seat k
  generalize x.seat k = u, y.seat k = w at hs
  cases hs with
  | empty => exact .none
  | alive hpq => exact .none
  | @dead p q hpq =>
    dsimp only
    rw [hpq.parent]
    split
    · exact .some ⟨rfl, hpq⟩
    · exact .none

theorem Owner.Same.setPriv (h : p.Same q) {a b : Priv} (hab : a.Same b) :
    Owner.Same { p with priv := a } { q with priv := b } :=
  ⟨h.pid, h.parent, h.xstate, hab⟩

theorem Same.own {α : Type} (h : Same x y) (hp : p.Same q) {r r' : α × Priv} (hr : Priv.Alike r r') :
    (x.own i p r).1 = (y.own i q r').1 ∧ Same (x.own i p r).2 (y.own i q r').2 :=
  ⟨hr.1, h.put (.alive (Owner.Same.setPriv hp hr.2))⟩

theorem Same.fork (h : Same x y) (hp : p.Same q) (i : Fin NPROC) :
    (x.fork i p).1 = (y.fork i q).1 ∧ Same (x.fork i p).2 (y.fork i q).2 := by
  unfold Eager.fork
  rw [← h.firstEmpty, ← h.nextpid]
  cases x.firstEmpty with
  | none => exact ⟨rfl, h⟩
  | some j =>
    have hput := h.put (i := j) (.alive ⟨rfl, rfl, rfl, hp.priv⟩ :
      (Seat.alive ⟨x.nextpid, some i, 0, p.priv⟩).Same (.alive ⟨x.nextpid, some i, 0, q.priv⟩))
    exact ⟨rfl, hput.seat, rfl, hput.initproc⟩

theorem Same.adopt (h : Same x y) (hp : p.Same q) (i : Fin NPROC) : (x.adopt i p).Same (y.adopt i q) := by
  unfold Eager.adopt
  rw [hp.parent, h.initproc]
  split
  · exact ⟨hp.pid, rfl, hp.xstate, hp.priv⟩
  · exact hp

theorem Same.exit (h : Same x y) (i : Fin NPROC) (status : Int) : Same (x.exit i status) (y.exit i status) := by
  refine ⟨fun k => ?_, h.nextpid, h.initproc⟩
  have hs := h.seat k
  unfold Eager.exit
  dsimp only
  generalize x.seat k = u, y.seat k = w at hs
  cases hs with
  | empty => exact .empty
  | dead hpq => exact .dead (h.adopt hpq i)
  | alive hpq =>
    have ha := h.adopt hpq i
    dsimp only
    split
    · exact .dead ⟨ha.pid, ha.parent, rfl, ha.priv⟩
    · exact .alive ha

theorem Same.wait (h : Same x y) (hp : p.Same q) {addr : Nat}
    (hr : addr ≠ 0 → ∀ j < 4, addr + j < p.priv.sz) (i : Fin NPROC) :
    (x.wait i p addr).1 = (y.wait i q addr).1 ∧ Same (x.wait i p addr).2 (y.wait i q addr).2 := by
  unfold Eager.wait
  have hd := h.deadChild i
  generalize x.deadChild i = u, y.deadChild i = w at hd
  cases hd with
  | none =>
    rw [h.hasKids]
    exact ⟨rfl, h⟩
  | @some r r' hr' =>
    obtain ⟨k, c⟩ := r
    obtain ⟨k', c'⟩ := r'
    obtain ⟨hk, hc⟩ := hr'
    dsimp only at hk hc ⊢
    rw [← hk, ← hc.xstate, ← hc.pid]
    obtain ⟨o, a, b, ha, hb, hs⟩ := (hp.priv.report c.xstate hr).split
    rw [ha, hb]
    have hput := h.put (i := i) (.alive (Owner.Same.setPriv hp hs))
    cases o with
    | false => exact ⟨rfl, hput⟩
    | true => exact ⟨rfl, hput.put .empty⟩

end

end Eager

/-! ## 3. Calls and runs -/

namespace Op

/-- The same call, up to the flag of `sbrk`; no program is called. -/
inductive Like : Op → Op → Prop where
  | sbrk (n : Int32) (eager eager' : Bool) : Like (.sbrk n eager) (.sbrk n eager')
  | same {op : Op} (h : ∀ namei upath uargv, op ≠ .exec namei upath uargv) : Like op op

/-- The addresses that the call accesses lie below `sz`. -/
def Below (sz : Nat) : Op → Prop
  | .load va => va < sz
  | .store va _ => va < sz
  | .copyin va len => ∀ k < len, va + k < sz
  | .copyout va src => ∀ k < src.length, va + k < sz
  | .wait addr => addr ≠ 0 → ∀ k < 4, addr + k < sz
  | _ => True

end Op

section

variable {x y x' y' : Eager} {i : Fin NPROC} {op op' : Op} {a b : Ans}

/-- What a call answers and leaves, from an answer and a system that it computes. -/
theorem answers {α : Type} {ans : α → Ans} {r r' : α × Eager} (h : r.1 = r'.1 ∧ Eager.Same r.2 r'.2)
    (hs : ∃ v, a = ans v ∧ (v, x') = r) (ht : ∃ v, b = ans v ∧ (v, y') = r') :
    a = b ∧ Eager.Same x' y' := by
  obtain ⟨v, rfl, rfl⟩ := hs
  obtain ⟨w, rfl, rfl⟩ := ht
  exact ⟨congrArg ans h.1, h.2⟩

/-- **A call on two systems that are the same answers the same.** -/
theorem Eager.Same.serves (h : Eager.Same x y) (hx : x.Tight) (hy : y.Tight) (like : op.Like op')
    (below : ∀ p, x.seat i = .alive p → op.Below p.priv.sz) (hs : Eager.Serves (i, op) a x x')
    (ht : Eager.Serves (i, op') b y y') : a = b ∧ Eager.Same x' y' := by
  by_cases halive : ∃ p, x.seat i = .alive p
  · obtain ⟨p, hp⟩ := halive
    obtain ⟨q, hq, hpq⟩ := h.alive hp
    have hb := below p hp
    rw [Eager.serves_alive hp] at hs
    rw [Eager.serves_alive hq] at ht
    cases like with
    | sbrk n e e' => exact answers (h.own hpq (hpq.priv.sbrk (hx i p hp) (hy i q hq) _ e e')) hs ht
    | same hno =>
      cases op with
      | load va => exact answers (h.own hpq (hpq.priv.load hb)) hs ht
      | store va c => exact answers (h.own hpq (hpq.priv.store c hb)) hs ht
      | copyin va len => exact answers (h.own hpq (hpq.priv.copyin hb)) hs ht
      | copyout va src => exact answers (h.own hpq (hpq.priv.copyout hb)) hs ht
      | sbrk n e => exact answers (h.own hpq (hpq.priv.sbrk (hx i p hp) (hy i q hq) _ e e)) hs ht
      | fork => exact answers (h.fork hpq i) hs ht
      | exec namei upath uargv => exact absurd rfl (hno namei upath uargv)
      | exit status =>
        rw [hs.1, ht.1, hs.2, ht.2]
        exact ⟨rfl, h.exit i status⟩
      | wait addr => exact answers (h.wait hpq hb i) hs ht
      | pipe =>
        rw [hs.1, ht.1, hs.2, ht.2]
        exact ⟨rfl, h⟩
      | close k writable =>
        rw [hs.1, ht.1, hs.2, ht.2]
        exact ⟨rfl, h⟩
  · -- nobody is there to call
    have hnx : ∀ p, x.seat i ≠ .alive p := fun p hp => halive ⟨p, hp⟩
    have hny : ∀ q, y.seat i ≠ .alive q := fun q hq => by
      obtain ⟨p, hp, -⟩ := h.symm.alive hq
      exact hnx p hp
    obtain ⟨rfl, rfl⟩ := (Eager.serves_nobody hnx).mp hs
    obtain ⟨rfl, rfl⟩ := (Eager.serves_nobody hny).mp ht
    exact ⟨rfl, h⟩

/-- **Two runs side by side**, whose calls differ in nothing but the flag of `sbrk`, with every access
    below the break; and what both answered. -/
inductive Twin (s0 : Sys) : List (Ans × Ans) → Sys → Sys → Prop where
  | nil : Twin s0 [] s0 s0
  | snoc {l : List (Ans × Ans)} {s t s' t' : Sys} {i : Fin NPROC} {op op' : Op} {a b : Ans}
      (h : Twin s0 l s t) (like : op.Like op') (below : ∀ p, s.proc i = .used p → op.Below p.sz)
      (hs : perform (i, op) s = .ok a s') (ht : perform (i, op') t = .ok b t') :
      Twin s0 (l ++ [(a, b)]) s' t'

theorem tight_view {s : Sys} (h : SysOk s) : (view s).Tight := by
  intro k o ho v hv
  obtain ⟨p, hp, rfl⟩ := view_alive ho
  have hfit := h.ok k p (by rw [hp]; rfl)
  show (if v < USERVPN then (p.pagetable.leaf v).map _ else none) = none
  split
  · rw [hfit.above hv ‹_›]
    rfl
  · rfl

/-- **Lazy growth is like eager growth**: from any state that is reached, two runs of the same calls,
    the one with lazy and the other with eager growth, in any mixture, answer the same as long as
    every access lies below the break and no allocation fails. -/
theorem lazy_like_eager {s0 s t : Sys} {l : List (Ans × Ans)} (h : Reached s0) (hrun : Twin s0.calm l s t)
    (hs : s.mem.oomWarned = false) (ht : t.mem.oomWarned = false) :
    (∀ r ∈ l, r.1 = r.2) ∧ Eager.Same (view s) (view t) := by
  have hall : SysOk s ∧ SysOk t ∧ (s.mem.oomWarned = false → t.mem.oomWarned = false →
      (∀ r ∈ l, r.1 = r.2) ∧ Eager.Same (view s) (view t)) := by
    clear hs ht
    induction hrun with
    | nil =>
      have hok := (sysOk_reached h).calm
      exact ⟨hok, hok, fun _ _ => ⟨fun r hr => absurd hr List.not_mem_nil, Eager.Same.refl _⟩⟩
    | @snoc l s t s' t' i op op' a b _ like below hs ht ih =>
      obtain ⟨hoks, hokt, hrel⟩ := ih
      have hss := (perform_sat hoks (i, op)).of_ok hs
      have hst := (perform_sat hokt (i, op')).of_ok ht
      refine ⟨hss.ok, hst.ok, fun hos hot => ?_⟩
      have hos' : s.mem.oomWarned = false := Bool.eq_false_iff.mpr fun e =>
        Bool.eq_false_iff.mp hos (hss.oom e)
      have hot' : t.mem.oomWarned = false := Bool.eq_false_iff.mpr fun e =>
        Bool.eq_false_iff.mp hot (hst.oom e)
      obtain ⟨hans, hsame⟩ := hrel hos' hot'
      have hb : ∀ o, (view s).seat i = .alive o → op.Below o.priv.sz := by
        intro o ho
        obtain ⟨p, hp, rfl⟩ := view_alive ho
        exact below p hp
      obtain ⟨hab, hsame'⟩ := hsame.serves (tight_view hoks) (tight_view hokt) like hb
        (hss.serves hos) (hst.serves hot)
      refine ⟨fun r hr => ?_, hsame'⟩
      rcases List.mem_append.mp hr with hr | hr
      · exact hans r hr
      · rw [List.mem_singleton.mp hr]
        exact hab
  exact hall.2.2 hs ht

end

/-- A page of growth, lazy and eager, then a load. -/
theorem twin_small : ∃ l s t, l.length = 2 ∧ Twin small.calm l s t ∧ s.mem.oomWarned = false ∧
    t.mem.oomWarned = false := by
  have hrun : ((perform (small.initproc, .sbrk 4096 false) small.calm).test fun _ s =>
      (perform (small.initproc, .sbrk 4096 true) small.calm).test fun _ t =>
      (perform (small.initproc, .load 0) s).test fun _ s' =>
      (perform (small.initproc, .load 0) t).test fun _ t' =>
        decide ((s.proc small.initproc).proc?.map (·.sz) = some 4096 ∧ s'.mem.oomWarned = false ∧
          t'.mem.oomWarned = false)) = true := by decide +kernel
  obtain ⟨_, s, hs, hrun⟩ := Outcome.exists_of_test hrun
  obtain ⟨_, t, ht, hrun⟩ := Outcome.exists_of_test hrun
  obtain ⟨_, s', hs', hrun⟩ := Outcome.exists_of_test hrun
  obtain ⟨_, t', ht', hrun⟩ := Outcome.exists_of_test hrun
  obtain ⟨hsz, hos, hot⟩ := of_decide_eq_true hrun
  have hload : Op.Like (.load 0) (.load 0) := .same fun _ _ _ => Op.noConfusion
  refine ⟨_, _, _, rfl, (Twin.nil.snoc (.sbrk 4096 false true) (fun _ _ => trivial) hs ht).snoc
    hload (fun p hp => ?_) hs' ht', hos, hot⟩
  rw [hp] at hsz
  have hsz : p.sz = 4096 := Option.some.inj hsz
  show 0 < p.sz
  omega

theorem lazy_like_eager_small : ∃ l s t, l.length = 2 ∧ Twin small.calm l s t ∧
    (∀ r ∈ l, r.1 = r.2) ∧ Eager.Same (view s) (view t) := by
  obtain ⟨l, s, t, hl, hrun, hs, ht⟩ := twin_small
  exact ⟨l, s, t, hl, hrun, lazy_like_eager (reached_after (l := []) rfl) hrun hs ht⟩

end HaiOS.Vm
