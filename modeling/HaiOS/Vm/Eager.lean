/-
  File:      HaiOS/Vm/Eager.lean
  Subject:   THE SYSTEM WITH PRIVATE MEMORY, in which fork copies every page at once, and the kernel as
             an implementation of it.

  * `Owner`, `Eager` -- a process has a memory of its own; no pages, no counts, no sharing;
  * `Serves` -- what a call answers there, and what it leaves;
  * `view` -- the private system that a state of the kernel stands for;
  * `perform_sat` -- **every call of every process keeps the memory in order and, unless memory ran
    out, is a call of the private system with the same answer**.
-/
import HaiOS.Vm.Family

namespace HaiOS.Vm

open Lib Lib.Routine Function

/-! ## 1. The private system -/

/-- A process with a memory of its own. -/
structure Owner where
  pid : Int32
  parent : Option (Fin NPROC)
  xstate : Int
  priv : Priv

/-- A place for a process. -/
inductive Seat where
  | empty
  | alive (p : Owner)
  | dead (p : Owner)

/-- **The private system.** -/
structure Eager where
  seat : Fin NPROC → Seat
  nextpid : Int32
  initproc : Fin NPROC

namespace Eager

/-- The first empty place. -/
def firstEmpty (x : Eager) : Option (Fin NPROC) :=
  (List.finRange NPROC).find? fun i =>
    match x.seat i with
    | .empty => true
    | _ => false

/-- The first dead child of `i`. -/
def deadChild (x : Eager) (i : Fin NPROC) : Option (Fin NPROC × Owner) :=
  (List.finRange NPROC).findSome? fun k =>
    match x.seat k with
    | .dead q => if q.parent = some i then some (k, q) else none
    | _ => none

/-- `i` has a child. -/
def hasKids (x : Eager) (i : Fin NPROC) : Bool :=
  (List.finRange NPROC).any fun k =>
    match x.seat k with
    | .empty => false
    | .alive q => q.parent = some i
    | .dead q => q.parent = some i

/-- Write a place. -/
def put (x : Eager) (i : Fin NPROC) (y : Seat) : Eager :=
  { x with seat := update x.seat i y }

/-- The children of `i` become children of init. -/
def adopt (x : Eager) (i : Fin NPROC) (p : Owner) : Owner :=
  if p.parent = some i then { p with parent := some x.initproc } else p

/-- **Fork**: the child has a copy of all that its parent has. -/
def fork (x : Eager) (i : Fin NPROC) (p : Owner) : Int × Eager :=
  match x.firstEmpty with
  | none => (-1, x)
  | some j =>
    (x.nextpid.toInt, { x.put j (.alive ⟨x.nextpid, some i, 0, p.priv⟩) with nextpid := x.nextpid + 1 })

/-- **Exit.** -/
def exit (x : Eager) (i : Fin NPROC) (status : Int) : Eager :=
  { x with
    seat := fun k =>
      match x.seat k with
      | .empty => .empty
      | .dead q => .dead (x.adopt i q)
      | .alive q => if k = i then .dead { x.adopt i q with xstate := status } else .alive (x.adopt i q) }

/-- **Wait**: the status of a dead child goes to `addr`, then its place is free. -/
def wait (x : Eager) (i : Fin NPROC) (p : Owner) (addr : Nat) : Waited × Eager :=
  match x.deadChild i with
  | none => (if x.hasKids i = true then .sleeps else .error, x)
  | some (k, q) =>
    let (ok, a) := p.priv.report addr q.xstate
    let x := x.put i (.alive { p with priv := a })
    if ok = false then (.error, x) else (.pid q.pid, x.put k .empty)

/-- A process works on its own memory. -/
def own {α : Type} (x : Eager) (i : Fin NPROC) (p : Owner) (r : α × Priv) : α × Eager :=
  (r.1, x.put i (.alive { p with priv := r.2 }))

/-- A call of the process `p` in place `i`: it may answer `a` and lead from `x` to `y`. What a program
    that is called starts with is left open. -/
def ServesOwner (x : Eager) (i : Fin NPROC) (p : Owner) (op : Op) (a : Ans) (y : Eager) : Prop :=
  match op with
  | .load va => ∃ r, a = .byte r ∧ (r, y) = x.own i p (p.priv.load va)
  | .store va b => ∃ r, a = .ok r ∧ (r, y) = x.own i p (p.priv.store va b)
  | .copyin va len => ∃ r, a = .bytes r ∧ (r, y) = x.own i p (p.priv.copyin va len)
  | .copyout va src => ∃ r, a = .ok r ∧ (r, y) = x.own i p (p.priv.copyout va src)
  | .sbrk n eager => ∃ r, a = .brk r ∧ (r, y) = x.own i p (p.priv.sbrk n.toInt eager)
  | .fork => ∃ r, a = .int r ∧ (r, y) = x.fork i p
  | .exec _ _ _ => ∃ n q, a = .int n ∧ y = x.put i (.alive { p with priv := q })
  | .exit status => a = .ok true ∧ y = x.exit i status
  | .wait addr => ∃ r, a = .waited r ∧ (r, y) = x.wait i p addr
  | .pipe => a = .ok true ∧ y = x
  | .close _ _ => a = .ok true ∧ y = x

/-- **A call of the private system.** -/
def Serves (c : Fin NPROC × Op) (a : Ans) (x y : Eager) : Prop :=
  match x.seat c.1 with
  | .alive p => x.ServesOwner c.1 p c.2 a y
  | _ => a = .nobody ∧ y = x

theorem serves_alive {x y : Eager} {i : Fin NPROC} {p : Owner} {op : Op} {a : Ans}
    (h : x.seat i = .alive p) : Serves (i, op) a x y ↔ x.ServesOwner i p op a y := by
  unfold Serves
  rw [h]

theorem serves_nobody {x y : Eager} {i : Fin NPROC} {op : Op} {a : Ans}
    (h : ∀ p, x.seat i ≠ .alive p) : Serves (i, op) a x y ↔ a = .nobody ∧ y = x := by
  unfold Serves
  split
  · exact absurd ‹_› (h _)
  · exact Iff.rfl

end Eager

/-! ## 2. The view -/

/-- The process that owns what `p` sees. -/
def Proc.owner (m : Mem) (p : Proc) : Owner :=
  ⟨p.pid, p.parent, p.xstate, privOf m p.pagetable p.sz⟩

def Slot.seat (m : Mem) : Slot → Seat
  | .unused => .empty
  | .used p => .alive (p.owner m)
  | .zombie p => .dead (p.owner m)

/-- **The private system that the kernel stands for.** -/
def view (s : Sys) : Eager := ⟨fun k => (s.proc k).seat s.mem, s.nextpid, s.initproc⟩

section

variable {s s' : Sys} {i j k : Fin NPROC} {p p' q : Proc} {m m' : Mem} {a : Ans}

theorem seat_congr {x : Slot}
    (h : ∀ r, x.proc? = some r → privOf m' r.pagetable r.sz = privOf m r.pagetable r.sz) :
    x.seat m' = x.seat m := by
  cases x with
  | unused => rfl
  | used p => exact congrArg (fun a => Seat.alive ⟨p.pid, p.parent, p.xstate, a⟩) (h p rfl)
  | zombie p => exact congrArg (fun a => Seat.dead ⟨p.pid, p.parent, p.xstate, a⟩) (h p rfl)

/-- The scans of the process table find the same. -/
theorem firstEmpty_view (s : Sys) : (view s).firstEmpty = firstUnused s.proc := by
  unfold Eager.firstEmpty firstUnused
  congr 1
  funext k
  show (match (s.proc k).seat s.mem with | .empty => true | _ => false) = _
  cases s.proc k <;> rfl

theorem deadChild_view (s : Sys) (i : Fin NPROC) :
    (view s).deadChild i = (zombieChild s.proc i).map fun r => (r.1, r.2.owner s.mem) := by
  unfold Eager.deadChild zombieChild
  rw [List.map_findSome?]
  congr 1
  funext k
  show (match (s.proc k).seat s.mem with
    | .dead q => if q.parent = some i then some (k, q) else none | _ => none) = _
  cases hk : s.proc k with
  | unused => simp [Slot.seat, hk]
  | used p => simp [Slot.seat, hk]
  | zombie p =>
    simp only [Slot.seat, Proc.owner, Function.comp, hk]
    split <;> rfl

theorem hasKids_view (s : Sys) (i : Fin NPROC) : (view s).hasKids i = havekids s.proc i := by
  unfold Eager.hasKids havekids
  congr 1
  funext k
  show (match (s.proc k).seat s.mem with
    | .empty => false | .alive q => decide (q.parent = some i) | .dead q => decide (q.parent = some i)) = _
  cases s.proc k <;> rfl

theorem view_eq {x : Eager} (hk : ∀ k, (s.proc k).seat s.mem = x.seat k)
    (hn : s.nextpid = x.nextpid) (hi : s.initproc = x.initproc) : view s = x := by
  unfold view
  rw [funext hk, hn, hi]

/-- One slot changed, and the others see the same. -/
theorem view_put (hs : s' = { s with mem := s'.mem, proc := s'.proc })
    (hj : ∀ j, j ≠ i → (s'.proc j).seat s'.mem = (s.proc j).seat s.mem) :
    view s' = (view s).put i ((s'.proc i).seat s'.mem) := by
  refine view_eq (fun k => ?_) (by rw [hs]; rfl) (by rw [hs]; rfl)
  show _ = update (view s).seat i ((s'.proc i).seat s'.mem) k
  rcases eq_or_ne k i with rfl | hk
  · rw [update_self]
  · rw [update_of_ne hk, hj k hk]
    rfl

/-- A call on one process, seen from outside. -/
theorem Served.view_eq (h : Served s s' i p p') :
    view s' = (view s).put i
      (.alive { p.owner s.mem with priv := privOf s'.mem p'.pagetable p'.sz }) := by
  have hp : s'.proc = update s.proc i (.used p') := congrArg Sys.proc h.eq
  have hw : view s' = (view s).put i ((s'.proc i).seat s'.mem) := by
    refine view_put ?_ fun j hj => ?_
    · have e := h.eq
      rw [← hp] at e
      exact e
    · rw [hp, update_of_ne hj]
      exact seat_congr fun r hr => privOf_keep h.keeps (mem_tables_without hj hr) r.sz
  rw [hw, hp, update_self]
  show (view s).put i (.alive ⟨p'.pid, p'.parent, p'.xstate, _⟩) = _
  rw [h.pid, h.parent, h.xstate]
  rfl

theorem view_seat (hi : s.proc i = .used p) : (view s).seat i = .alive (p.owner s.mem) := by
  show (s.proc i).seat s.mem = _
  rw [hi]
  rfl

theorem view_alive {o : Owner} (h : (view s).seat i = .alive o) :
    ∃ p, s.proc i = .used p ∧ o = p.owner s.mem := by
  have hs : (s.proc i).seat s.mem = .alive o := h
  cases hp : s.proc i with
  | unused => rw [hp] at hs; cases hs
  | used p => rw [hp] at hs; cases hs; exact ⟨p, rfl, rfl⟩
  | zombie p => rw [hp] at hs; cases hs

/-! ## 3. Every call -/

/-- **What a call leaves**: the memory in order, a shortage on record, and, without one, what the
    private system leaves. -/
structure Step (c : Fin NPROC × Op) (s : Sys) (a : Ans) (s' : Sys) : Prop where
  ok : SysOk s'
  oom : s.mem.oomWarned = true → s'.mem.oomWarned = true
  serves : s'.mem.oomWarned = false → Eager.Serves c a (view s) (view s')

theorem Step.nobody {op : Op} (h : SysOk s) (hi : ∀ p, s.proc i ≠ .used p) :
    Step (i, op) s .nobody s := by
  refine ⟨h, id, fun _ => (Eager.serves_nobody fun o ho => ?_).mpr ⟨rfl, rfl⟩⟩
  obtain ⟨p, hp, -⟩ := view_alive ho
  exact hi p hp

/-- Calls on the caller's own memory. -/
theorem inProc_step {Q : Priv → Ans → Priv → Prop} {f : Proc → VmM (Ans × Proc)} {op : Op}
    (h : SysOk s) (ha : Acts s.trampoline Q f)
    (hQ : ∀ (x : Eager) (p : Owner) (a : Ans) (y : Priv), x.seat i = .alive p → Q p.priv a y →
      Eager.Serves (i, op) a x (x.put i (.alive { p with priv := y }))) :
    (inProc i f s).Returns (Step (i, op) s) := by
  refine (inProc_sat h ha).imp fun a s' hs => ?_
  rcases hs with ⟨hi, rfl, rfl⟩ | ⟨p, p', hi, hs, hq⟩
  · exact Step.nobody h hi
  · refine ⟨hs.ok, hs.keeps.oom, fun ho => ?_⟩
    rw [hs.view_eq]
    exact hQ (view s) (p.owner s.mem) a _ (view_seat hi) (hq ho)

/-- Calls on the caller's address space that implement `g`. -/
theorem inSpace_step {α : Type} {ans : α → Ans} {f : Space → VmM (α × Space)} {g : Priv → α × Priv}
    {op : Op} (h : SysOk s)
    (hf : ∀ {m : Mem} {t : PageTable} {ts : List PageTable} {ks : List Nat} {sz : Nat},
      Inv m (t :: ts) ks → t.Fenced → sz ≤ TRAPFRAME →
        (f ⟨t, sz, none⟩ m).Returns (Does m t ts ks sz g))
    (hS : ∀ (x y : Eager) (p : Owner) (a : Ans), x.seat i = .alive p →
      (∃ r, a = ans r ∧ (r, y) = x.own i p (g p.priv)) → Eager.Serves (i, op) a x y) :
    (inProc i (inSpace ans f) s).Returns (Step (i, op) s) := by
  have ha : Acts s.trampoline (fun a r b => ∃ x, r = ans x ∧ g a = (x, b)) (inSpace ans f) :=
    inSpace_acts hf
  refine inProc_step h ha fun x p a y hi hq => ?_
  obtain ⟨r, hr, hg⟩ := hq
  exact hS x _ p a hi ⟨r, hr, by rw [Eager.own, hg]⟩

/-- Calls on the process table. -/
theorem byProc_step {α : Type} {ans : α → Ans} {f : Proc → SysM α} {op : Op}
    {E : Panic → Sys → Prop} (h : SysOk s)
    (hf : ∀ p, s.proc i = .used p → (f p s).Sat (fun a s' => Step (i, op) s (ans a) s') E) :
    (byProc i ans f s).Sat (Step (i, op) s) E := by
  unfold byProc
  rw [gets_bind]
  cases hi : s.proc i with
  | unused => exact Step.nobody h (by rw [hi]; exact nofun)
  | zombie q => exact Step.nobody h (by rw [hi]; exact nofun)
  | used p => exact (hf p hi).bind fun a s' hs => hs

/-- Sharing pages changes nothing that a process sees. -/
theorem cell_share (ram : Nat → Store) (e : Pte) : e.share.cell ram = e.cell ram := by
  unfold Pte.share Pte.cell Flags.share
  split
  · rename_i hw
    rw [hw]
    rfl
  · rfl

theorem viewOf_shared (ram : Nat → Store) (t : PageTable) (u : Nat) :
    viewOf ram (t.shared u) = viewOf ram t.leaf := by
  funext v
  unfold viewOf PageTable.shared
  split
  · split
    · rw [Option.map_map]
      exact congrArg (fun f => Option.map f (t.leaf v)) (funext (cell_share ram))
    · rfl
  · rfl

/-- **The parent and the child see what the parent saw.** -/
theorem privOf_shared {ts : List PageTable} {ks : List Nat} {t t' : PageTable} {u : Nat}
    (hk : m.Keeps (Seen t.leaf ts ks) m') (hl : ∀ v < USERVPN, t'.leaf v = t.shared u v) (sz : Nat) :
    privOf m' t' sz = privOf m t sz := by
  refine congrArg (Priv.mk sz) ?_
  calc viewOf m'.ram t'.leaf = viewOf m'.ram (t.shared u) := by
        funext v
        unfold viewOf
        split
        · rw [hl v ‹_›]
        · rfl
    _ = viewOf m'.ram t.leaf := viewOf_shared _ _ _
    _ = viewOf m.ram t.leaf := viewOf_keeps hk fun v hv e he => Or.inr ⟨v, hv, e, he, rfl⟩

theorem kfork_step (h : SysOk s) (hi : s.proc i = .used p) :
    (kfork i p s).Returns fun r s' => Step (i, .fork) s (.int r) s' := by
  refine (kfork_sat h hi).imp fun r s' ⟨hok, hend, hk⟩ => ⟨hok, hk.oom, fun ho => ?_⟩
  refine (Eager.serves_alive (view_seat hi)).mpr ⟨r, rfl, ?_⟩
  unfold Eager.fork
  rw [firstEmpty_view]
  cases hend with
  | full slot eq =>
    rw [slot, eq]
  | poor slot short oom eq =>
    rw [oom] at ho
    cases ho
  | broke slot below mapped enough short oom eq =>
    rw [oom] at ho
    cases ho
  | @done j frame t slot enough leaf oom eq =>
    rw [slot]
    have hproc := congrArg Sys.proc eq
    have hj : (s.proc j).proc? = none := firstUnused_unused slot
    have hji : j ≠ i := fun e => by rw [e, hi] at hj; cases hj
    refine congrArg (Prod.mk _) ?_
    refine view_eq (fun k => ?_) (by rw [eq]; rfl) (by rw [eq]; rfl)
    show _ = update (view s).seat j _ k
    rw [hproc]
    dsimp only
    rcases eq_or_ne k j with rfl | hkj
    · rw [update_self, update_self]
      show Seat.alive ⟨s.nextpid, some i, 0, privOf s'.mem t p.sz⟩ = _
      rw [privOf_shared hk leaf]
      rfl
    · rw [update_of_ne hkj, update_of_ne hkj]
      rcases eq_or_ne k i with rfl | hki
      · rw [update_self, view_seat hi]
        refine congrArg (fun a => Seat.alive ⟨p.pid, p.parent, p.xstate, a⟩) ?_
        exact privOf_shared hk (fun _ _ => rfl) p.sz
      · rw [update_of_ne hki]
        refine seat_congr fun r hr => privOf_keep (hk.mono fun _ hq => Or.inl hq) ?_ r.sz
        exact mem_tables_without hki hr

theorem owner_adopt (s : Sys) (i : Fin NPROC) (m : Mem) (q : Proc) :
    (if q.parent = some i then { q with parent := some s.initproc } else q).owner m =
      (view s).adopt i (q.owner m) := by
  unfold Eager.adopt Proc.owner
  split <;> rfl

theorem kexit_step (h : SysOk s) (status : Int) (hi : s.proc i = .used p) :
    (kexit i status s).Sat (fun _ s' => Step (i, .exit status) s (.ok true) s')
      fun e _ => e = .initExiting := by
  refine (kexit_sat h status).imp fun _ s' ⟨hs, hok⟩ => ?_
  subst hs
  refine ⟨hok, id, fun _ => ?_⟩
  refine (Eager.serves_alive (view_seat hi)).mpr ⟨rfl, view_eq (fun k => ?_) rfl rfl⟩
  show (update (reparent i s).proc i (((reparent i s).proc i).exit status) k).seat s.mem =
    match (s.proc k).seat s.mem with
    | .empty => .empty
    | .dead q => .dead ((view s).adopt i q)
    | .alive q => if k = i then .dead { (view s).adopt i q with xstate := status }
        else .alive ((view s).adopt i q)
  have hmap : ∀ k, (reparent i s).proc k = (s.proc k).map fun q =>
    if q.parent = some i then { q with parent := some s.initproc } else q := fun _ => rfl
  rcases eq_or_ne k i with rfl | hk
  · rw [update_self, hmap, hi]
    dsimp only [Slot.map, Slot.exit, Slot.seat]
    rw [if_pos rfl, ← owner_adopt]
    rfl
  · rw [update_of_ne hk, hmap]
    cases s.proc k with
    | unused => rfl
    | used q =>
      dsimp only [Slot.map, Slot.seat]
      rw [if_neg hk, owner_adopt]
    | zombie q =>
      dsimp only [Slot.map, Slot.seat]
      rw [owner_adopt]

theorem Undisturbed.seat (h : Undisturbed s s' i) (hj : j ≠ i) (hs : s'.proc j = s.proc j) :
    (s'.proc j).seat s'.mem = (view s).seat j := by
  rw [hs]
  refine seat_congr fun r hr => h j r hj hr ?_
  rw [hs, hr]
  exact Option.some_ne_none r

/-- `wait` of the private system, when there is a dead child. -/
theorem wait_child (child : zombieChild s.proc i = some (k, q)) (addr : Nat) {ok : Bool} {a : Priv}
    (hr : (privOf s.mem p.pagetable p.sz).report addr q.xstate = (ok, a)) :
    (view s).wait i (p.owner s.mem) addr =
      if ok = false then (.error, (view s).put i (.alive { p.owner s.mem with priv := a }))
      else (.pid q.pid, ((view s).put i (.alive { p.owner s.mem with priv := a })).put k .empty) := by
  unfold Eager.wait
  rw [deadChild_view, child]
  show (match (privOf s.mem p.pagetable p.sz).report addr q.xstate with
    | (ok, a) => if ok = false
        then (Waited.error, (view s).put i (.alive { p.owner s.mem with priv := a }))
        else (Waited.pid q.pid, ((view s).put i (.alive { p.owner s.mem with priv := a })).put k .empty)) = _
  rw [hr]

theorem kwait_step (h : SysOk s) (hi : s.proc i = .used p) (addr : Nat) :
    (kwait i p addr s).Returns fun r s' => Step (i, .wait addr) s (.waited r) s' := by
  refine (kwait_sat h hi addr).imp fun r s' ⟨hok, hend, hrest, hoom⟩ =>
    ⟨hok, hoom, fun ho => ?_⟩
  refine (Eager.serves_alive (view_seat hi)).mpr ⟨r, rfl, ?_⟩
  cases hend with
  | none child eq =>
    unfold Eager.wait
    rw [deadChild_view, child, hasKids_view, eq]
    rfl
  | @refused k q t child eq priv =>
    rw [wait_child child addr (priv ho), if_pos rfl]
    refine congrArg (Prod.mk _) (view_eq (fun k' => ?_) (by rw [eq]; rfl) (by rw [eq]; rfl))
    show _ = update (view s).seat i _ k'
    have hproc : s'.proc = update s.proc i (.used { p with pagetable := t }) :=
      congrArg Sys.proc eq
    rcases eq_or_ne k' i with rfl | hki
    · rw [hproc, update_self, update_self]
      rfl
    · rw [update_of_ne hki]
      exact hrest.seat hki (by rw [hproc, update_of_ne hki])
  | @done k q t child eq priv =>
    rw [wait_child child addr (priv ho), if_neg (by decide)]
    refine congrArg (Prod.mk _) (view_eq (fun k' => ?_) (by rw [eq]; rfl) (by rw [eq]; rfl))
    show _ = update (update (view s).seat i _) k _ k'
    have hproc : s'.proc =
        update (update s.proc i (.used { p with pagetable := t })) k .unused :=
      congrArg Sys.proc eq
    rcases eq_or_ne k' k with rfl | hk
    · rw [hproc, update_self, update_self]
      rfl
    · rw [update_of_ne hk]
      rcases eq_or_ne k' i with rfl | hki
      · rw [hproc, update_of_ne hk, update_self, update_self]
        rfl
      · rw [update_of_ne hki]
        exact hrest.seat hki (by rw [hproc, update_of_ne hk, update_of_ne hki])

theorem Piped.view_eq (h : Piped s s') : view s' = view s := by
  refine Vm.view_eq (fun k => ?_) (by rw [h.eq]; rfl) (by rw [h.eq]; rfl)
  have hproc : s'.proc = s.proc := by rw [h.eq]
  rw [hproc]
  refine seat_congr fun r hr => privOf_keep h.keeps (mem_gather.mpr ⟨k, ?_⟩) r.sz
  rw [hr]
  rfl

/-- A call that only concerns pipes. -/
theorem Piped.step {op : Op} (h : Piped s s') (hi : s.proc i = .used p)
    (ho : s'.mem.oomWarned = false → ∀ x, x.seat i = .alive (p.owner s.mem) →
      Eager.Serves (i, op) a x x) : Step (i, op) s a s' := by
  refine ⟨h.ok, h.keeps.oom, fun hf => ?_⟩
  rw [h.view_eq]
  exact ho hf _ (view_seat hi)

end

/-- **Every call of every process.** -/
theorem perform_sat {s : Sys} (h : SysOk s) (c : Fin NPROC × Op) :
    (perform c s).Sat (Step c s) fun e _ => e = .initExiting := by
  obtain ⟨i, op⟩ := c
  have hout : ∀ {o : Outcome Panic Sys Ans}, o.Sat (Step (i, op) s) (fun _ _ => False) →
      o.Sat (Step (i, op) s) fun e _ => e = .initExiting := fun ho => ho.mono (fun _ _ hs => hs) nofun
  cases op with
  | load va =>
    refine hout (inSpace_step h (load_sat · · · va) fun x y p a hi hr => ?_)
    exact (Eager.serves_alive hi).mpr hr
  | store va b =>
    refine hout (inSpace_step h (store_sat · · · va b) fun x y p a hi hr => ?_)
    exact (Eager.serves_alive hi).mpr hr
  | copyin va len =>
    refine hout (inSpace_step h (copyin_sat · · · va len) fun x y p a hi hr => ?_)
    exact (Eager.serves_alive hi).mpr hr
  | copyout va src =>
    refine hout (inSpace_step h (copyout_sat · · · va src) fun x y p a hi hr => ?_)
    exact (Eager.serves_alive hi).mpr hr
  | sbrk n eager =>
    refine hout (inProc_step h (sbrk_acts n eager) fun x p a y hi hq => ?_)
    obtain ⟨r, hr, hg⟩ := hq
    exact (Eager.serves_alive hi).mpr ⟨r, hr, by rw [Eager.own, hg]⟩
  | fork => exact hout (byProc_step h fun p hi => kfork_step h hi)
  | exec namei upath uargv =>
    refine hout (inProc_step h sysExec_acts fun x p a y hi hq => ?_)
    obtain ⟨n, hn⟩ := hq
    exact (Eager.serves_alive hi).mpr ⟨n, y, hn, rfl⟩
  | exit status => exact byProc_step h fun p hi => kexit_step h status hi
  | wait addr => exact hout (byProc_step h fun p hi => kwait_step h hi addr)
  | pipe =>
    refine hout (byProc_step h fun p hi => (pipealloc_sat h).imp fun b s' ⟨hp, hb⟩ => ?_)
    refine hp.step hi fun ho x hx => ?_
    cases b with
    | true => exact (Eager.serves_alive hx).mpr ⟨rfl, rfl⟩
    | false =>
      rw [hb rfl] at ho
      cases ho
  | close k writable =>
    refine hout (byProc_step h fun p hi => (pipeclose_sat h k writable).imp fun b s' hp => ?_)
    exact hp.step hi fun ho x hx => (Eager.serves_alive hx).mpr ⟨rfl, rfl⟩

/-! ## 4. The boot, and every state reached -/

/-- The kernel takes `n` pages, unless there are fewer. -/
theorem kernelPages_sat (n : Nat) {m : Mem} {ts : List PageTable} {ks : List Nat} (h : Inv m ts ks) :
    (kernelPages n m).Returns
      fun o m' => match o with
        | none => m.freelist.length < n
        | some l => Inv m' ts (l ++ ks) ∧ m'.oomWarned = m.oomWarned ∧
            m.freelist.length = m'.freelist.length + n := by
  induction n generalizing m ks with
  | zero => exact ⟨h, rfl, rfl⟩
  | succ n ih =>
    refine (kalloc_inv h).bind fun o m1 ho => ?_
    cases o with
    | none =>
      rw [ho.1]
      exact Nat.succ_pos n
    | some p =>
      obtain ⟨-, htook, hinv1⟩ := ho
      have hlen1 : m.freelist.length = m1.freelist.length + 1 := by
        rw [htook.head, List.length_cons]
      refine (ih hinv1).bind fun o m2 ho2 => ?_
      cases o with
      | none =>
        show m.freelist.length < n + 1
        omega
      | some l =>
        obtain ⟨hinv2, hoom, hlen⟩ := ho2
        refine ⟨hinv2.perm (List.Perm.refl _) List.perm_middle, hoom.trans htook.oom, ?_⟩
        omega

/-- After `kinit` every page from `first` on is free. -/
theorem Mem.Exact.length_free {m : Mem} (h : m.Exact fun _ => 0) :
    m.freelist.length = NPAGE - m.first := by
  have hset : m.freelist.toFinset = Finset.Ico m.first NPAGE := by
    ext p
    rw [List.mem_toFinset, h.counted.free, Finset.mem_Ico]
    exact ⟨fun hp => hp.1, fun hp => ⟨hp, rfl⟩⟩
  rw [← List.toFinset_card_of_nodup h.counted.nodup, hset, Nat.card_Ico]

/-- **What the boot leaves**: the first process, with nothing in its memory. -/
structure Fresh (s : Sys) (free : Nat) : Prop where
  ok : SysOk s
  oom : s.mem.oomWarned = false
  free : s.mem.freelist.length = free
  init : ∃ frame t, t.New s.trampoline frame ∧
    s.proc s.initproc = .used ⟨1, none, 0, frame, ⟨0, 0, 0, 0⟩, t, 0, []⟩
  alone : ∀ i, i ≠ s.initproc → s.proc i = .unused

/-- **`userinit`** in an empty process table. -/
theorem userinit_sat {s : Sys} {n total : Nat} (hproc : s.proc = fun _ => .unused) (hpipes : s.pipes = [])
    (hpid : s.nextpid = 1) (hinv : Inv s.mem [] (s.kernel ++ [])) (hoom : s.mem.oomWarned = false)
    (hlen : s.mem.freelist.length + n = total) :
    (userinit s).Returns fun b s' => if b = true then Fresh s' (total - n - 4) else total < n + 4 := by
  have hnone : ∀ i, (s.proc i).proc? = none := fun i => by rw [hproc]; rfl
  have ht : tables s.proc = [] :=
    List.filterMap_eq_nil_iff.mpr fun i _ => congrArg (Option.map (·.pagetable)) (hnone i)
  have hf : frames s.proc = [] :=
    List.filterMap_eq_nil_iff.mpr fun i _ => congrArg (Option.map (·.frame)) (hnone i)
  have hheld : frames s.proc ++ s.held = s.kernel := by
    rw [hf, Sys.held, hpipes]
    rfl
  have hinv' : Inv s.mem (tables s.proc) (frames s.proc ++ s.held) := by
    rw [ht, hheld]
    rwa [List.append_nil] at hinv
  refine (allocproc_sat hinv').bind fun o s1 ho => ?_
  cases o with
  | none =>
    show total < n + 4
    cases ho with
    | full hfull =>
      have := List.find?_eq_none.mp hfull ⟨0, by decide⟩ (List.mem_finRange _)
      rw [hnone] at this
      exact absurd rfl this
    | poor slot rest inv keeps short oom => omega
  | some r =>
    obtain ⟨i, p⟩ := r
    have hb : Born s s1 i p := ho
    have hp1 : s1.proc = s.proc := by rw [hb.rest]
    have hh1 : s1.held = s.held := by rw [hb.rest]; rfl
    have ht1 : s1.trampoline = s.trampoline := by rw [hb.rest]
    have hpaid := hb.paid
    obtain ⟨hwt, hwf⟩ := without_of_unused (hnone i)
    show Fresh { s1 with proc := update s1.proc i (.used p), initproc := i } (total - n - 4)
    rw [hp1]
    refine ⟨⟨?_, ok_update (fun k q hq => ?_) fun q hq => ?_⟩, hb.oom.trans hoom,
      ?_, ⟨p.frame, p.pagetable, ?_, ?_⟩, fun k hk => ?_⟩
    · refine inv_put (s := s1) rfl ?_
      rw [hwt, hwf, hh1]
      exact hb.inv
    · rw [hnone k] at hq
      cases hq
    · cases hq
      have hsz : p.sz = 0 := by rw [hb.eq]
      show p.pagetable.Fits s1.trampoline p.frame p.sz
      rw [hsz, ht1]
      exact hb.new.fits
    · show s1.mem.freelist.length = _
      omega
    · show p.pagetable.New s1.trampoline p.frame
      rw [ht1]
      exact hb.new
    · show update s.proc i (Slot.used p) i = _
      rw [update_self, ← hpid, ← hb.eq]
    · show update s.proc i (Slot.used p) k = _
      rw [update_of_ne hk, hproc]

/-- **The boot** succeeds when there are `n + 4` pages. -/
theorem boot_sat {first : Nat} (hf : first ≤ NPAGE) (n trampoline : Nat) (ram : Nat → Store) (s : Sys) :
    (boot first n trampoline ram s).Returns
      fun b s' => if b = true then Fresh s' (NPAGE - first - n - 4) else NPAGE - first < n + 4 := by
  refine (onMem_sat (kinit_exact hf ram s.mem)).bind
    fun _ s1 ⟨m1, hs1, hx, hfirst, hoom⟩ => ?_
  subst hs1
  have hlen := hx.length_free
  rw [hfirst] at hlen
  have hinv : Inv m1 [] [] := ⟨hx, nofun, nofun, nofun, Nat.two_pow_pos 15⟩
  refine (onMem_sat (kernelPages_sat n hinv)).bind fun o s2 ⟨m2, hs2, ho⟩ => ?_
  subst hs2
  cases o with
  | none =>
    have hlt : m1.freelist.length < n := ho
    show NPAGE - first < n + 4
    omega
  | some l =>
    obtain ⟨hinv2, hoom2, hlen2⟩ := ho
    dsimp only
    rw [update_bind]
    exact userinit_sat rfl rfl rfl hinv2 (hoom2.trans hoom) (hlen2.symm.trans hlen)

theorem booted_last {first n : Nat} (hf : first ≤ NPAGE) (hn : n + 4 ≤ NPAGE - first)
    (trampoline : Nat) (ram : Nat → Store) (s : Sys) : Booted (boot first n trampoline ram s).last := by
  obtain ⟨b, s', hb, hs⟩ := (boot_sat hf n trampoline ram s).exists_ok
  cases b with
  | false =>
    have hlt : NPAGE - first < n + 4 := hs
    omega
  | true => exact ⟨first, n, trampoline, ram, s, hf, by rw [hb]; rfl⟩

/-- **The memory is in order in every state that is reached.** -/
theorem sysOk_reached {s : Sys} (h : Reached s) : SysOk s := by
  obtain ⟨s0, l, ⟨first, n, trampoline, ram, s1, hf, hboot⟩, hrun⟩ := h
  have h0 : Fresh s0 (NPAGE - first - n - 4) := (boot_sat hf n trampoline ram s1).of_ok hboot
  exact hrun.invariant (I := SysOk) (fun c a s s' hs hc => ((perform_sat hs c).of_ok hc).ok) h0.ok

end HaiOS.Vm
