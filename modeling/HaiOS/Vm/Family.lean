/-
  File:      HaiOS/Vm/Family.lean
  Subject:   FORK, EXIT, WAIT AND PIPES over the whole process table, and the states of the system.

  * `allocproc_sat`, `Born` -- a new process stands beside the table, four pages poorer;
  * `kfork_sat`, `ForkEnd` -- the four ways a fork ends, by what memory there is.
-/
import HaiOS.Vm.System
import HaiOS.Vm.Fork

namespace HaiOS.Vm

open Lib Lib.Routine Function

/-! ## 1. A new process -/

/-- A routine of the memory system, run in the kernel. -/
theorem onMem_sat {α : Type} {x : VmM α} {s : Sys} {Q : α → Mem → Prop}
    (h : (x s.mem).Returns Q) :
    (onMem x s).Returns fun a s' => ∃ m', s' = { s with mem := m' } ∧ Q a m' := by
  obtain ⟨a, m', hr, hq⟩ := h.exists_ok
  unfold onMem
  rw [hr]
  exact ⟨m', rfl, hq⟩

theorem setSlot_bind {α : Type} (i : Fin NPROC) (x : Slot) (f : Unit → SysM α) (s : Sys) :
    (setSlot i x >>= f) s = f () { s with proc := update s.proc i x } := rfl

theorem firstUnused_unused {proc : Fin NPROC → Slot} {j : Fin NPROC} (h : firstUnused proc = some j) :
    (proc j).proc? = none := by
  have hn := List.find?_some h
  exact Option.isNone_iff_eq_none.mp hn

/-- **A process that `allocproc` made**, not yet in the table. -/
structure Born (s s' : Sys) (j : Fin NPROC) (np : Proc) : Prop where
  slot : firstUnused s.proc = some j
  rest : s' = { s with mem := s'.mem, nextpid := s.nextpid + 1 }
  inv : Inv s'.mem (np.pagetable :: tables s.proc) (np.frame :: (frames s.proc ++ s.held))
  keeps : s.mem.Keeps (Live (tables s.proc) (frames s.proc ++ s.held)) s'.mem
  eq : np = ⟨s.nextpid, none, 0, np.frame, ⟨0, 0, 0, 0⟩, np.pagetable, 0, []⟩
  new : np.pagetable.New s.trampoline np.frame
  paid : s.mem.freelist.length = s'.mem.freelist.length + 4
  oom : s'.mem.oomWarned = s.mem.oomWarned

/-- **No process was made**: there was no slot, or there were no four pages. -/
inductive Unborn (s : Sys) : Sys → Prop where
  | full (h : firstUnused s.proc = none) : Unborn s s
  | poor {s' : Sys} {j : Fin NPROC} (slot : firstUnused s.proc = some j)
      (rest : s' = { s with mem := s'.mem, nextpid := s.nextpid + 1 })
      (inv : Inv s'.mem (tables s.proc) (frames s.proc ++ s.held))
      (keeps : s.mem.Keeps (Live (tables s.proc) (frames s.proc ++ s.held)) s'.mem)
      (short : s.mem.freelist.length < 4) (oom : s'.mem.oomWarned = true) : Unborn s s'

/-- **`allocproc`.** -/
theorem allocproc_sat {s : Sys} (h : Inv s.mem (tables s.proc) (frames s.proc ++ s.held)) :
    (allocproc s).Returns
      fun o s' => match o with
        | none => Unborn s s'
        | some (j, np) => Born s s' j np := by
  unfold allocproc
  rw [gets_bind]
  cases hj : firstUnused s.proc with
  | none => exact Unborn.full hj
  | some j =>
    dsimp only
    unfold allocpid
    rw [bind_run, gets_bind, update_bind, pure_run]
    refine Outcome.Sat.bind (onMem_sat (kalloc_inv h)) fun o s1 ⟨m1, hs1, ho⟩ => ?_
    subst hs1
    cases o with
    | none =>
      obtain ⟨hnil, rfl⟩ := ho
      refine Unborn.poor hj rfl h.setOom ⟨rfl, fun _ _ => rfl, fun _ => rfl⟩ ?_ rfl
      rw [hnil]
      exact Nat.zero_lt_succ _
    | some frame =>
      obtain ⟨hfree, htook, hinv1⟩ := ho
      have hk1 : s.mem.Keeps (Live (tables s.proc) (frames s.proc ++ s.held)) m1 :=
        htook.keeps (Nat.not_lt.mpr (Nat.le_of_eq hfree))
      have hlen : s.mem.freelist.length = m1.freelist.length + 1 := by
        rw [htook.head, List.length_cons]
      have hfew : (tables s.proc).length + 1 < 2 ^ 15 := by
        have := length_tables s.proc
        omega
      dsimp only
      rw [gets_bind]
      refine Outcome.Sat.bind (onMem_sat (procPagetable_sat hinv1 hfew s.trampoline frame))
        fun o s2 ⟨m2, hs2, hk2, ho⟩ => ?_
      subst hs2
      have hk2' := hk1.trans (hk2.mono fun _ hq => live_page hq)
      cases o with
      | none =>
        obtain ⟨hinv2, hshort, hoom⟩ := ho
        refine (onMem_sat (kfree_inv hinv2)).bind fun _ s3 ⟨m3, hs3, hinv3, hk3⟩ => ?_
        subst hs3
        exact Unborn.poor hj rfl hinv3 (hk2'.trans hk3) (by omega) (hk3.oom hoom)
      | some t =>
        obtain ⟨hinv2, hnew, hpaid, hoom⟩ := ho
        have hlen2 : s.mem.freelist.length = m2.freelist.length + 4 := by omega
        exact ⟨hj, rfl, hinv2, hk2', rfl, hnew, hlen2, hoom.trans htook.oom⟩

/-! ## 2. `kfork` -/

/-- The tables that a new process lacks for the pages that `old` maps below `v`. -/
def forkTables (old : PageTable) (v : Nat) : Nat :=
  tablesFor
    { root := 0
      mid := fun i => if i = 255 then some 0 else none
      low := fun k => if k = 131071 then some 0 else none
      leaf := fun _ => none } old v

theorem PageTable.New.tablesFor_eq {t : PageTable} {trampoline frame : Nat}
    (h : t.New trampoline frame) (old : PageTable) (v : Nat) :
    tablesFor t old v = forkTables old v := by
  have hm : ∀ i, t.mid i = none ↔ (if i = 255 then some 0 else none) = (none : Option Nat) := by
    intro i
    rw [h.mids i]
    split <;> simp [*]
  have hl : ∀ k, t.low k = none ↔ (if k = 131071 then some 0 else none) = (none : Option Nat) := by
    intro k
    rw [h.lows k]
    split <;> simp [*]
  unfold forkTables tablesFor
  simp only [hm, hl]

/-- **The four ways a fork ends**: no slot; no memory for a process; no memory for the tables of
    page `u`, with the entries below `u` shared already; or with a child. -/
inductive ForkEnd (s s' : Sys) (i : Fin NPROC) (p : Proc) : Int → Prop where
  | full (slot : firstUnused s.proc = none) (eq : s' = s) : ForkEnd s s' i p (-1)
  | poor {j : Fin NPROC} (slot : firstUnused s.proc = some j) (short : s.mem.freelist.length < 4)
      (oom : s'.mem.oomWarned = true)
      (eq : s' = { s with mem := s'.mem, nextpid := s.nextpid + 1 }) : ForkEnd s s' i p (-1)
  | broke {j : Fin NPROC} {u : Nat} (slot : firstUnused s.proc = some j) (below : u < pages p.sz)
      (mapped : p.pagetable.leaf u ≠ none)
      (enough : 4 + forkTables p.pagetable u ≤ s.mem.freelist.length)
      (short : s.mem.freelist.length < 4 + forkTables p.pagetable (u + 1))
      (oom : s'.mem.oomWarned = true)
      (eq : s' = { s with
        mem := s'.mem
        nextpid := s.nextpid + 1
        proc := update s.proc i (.used { p with pagetable := p.pagetable.share u }) }) :
      ForkEnd s s' i p (-1)
  | done {j : Fin NPROC} {frame : Nat} {t : PageTable} (slot : firstUnused s.proc = some j)
      (paid : s.mem.freelist.length = s'.mem.freelist.length + (4 + forkTables p.pagetable (pages p.sz)))
      (leaf : ∀ v < USERVPN, t.leaf v = p.pagetable.shared (pages p.sz) v)
      (oom : s'.mem.oomWarned = s.mem.oomWarned)
      (eq : s' = { s with
        mem := s'.mem
        nextpid := s.nextpid + 1
        proc := update
          (update s.proc i (.used { p with pagetable := p.pagetable.share (pages p.sz) })) j
          (.used ⟨s.nextpid, some i, 0, frame, { p.trapframe with a0 := 0 }, t, p.sz, p.name⟩) }) :
      ForkEnd s s' i p s.nextpid.toInt

section

variable {s s' : Sys} {i j : Fin NPROC} {p np : Proc}

/-- The new process and its parent at the head. -/
theorem Born.front (h : Born s s' j np) (hi : s.proc i = .used p) :
    Inv s'.mem (np.pagetable :: p.pagetable :: tables (without s.proc i))
      (np.frame :: p.frame :: (frames (without s.proc i) ++ s.held)) := by
  have hp : (s.proc i).proc? = some p := by rw [hi]; rfl
  exact h.inv.perm ((tables_front hp).cons _) (((frames_front hp).append_right s.held).cons _)

theorem live_front (hi : (s.proc i).proc? = some p) {q : Nat} :
    Live (p.pagetable :: tables (without s.proc i)) (s.pages i p) q ↔
      Live (tables s.proc) (frames s.proc ++ s.held) q := by
  unfold Live
  rw [refs_perm (tables_front hi) ((frames_front hi).append_right s.held)]
  rfl

variable {trampoline frame sz : Nat}

/-- A process with an empty user range may be freed. -/
theorem PageTable.Fits.emptied {t t' : PageTable} (h : t.Fits trampoline frame 0)
    (hl : ∀ v, t'.leaf v = if v < USERVPN then none else t.leaf v) :
    t'.Fits trampoline frame 0 := by
  refine ⟨Nat.zero_le _, fun v hne => h.below v ?_, ?_, ?_⟩
  · rw [hl] at hne
    split at hne
    · exact absurd rfl hne
    · exact hne
  · rw [hl, if_neg (by omega), h.frame]
  · rw [hl, if_neg (by omega), h.trampoline]

theorem PageTable.Fits.share {t : PageTable} (h : t.Fits trampoline frame sz) {u : Nat}
    (hu : u ≤ USERVPN) : (t.share u).Fits trampoline frame sz := by
  refine ⟨h.size, fun v hne => h.below v ?_, ?_, ?_⟩
  · exact fun hn => hne ((PageTable.shared_none t u v).mpr hn)
  · show t.shared u USERVPN = _
    rw [PageTable.shared, if_neg (by omega), h.frame]
  · show t.shared u (USERVPN + 1) = _
    rw [PageTable.shared, if_neg (by omega), h.trampoline]

/-- The child's table has its parent's shape. -/
theorem PageTable.Fits.copied {t new new0 : PageTable} {trampoline frame frame' sz : Nat}
    (h : t.Fits trampoline frame sz) (h0 : new0.Fits trampoline frame' 0)
    (hl : ∀ v, new.leaf v = if v < pages sz then t.shared (pages sz) v
      else if v < USERVPN then none else new0.leaf v) : new.Fits trampoline frame' sz := by
  have hle := pages_le h.size
  refine ⟨h.size, fun v hne => ?_, ?_, ?_⟩
  · rw [hl] at hne
    split at hne
    · exact Or.inl ‹_›
    · split at hne
      · exact absurd rfl hne
      · rcases h0.below v hne with hlt | hv
        · rw [pages_zero] at hlt
          omega
        · exact Or.inr hv
  · rw [hl, if_neg (by omega), if_neg (by omega), h0.frame]
  · rw [hl, if_neg (by omega), if_neg (by omega), h0.trampoline]

/-- **Parent and child enter the table.** -/
theorem inv_put_child {m : Mem} {proc : Fin NPROC → Slot} (hj : (proc j).proc? = none) (hji : j ≠ i)
    (hinv : Inv m (np.pagetable :: p.pagetable :: tables (without proc i))
      (np.frame :: p.frame :: (frames (without proc i) ++ s.held))) :
    Inv m (tables (update (update proc i (.used p)) j (.used np)))
      (frames (update (update proc i (.used p)) j (.used np)) ++ s.held) := by
  have hnone : (update proc i (.used p) j).proc? = none := by
    rw [update_of_ne hji]
    exact hj
  obtain ⟨ht, hf⟩ := without_of_unused hnone
  refine inv_put (s := s) rfl ?_
  rw [ht, hf]
  exact hinv.perm ((tables_update rfl).symm.cons _) (((frames_update rfl).append_right s.held).symm.cons _)

/-- **`kfork`.** -/
theorem kfork_sat (h : SysOk s) (hi : s.proc i = .used p) :
    (kfork i p s).Returns
      fun r s' => SysOk s' ∧ ForkEnd s s' i p r ∧
        s.mem.Keeps (Seen p.pagetable.leaf (tables (without s.proc i))
          (s.pages i p)) s'.mem := by
  have hp : p.Ok s.trampoline := h.ok i p (by rw [hi]; rfl)
  -- what is kept of the parent and of the others was live before
  have hlive : ∀ q, Seen p.pagetable.leaf (tables (without s.proc i))
      (s.pages i p) q →
      Live (tables s.proc) (frames s.proc ++ s.held) q :=
    fun q hq => (live_front (by rw [hi]; rfl)).mp hq.live
  refine (allocproc_sat h.inv).bind fun o s1 ho => ?_
  cases o with
  | none =>
    cases ho with
    | full hfull => exact ⟨h, ForkEnd.full hfull rfl, Mem.Keeps.refl _⟩
    | poor slot rest inv keeps short oom =>
      refine ⟨?_, ForkEnd.poor slot short oom rest, keeps.mono hlive⟩
      rw [rest]
      exact ⟨inv, h.ok⟩
  | some r =>
    obtain ⟨j, np⟩ := r
    have hb : Born s s1 j np := ho
    have hrest := hb.rest
    obtain ⟨m1, hm1⟩ : ∃ m, m = s1.mem := ⟨_, rfl⟩
    rw [← hm1] at hrest
    have hinv1 := hb.front hi
    have hk1 := hb.keeps.mono hlive
    have hpaid := hb.paid
    rw [← hm1] at hinv1 hk1 hpaid
    rw [hrest]
    have hempty : ∀ v < USERVPN, np.pagetable.leaf v = none := fun v hv =>
      hb.new.fits.above (by rw [pages_zero]; exact Nat.zero_le _) hv
    have hseen : ∀ q, Seen p.pagetable.leaf (tables (without s.proc i))
        (s.pages i p) q →
        Seen p.pagetable.leaf (tables (without s.proc i))
          (np.frame :: p.frame :: (frames (without s.proc i) ++ s.held)) q :=
      fun q hq => hq.imp_left live_page
    have hj : (s.proc j).proc? = none := firstUnused_unused hb.slot
    have hji : j ≠ i := fun e => by rw [e, hi] at hj; cases hj
    refine (onMem_sat (uvmcopy_sat hinv1 hp.size hempty)).bind
      fun r s2 ⟨m2, hs2, hend⟩ => ?_
    subst hs2
    obtain ⟨ok, old, new⟩ := r
    dsimp only
    rw [setSlot_bind]
    rcases hend with ⟨hok, hold, hcp⟩ | ⟨hok, hoom, hk2, hleaf, u, -, hu, hmapped, hold, hinv2, hlo, hhi⟩
    · have e : old = p.pagetable.share (pages p.sz) := by
        rw [← Nat.zero_add (pages p.sz)]
        exact hold
      have hok : ok = true := hok
      subst e hok
      rw [Nat.zero_add] at hcp
      rw [if_neg (by decide), setSlot_bind]
      have hfit := PageTable.Fits.share hp (pages_le hp.size)
      have hchild : new.Fits s.trampoline np.frame p.sz := hp.copied hb.new.fits hcp.copied
      have hcost := hcp.paid
      rw [hb.new.tablesFor_eq] at hcost
      rw [hcost, Nat.add_assoc, Nat.add_comm _ 4] at hpaid
      have hleaf : ∀ v < USERVPN, new.leaf v = p.pagetable.shared (pages p.sz) v := by
        intro v hv
        rw [hcp.copied v]
        split
        · rfl
        · rename_i hlt
          rw [PageTable.shared, if_neg hlt, hp.above (Nat.not_lt.mp hlt) hv]
      have hnp : ({ np with
          pagetable := new
          sz := p.sz
          trapframe := { p.trapframe with a0 := 0 }
          name := p.name
          parent := some i } : Proc) =
          ⟨s.nextpid, some i, 0, np.frame, { p.trapframe with a0 := 0 }, new, p.sz, p.name⟩ := by
        rw [hb.eq]
      have hpid : np.pid = s.nextpid := by rw [hb.eq]
      rw [hnp, hpid]
      refine ⟨⟨inv_put_child (s := s) hj hji hcp.inv, ok_update (ok_update h.ok fun _ hr => ?_) fun _ hr => ?_⟩,
        ForkEnd.done hb.slot hpaid hleaf (hcp.oom.trans (hm1 ▸ hb.oom)) rfl,
        hk1.trans (hcp.keeps.mono hseen)⟩
      · cases hr
        exact hfit
      · cases hr
        exact hchild
    · -- the parent keeps what was shared so far, the child is freed
      have e : old = p.pagetable.share u := hold
      have hok : ok = false := hok
      subst e hok
      rw [Nat.zero_add] at hu
      rw [hb.new.tablesFor_eq] at hlo hhi
      have hsz : np.sz = 0 := by rw [hb.eq]
      rw [if_pos rfl]
      have hnp : ({ np with pagetable := new } : Proc).Ok s.trampoline := by
        rw [hsz]
        exact hb.new.fits.emptied hleaf
      refine (onMem_sat (freeproc_sat (p := { np with pagetable := new }) hinv2 hnp)).bind
        fun _ s3 ⟨m3, hs3, hinv3, hk3⟩ => ?_
      subst hs3
      have hfit := PageTable.Fits.share hp (u := u) (by have := pages_le hp.size; omega)
      refine ⟨⟨inv_put (s := s) (q := { p with pagetable := p.pagetable.share u }) rfl hinv3,
          ok_update h.ok fun _ hr => ?_⟩,
        ForkEnd.broke hb.slot hu hmapped (by omega) (by omega) (hk3.oom hoom) rfl,
        (hk1.trans (hk2.mono hseen)).trans (hk3.mono fun q hq => live_share hq u)⟩
      cases hr
      exact hfit

end

/-! ## 3. `kexit`, `kwait` -/

section

variable {s s' : Sys} {i k : Fin NPROC} {p q : Proc}

/-- What the account sees of a slot. -/
def Slot.space (x : Slot) : Option (PageTable × Nat × Nat) :=
  x.proc?.map fun p => (p.pagetable, p.frame, p.sz)

/-- **The account sees page tables, trap frames and sizes**, nothing else of a process. -/
theorem SysOk.same_spaces (h : SysOk s) {proc : Fin NPROC → Slot}
    (hp : ∀ k, (proc k).space = (s.proc k).space) : SysOk { s with proc := proc } := by
  have ht : tables proc = tables s.proc := by
    refine gather_congr fun k => ?_
    have e := congrArg (Option.map fun x => x.1) (hp k)
    unfold Slot.space at e
    rwa [Option.map_map, Option.map_map] at e
  have hf : frames proc = frames s.proc := by
    refine gather_congr fun k => ?_
    have e := congrArg (Option.map fun x => x.2.1) (hp k)
    unfold Slot.space at e
    rwa [Option.map_map, Option.map_map] at e
  refine ⟨?_, fun k p hk => ?_⟩
  · show Inv s.mem (tables proc) (frames proc ++ s.held)
    rw [ht, hf]
    exact h.inv
  · have e := hp k
    unfold Slot.space at e
    rw [hk] at e
    obtain ⟨q, hq, hpq⟩ := Option.map_eq_some_iff.mp e.symm
    have hok := h.ok k q hq
    unfold Proc.Ok at *
    rwa [show q.pagetable = p.pagetable from congrArg (·.1) hpq,
      show q.frame = p.frame from congrArg (·.2.1) hpq,
      show q.sz = p.sz from congrArg (·.2.2) hpq] at hok

theorem space_map (x : Slot) (f : Proc → Proc)
    (hf : ∀ p, ((f p).pagetable, (f p).frame, (f p).sz) = (p.pagetable, p.frame, p.sz)) :
    (x.map f).space = x.space := by
  cases x with
  | unused => rfl
  | used p => exact congrArg some (hf p)
  | zombie p => exact congrArg some (hf p)

theorem space_exit (x : Slot) (status : Int) : (x.exit status).space = x.space := by
  cases x <;> rfl

/-- The table after slot `i` exits. -/
def exited (i : Fin NPROC) (status : Int) (s : Sys) : Sys :=
  { s with proc := update (reparent i s).proc i (((reparent i s).proc i).exit status) }

/-- **`kexit`** stops only when init exits, and gives no memory back. -/
theorem kexit_sat (h : SysOk s) (status : Int) :
    (kexit i status s).Sat (fun _ s' => s' = exited i status s ∧ SysOk s')
      fun e _ => e = .initExiting := by
  unfold kexit
  rw [gets_bind]
  split
  · exact rfl
  · have hmap : ∀ k, ((reparent i s).proc k).space = (s.proc k).space := fun k =>
      space_map _ _ fun q => by split <;> rfl
    refine ⟨rfl, h.same_spaces fun k => ?_⟩
    rcases eq_or_ne k i with rfl | hk
    · rw [update_self, space_exit, hmap]
    · rw [update_of_ne hk, hmap]

theorem zombieChild_some (h : zombieChild s.proc i = some (k, q)) :
    s.proc k = .zombie q ∧ q.parent = some i := by
  obtain ⟨k', -, hk⟩ := List.exists_of_findSome?_eq_some h
  split at hk
  · split at hk
    · cases hk
      exact ⟨‹_›, ‹_›⟩
    · cases hk
  · cases hk

/-- The status of a child, given to the process that waits. -/
def Priv.report (a : Priv) (addr : Nat) (xstate : Int) : Bool × Priv :=
  if addr = 0 then (true, a) else a.copyout addr (le 4 (xstate.emod (2 ^ 32)).toNat)

/-- **How a scan of `kwait` ends.** -/
inductive WaitEnd (s s' : Sys) (i : Fin NPROC) (p : Proc) (addr : Nat) : Waited → Prop where
  | none (child : zombieChild s.proc i = none) (eq : s' = s) :
      WaitEnd s s' i p addr (if havekids s.proc i = true then .sleeps else .error)
  | refused {k : Fin NPROC} {q : Proc} {t : PageTable} (child : zombieChild s.proc i = some (k, q))
      (eq : s' = { s with
        mem := s'.mem
        proc := update s.proc i (.used { p with pagetable := t }) })
      (priv : s'.mem.oomWarned = false →
        (privOf s.mem p.pagetable p.sz).report addr q.xstate = (false, privOf s'.mem t p.sz)) :
      WaitEnd s s' i p addr .error
  | done {k : Fin NPROC} {q : Proc} {t : PageTable} (child : zombieChild s.proc i = some (k, q))
      (eq : s' = { s with
        mem := s'.mem
        proc := update (update s.proc i (.used { p with pagetable := t })) k .unused })
      (priv : s'.mem.oomWarned = false →
        (privOf s.mem p.pagetable p.sz).report addr q.xstate = (true, privOf s'.mem t p.sz)) :
      WaitEnd s s' i p addr (.pid q.pid)

/-- The memory of the processes other than the one in slot `i` that are still there. -/
def Undisturbed (s s' : Sys) (i : Fin NPROC) : Prop :=
  ∀ j r, j ≠ i → (s.proc j).proc? = some r → (s'.proc j).proc? ≠ none →
    privOf s'.mem r.pagetable r.sz = privOf s.mem r.pagetable r.sz

/-- The rest of `kwait` after the status went out, or was refused: the child is freed. -/
theorem reap_sat {k : Fin NPROC} {q : Proc} {addr : Nat} (h : SysOk s) (hi : s.proc i = .used p)
    (hz : zombieChild s.proc i = some (k, q)) {r : Bool × Space} {m1 : Mem}
    (hd : Does s.mem p.pagetable (tables (without s.proc i))
      (s.pages i p) p.sz (fun a => a.report addr q.xstate) r m1) :
    ((do
        setSlot i (.used { p with pagetable := r.2.pagetable })
        if r.1 = false then pure .error
        else do
          onMem (freeproc q)
          setSlot k .unused
          pure (.pid q.pid) : SysM Waited) { s with mem := m1 }).Returns
      fun r s' => SysOk s' ∧ WaitEnd s s' i p addr r ∧ Undisturbed s s' i ∧
        (s.mem.oomWarned = true → s'.mem.oomWarned = true) := by
  have hp : p.Ok s.trampoline := h.ok i p (by rw [hi]; rfl)
  obtain ⟨hk, -⟩ := zombieChild_some hz
  have hki : k ≠ i := fun e => by rw [e, hi] at hk; cases hk
  obtain ⟨t, hr, hmv, hg⟩ := hd
  obtain ⟨ok, sp⟩ := r
  have hsp : sp = ⟨t, p.sz, none⟩ := hr
  subst hsp
  rw [setSlot_bind]
  dsimp only
  have hmid : SysOk { s with
      mem := m1
      proc := update s.proc i (.used { p with pagetable := t }) } :=
    h.put (q := { p with pagetable := t }) rfl hmv.inv (hp.of_moved hmv)
  have hothers : ∀ j r, j ≠ i → (s.proc j).proc? = some r →
      privOf m1 r.pagetable r.sz = privOf s.mem r.pagetable r.sz := fun j r hj hr =>
    privOf_keep hmv.keeps (mem_tables_without hj hr) r.sz
  cases ok with
  | false =>
    rw [if_pos rfl]
    exact ⟨hmid, WaitEnd.refused hz rfl hg, fun j r hj hr _ => hothers j r hj hr, hmv.keeps.oom⟩
  | true =>
    rw [if_neg (by decide)]
    have hk' : (update s.proc i (.used { p with pagetable := t }) k).proc? = some q := by
      rw [update_of_ne hki, hk]
      rfl
    have hq : q.Ok s.trampoline := h.ok k q (by rw [hk]; rfl)
    refine (onMem_sat (freeproc_sat (hmid.front hk') hq)).bind
      fun _ s2 ⟨m2, hs2, hinv2, hk2⟩ => ?_
    subst hs2
    have hkeep : ∀ j r, j ≠ k →
        (update s.proc i (.used { p with pagetable := t }) j).proc? = some r →
        privOf m2 r.pagetable r.sz = privOf m1 r.pagetable r.sz := fun j r hj hr =>
      privOf_keep hk2 (mem_tables_without hj hr) r.sz
    refine ⟨hmid.clear hinv2, WaitEnd.done hz rfl fun ho => ?_, fun j r hj hr hne => ?_,
      fun ho => hk2.oom (hmv.keeps.oom ho)⟩
    · have hsame := hkeep i { p with pagetable := t } (fun e => hki e.symm)
        (by rw [update_self]; rfl)
      exact (hg (hk2.oom_false ho)).trans (congrArg (Prod.mk true) hsame.symm)
    · have hjk : j ≠ k := by
        rintro rfl
        refine hne ?_
        exact congrArg Slot.proc? (update_self (β := fun _ => Slot) j Slot.unused _)
      exact (hkeep j r hjk (by rw [update_of_ne hj, hr])).trans (hothers j r hj hr)

/-- **`kwait`.** -/
theorem kwait_sat (h : SysOk s) (hi : s.proc i = .used p) (addr : Nat) :
    (kwait i p addr s).Returns
      fun r s' => SysOk s' ∧ WaitEnd s s' i p addr r ∧ Undisturbed s s' i ∧
        (s.mem.oomWarned = true → s'.mem.oomWarned = true) := by
  have hp : p.Ok s.trampoline := h.ok i p (by rw [hi]; rfl)
  have hinv := h.front (i := i) (p := p) (by rw [hi]; rfl)
  unfold kwait
  rw [read_bind]
  cases hz : zombieChild s.proc i with
  | none =>
    have hend : WaitEnd s s i p addr _ := WaitEnd.none hz rfl
    dsimp only
    split
    · rw [if_pos ‹_›] at hend
      exact ⟨h, hend, fun _ _ _ _ _ => rfl, id⟩
    · rw [if_neg ‹_›] at hend
      exact ⟨h, hend, fun _ _ _ _ _ => rfl, id⟩
  | some r =>
    obtain ⟨k, q⟩ := r
    split
    · have hd : Does s.mem p.pagetable (tables (without s.proc i))
          (s.pages i p) p.sz (fun a => a.report addr q.xstate)
          (true, ⟨p.pagetable, p.sz, none⟩) s.mem :=
        ⟨p.pagetable, rfl, Moved.refl hinv _, fun _ => if_pos ‹_›⟩
      exact reap_sat h hi hz hd
    · refine (onMem_sat (copyout_sat hinv hp.fenced hp.size _ _)).bind
        fun r s1 ⟨m1, hs1, t, hr, hmv, hg⟩ => ?_
      rw [hs1]
      exact reap_sat (r := r) h hi hz ⟨t, hr, hmv, fun ho => (if_neg ‹_›).trans (hg ho)⟩

end

/-! ## 4. Pipes -/

section

variable {s : Sys}

/-- What the pipes of a system do to it: memory and the list of pipes, nothing else. -/
structure Piped (s s' : Sys) : Prop where
  eq : s' = { s with mem := s'.mem, pipes := s'.pipes }
  ok : SysOk s'
  keeps : s.mem.Keeps (Live (tables s.proc) (frames s.proc)) s'.mem

/-- A page more, or less, among those the kernel holds. -/
theorem SysOk.rehold (h : SysOk s) {m' : Mem} {l : List Pipe}
    (hinv : Inv m' (tables s.proc) (frames s.proc ++ (l.map (·.page) ++ s.kernel))) :
    SysOk { s with mem := m', pipes := l } :=
  ⟨hinv, h.ok⟩

theorem live_held {ts : List PageTable} {ks ks' : List Nat} {q : Nat} (h : Live ts ks q) :
    Live ts (ks ++ ks') q := by
  unfold Live refs kernRefs at *
  rw [List.count_append]
  omega

/-- **`pipealloc`.** -/
theorem pipealloc_sat (h : SysOk s) :
    (pipealloc s).Returns
      fun b s' => Piped s s' ∧ (b = false → s'.mem.oomWarned = true) := by
  refine (onMem_sat (kalloc_inv h.inv)).bind fun o s1 ⟨m1, hs1, ho⟩ => ?_
  subst hs1
  cases o with
  | none =>
    obtain ⟨-, rfl⟩ := ho
    exact ⟨⟨rfl, ⟨h.inv.setOom, h.ok⟩, ⟨rfl, fun _ _ => rfl, fun _ => rfl⟩⟩, fun _ => rfl⟩
  | some page =>
    obtain ⟨hfree, htook, hinv1⟩ := ho
    refine ⟨⟨rfl, h.rehold (hinv1.perm (List.Perm.refl _) List.perm_middle.symm), ?_⟩, nofun⟩
    refine htook.keeps fun hl => ?_
    have : Live (tables s.proc) (frames s.proc ++ s.held) page := live_held hl
    unfold Live at this
    omega

/-- **`pipeclose`.** -/
theorem pipeclose_sat (h : SysOk s) (k : Nat) (writable : Bool) :
    (pipeclose k writable s).Returns fun _ s' => Piped s s' := by
  unfold pipeclose
  rw [gets_bind]
  cases hk : s.pipes[k]? with
  | none => exact ⟨rfl, h, Mem.Keeps.refl _⟩
  | some pi =>
    dsimp only
    have hpage : (if writable = true then { pi with writeopen := false }
        else { pi with readopen := false }).page = pi.page := by split <;> rfl
    generalize (if writable = true then { pi with writeopen := false }
        else { pi with readopen := false }) = pi' at hpage
    obtain ⟨hlt, hget⟩ := List.getElem?_eq_some_iff.mp hk
    split
    · rw [update_bind, hpage]
      have hperm : (s.pipes.map (·.page)).Perm (pi.page :: (s.pipes.eraseIdx k).map (·.page)) := by
        have e := (List.getElem_cons_eraseIdx_perm hlt).symm.map (·.page)
        rwa [hget] at e
      have hinv : Inv s.mem (tables s.proc)
          (pi.page :: (frames s.proc ++ ((s.pipes.eraseIdx k).map (·.page) ++ s.kernel))) :=
        h.inv.perm (List.Perm.refl _)
          (((hperm.append_right s.kernel).append_left (frames s.proc)).trans List.perm_middle)
      refine (onMem_sat (s := { s with pipes := s.pipes.eraseIdx k }) (kfree_inv hinv)).imp
        fun _ s1 ⟨m1, hs1, hinv1, hk1⟩ => ?_
      rw [hs1]
      exact ⟨rfl, h.rehold hinv1, hk1.mono fun _ hq => live_held hq⟩
    · refine ⟨rfl, h.rehold ?_, Mem.Keeps.refl _⟩
      have hset : (s.pipes.set k pi').map (·.page) = s.pipes.map (·.page) := by
        have hmap : (s.pipes.map (·.page))[k]? = some pi.page := by
          rw [List.getElem?_map, hk]
          rfl
        obtain ⟨hlt', hget'⟩ := List.getElem?_eq_some_iff.mp hmap
        rw [List.map_set, hpage, ← hget']
        exact List.set_getElem_self hlt'
      rw [hset]
      exact h.inv

end

end HaiOS.Vm
