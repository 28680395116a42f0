/-
  File:      HaiOS/Log/Group.lean
  Subject:   THE GROUP-COMMIT PROTOCOL of kernel/log.c: any number of processes run FS system
             calls, each between `begin_op` and `end_op`; the last one out commits for all.

  The machine steps at lock granularity. A step of a process is one critical section under
  `log.lock` (Log/Core.lean) or, while it runs `commit()`, one turn of the loops of `write_log`
  and `install_trans` or one of the statements between them. A process asleep in `begin_op`
  may take another turn of its loop at any time, so every schedule of the wakeups is covered.

  * `Inv` -- the invariant. Its core is the RESERVATION `room`: the blocks in the log and what
    each operation in flight may still add fit in the log. A late `begin_op` reserves its share,
    an early `end_op` gives its rest back, an absorbed block costs nothing;
  * `groupCommit_safe` -- what the protocol promises, on every reachable state;
  * `logWrite_overflow_iff` -- when the overflow test of `log_write`, which comes before the
    absorption, stops an operation that keeps within its budget.
-/
import HaiOS.Lib.Machine
import HaiOS.Lib.Count
import HaiOS.Log.Core

namespace HaiOS.Group

open Lib Function

/-- How far a process is in `commit()` and the rest of `end_op`. -/
inductive Stage where
  /-- at the test `log.lh.n > 0` -/
  | enter
  /-- in the loop of `write_log` -/
  | writeLog (tail : Nat)
  /-- at the first `write_head`, the real commit -/
  | writeHead
  /-- in the loop of `install_trans(0)` -/
  | install (tail : Nat)
  /-- at `log.lh.n = 0` -/
  | clear
  /-- at the second `write_head` -/
  | eraseHead
  /-- at the last critical section of `end_op` -/
  | leave
  deriving DecidableEq

/-- Where a process stands in the protocol. -/
inductive Pc where
  /-- in no FS system call -/
  | idle
  /-- in the loop of `begin_op`, awake or asleep -/
  | entering
  /-- between `begin_op` and `end_op`; the distinct blocks it has logged -/
  | op (blocks : List Nat)
  /-- in `commit()` or after it, in `end_op` -/
  | commit (st : Stage)
  deriving DecidableEq

/-- The log, the processes, and the history since the last commit: the blocks logged, and how
    often each block's buffer was pinned and unpinned. -/
structure Sys (ι : Type) where
  log : Log
  pc : ι → Pc
  logged : List Nat
  pins : Nat → Nat
  unpins : Nat → Nat

/-- What a process can do next. -/
inductive Act where
  | call
  | beginOp
  | logWrite (b : Nat)
  | endOp
  | commit

variable {ι : Type} [DecidableEq ι]

/-- Process `i` moves to `p`. -/
def Sys.goto (s : Sys ι) (i : ι) (p : Pc) : Sys ι := { s with pc := update s.pc i p }

/-- `n` plus one at `b`. -/
def bump (n : Nat → Nat) (b : Nat) : Nat → Nat := fun x => if x = b then n x + 1 else n x

/-- The operation's blocks after it logs `b`. -/
def addBlock (blocks : List Nat) (b : Nat) : List Nat :=
  if b ∈ blocks then blocks else b :: blocks

/-- One step of process `i` in `commit()`, at stage `st`. -/
def commitStep (s : Sys ι) (i : ι) : Stage → Sys ι
  | .enter =>
    if s.log.lh.length > 0 then s.goto i (.commit (.writeLog 0)) else s.goto i (.commit .leave)
  | .writeLog tail =>
    if tail < s.log.lh.length then s.goto i (.commit (.writeLog (tail + 1)))
    else s.goto i (.commit .writeHead)
  | .writeHead => s.goto i (.commit (.install 0))
  | .install tail =>
    match s.log.lh[tail]? with
    | some b => { s.goto i (.commit (.install (tail + 1))) with unpins := bump s.unpins b }
    | none => s.goto i (.commit .clear)
  | .clear =>
    -- the transaction is over: the history starts again
    { s.goto i (.commit .eraseHead) with
      log := { s.log with lh := [] }, logged := [], pins := fun _ => 0, unpins := fun _ => 0 }
  | .eraseHead => s.goto i (.commit .leave)
  | .leave => { s.goto i .idle with log := s.log.committed }

/-- **One step of process `i`**: `none` where the process cannot take it. An operation logs at
    most `MAXOPBLOCKS` distinct blocks, the promise of the callers; it may log each of them any
    number of times. -/
def step (s : Sys ι) (i : ι) : Act → Option (Except Panic (Sys ι))
  | .call =>
    match s.pc i with
    | .idle => some (.ok (s.goto i .entering))
    | _ => none
  | .beginOp =>
    match s.pc i, s.log.beginOp with
    | .entering, some l => some (.ok { s.goto i (.op []) with log := l })
    | .entering, none => some (.ok s)
    | _, _ => none
  | .logWrite b =>
    match s.pc i with
    | .op blocks =>
      if (addBlock blocks b).length ≤ MAXOPBLOCKS then
        match s.log.logWrite b with
        | .error p => some (.error p)
        | .ok (l, new) =>
          some (.ok { s.goto i (.op (addBlock blocks b)) with
            log := l, logged := b :: s.logged,
            pins := if new then bump s.pins b else s.pins })
      else none
    | _ => none
  | .endOp =>
    match s.pc i with
    | .op _ =>
      match s.log.endOp with
      | .error p => some (.error p)
      | .ok (l, true) => some (.ok { s.goto i (.commit .enter) with log := l })
      | .ok (l, false) => some (.ok { s.goto i .idle with log := l })
    | _ => none
  | .commit =>
    match s.pc i with
    | .commit st => some (.ok (commitStep s i st))
    | _ => none

/-- After `initlog`: an empty log, no process in it, nothing logged. -/
def Initial (s : Sys ι) : Prop :=
  s.log.outstanding = 0 ∧ s.log.committing = false ∧ s.log.lh = [] ∧ (∀ i, s.pc i = .idle) ∧
  s.logged = [] ∧ (∀ b, s.pins b = 0) ∧ ∀ b, s.unpins b = 0

/-- The state `initlog` leaves. -/
def boot (start : Nat) : Sys ι :=
  { log := ⟨start, 0, false, []⟩, pc := fun _ => .idle, logged := [], pins := fun _ => 0,
    unpins := fun _ => 0 }

/-- The states any interleaving of the processes reaches. -/
def Reachable : Sys ι → Prop :=
  Reach Initial fun s s' => ∃ i a, step s i a = some (.ok s')

/-! ## 1. The measures of a process -/

/-- One for each operation in flight. -/
def inOp : Pc → Nat
  | .op _ => 1
  | _ => 0

/-- One for each process in `commit()`. -/
def inCommit : Pc → Nat
  | .commit _ => 1
  | _ => 0

/-- What the process may still add to the log. -/
def reserve : Pc → Nat
  | .op blocks => MAXOPBLOCKS - blocks.length
  | _ => 0

/-- The blocks of `lh` whose buffers the commit at stage `st` has unpinned. -/
def released (lh : List Nat) : Stage → List Nat
  | .install tail => lh.take tail
  | .clear => lh
  | _ => []

/-- One at the members of `l`, zero elsewhere. -/
def once (l : List Nat) (b : Nat) : Nat := if b ∈ l then 1 else 0

/-- A commit unpins blocks of the log only. -/
theorem once_released_le (lh : List Nat) (st : Stage) (b : Nat) :
    once (released lh st) b ≤ once lh b := by
  unfold once
  by_cases hb : b ∈ released lh st
  · have hm : b ∈ lh := by
      cases st with
      | install tail => exact List.mem_of_mem_take hb
      | clear => exact hb
      | _ => exact absurd hb List.not_mem_nil
    rw [if_pos hb, if_pos hm]
  · rw [if_neg hb]
    exact Nat.zero_le _

variable [Fintype ι]

/-- **The invariant of the protocol.** -/
structure Inv (s : Sys ι) : Prop where
  outstanding : s.log.outstanding = (total Finset.univ inOp s.pc : Nat)
  committing : (if s.log.committing then 1 else 0) = total Finset.univ inCommit s.pc
  alone : s.log.committing = true → s.log.outstanding = 0
  nodup : s.log.lh.Nodup
  room : s.log.lh.length + total Finset.univ reserve s.pc ≤ LOGBLOCKS
  own : ∀ i blocks, s.pc i = .op blocks →
    blocks.length ≤ MAXOPBLOCKS ∧ ∀ b ∈ blocks, b ∈ s.log.lh
  logged : ∀ b, b ∈ s.logged ↔ b ∈ s.log.lh
  pins : ∀ b, s.pins b = once s.log.lh b
  unpinsIdle : s.log.committing = false → ∀ b, s.unpins b = 0
  unpins : ∀ i st, s.pc i = .commit st → ∀ b, s.unpins b = once (released s.log.lh st) b

omit [DecidableEq ι] in
theorem inv_initial {s : Sys ι} (h : Initial s) : Inv s := by
  obtain ⟨h1, h2, h3, h4, h5, h6, h7⟩ := h
  have hz : ∀ f : Pc → Nat, f .idle = 0 → total Finset.univ f s.pc = 0 := fun f hf =>
    total_eq_zero.mpr fun i _ => by rw [h4 i, hf]
  refine ⟨?_, ?_, fun _ => h1, ?_, ?_, ?_, ?_, ?_, fun _ => h7, ?_⟩
  · rw [h1, hz inOp rfl]; rfl
  · rw [h2, hz inCommit rfl]; rfl
  · rw [h3]; exact List.nodup_nil
  · rw [h3, hz reserve rfl]; decide
  · intro i blocks hi; rw [h4 i] at hi; cases hi
  · intro b; rw [h3, h5]
  · intro b; rw [h6, h3]; rfl
  · intro i st hi; rw [h4 i] at hi; cases hi

section Facts

variable {s : Sys ι} {i j : ι}

omit [DecidableEq ι] in
/-- While a process commits no operation is in flight. -/
theorem Inv.no_op (h : Inv s) (hc : s.log.committing = true) (i : ι) (blocks : List Nat) :
    s.pc i ≠ .op blocks := by
  intro hi
  have h0 := h.alone hc
  rw [h.outstanding] at h0
  have h1 := le_total inOp s.pc (Finset.mem_univ i)
  rw [hi] at h1
  simp only [inOp] at h1
  omega

omit [DecidableEq ι] in
theorem Inv.committing_of (h : Inv s) {st : Stage} (hi : s.pc i = .commit st) :
    s.log.committing = true := by
  have h1 := le_total inCommit s.pc (Finset.mem_univ i)
  rw [hi, ← h.committing] at h1
  simp only [inCommit] at h1
  cases hc : s.log.committing with
  | true => rfl
  | false => rw [hc] at h1; simp at h1

theorem Inv.one_commit (h : Inv s) {st st' : Stage} (hi : s.pc i = .commit st)
    (hj : s.pc j = .commit st') : i = j := by
  by_contra hne
  have h1 := add_le_total inCommit s.pc (Finset.mem_univ i) (Finset.mem_univ j) hne
  rw [hi, hj, ← h.committing, h.committing_of hi] at h1
  simp [inCommit] at h1

omit [DecidableEq ι] in
/-- An operation in flight has not set `committing`, and counts as outstanding. -/
theorem Inv.op_not_committing (h : Inv s) {blocks : List Nat} (hi : s.pc i = .op blocks) :
    s.log.committing = false ∧ 1 ≤ s.log.outstanding := by
  refine ⟨?_, ?_⟩
  · cases hc : s.log.committing with
    | false => rfl
    | true => exact absurd hi (h.no_op hc i blocks)
  · rw [h.outstanding]
    have h1 := le_total inOp s.pc (Finset.mem_univ i)
    rw [hi] at h1
    simp only [inOp] at h1
    omega

omit [Fintype ι] in
theorem update_pc {pc : ι → Pc} {p q : Pc} (h : update pc i p j = q) :
    (j = i ∧ p = q) ∨ (j ≠ i ∧ pc j = q) := by
  by_cases hj : j = i
  · subst hj
    exact Or.inl ⟨rfl, by simpa using h⟩
  · exact Or.inr ⟨hj, by simpa [update_of_ne hj] using h⟩

end Facts

/-! ## 2. Every step keeps the invariant -/

section Steps

variable {s s' : Sys ι} {i : ι}

/-- **One process moves to `p`**: the three counts follow from what the step does to the log
    and to the process; the rest is said of the new state. -/
theorem inv_move {p : Pc} (h : Inv s) (hpc : s'.pc = update s.pc i p)
    (hout : s'.log.outstanding + inOp (s.pc i) = s.log.outstanding + inOp p)
    (hcom : (if s'.log.committing then 1 else 0) + inCommit (s.pc i) =
      (if s.log.committing then 1 else 0) + inCommit p)
    (halone : s'.log.committing = true → s'.log.outstanding = 0)
    (hnodup : s'.log.lh.Nodup)
    (hroom : s'.log.lh.length + total Finset.univ reserve s.pc + reserve p ≤
      LOGBLOCKS + reserve (s.pc i))
    (hown : ∀ b ∈ s.log.lh, inOp p = 1 → b ∈ s'.log.lh)
    (hrest : inOp p = 0 → s'.log.lh = s.log.lh ∨ s.log.committing = true)
    (hp : ∀ blocks, p = .op blocks → blocks.length ≤ MAXOPBLOCKS ∧ ∀ b ∈ blocks, b ∈ s'.log.lh)
    (hlogged : ∀ b, b ∈ s'.logged ↔ b ∈ s'.log.lh) (hpins : ∀ b, s'.pins b = once s'.log.lh b)
    (hidle : s'.log.committing = false → ∀ b, s'.unpins b = 0)
    (hcommit : ∀ st, p = .commit st → ∀ b, s'.unpins b = once (released s'.log.lh st) b)
    (hother : ∀ j st, j ≠ i → s.pc j = .commit st →
      ∀ b, s'.unpins b = once (released s'.log.lh st) b) : Inv s' := by
  have t1 := total_update inOp s.pc (Finset.mem_univ i) p
  have t2 := total_update inCommit s.pc (Finset.mem_univ i) p
  have t3 := total_update reserve s.pc (Finset.mem_univ i) p
  rw [← hpc] at t1 t2 t3
  have h1 := h.outstanding
  have h2 := h.committing
  refine ⟨by omega, by omega, halone, hnodup, by omega, ?_, hlogged, hpins, hidle, ?_⟩
  · intro j blocks hj
    rw [hpc] at hj
    rcases update_pc hj with ⟨_, e⟩ | ⟨_, e⟩
    · exact hp blocks e
    · obtain ⟨hlen, hsub⟩ := h.own j blocks e
      refine ⟨hlen, fun b hb => ?_⟩
      -- the log keeps the other operations' blocks: it only grows while one is in flight
      by_cases hin : inOp p = 1
      · exact hown b (hsub b hb) hin
      · have h0 : inOp p = 0 := by cases p <;> simp_all [inOp]
        rcases hrest h0 with hlh | hc
        · rw [hlh]; exact hsub b hb
        · exact absurd e (h.no_op hc j blocks)
  · intro j st hj
    rw [hpc] at hj
    rcases update_pc hj with ⟨_, e⟩ | ⟨hne, e⟩
    · exact hcommit st e
    · exact hother j st hne e

/-- A move that leaves the log, the history and the counts as they are. -/
theorem inv_goto {p : Pc} (h : Inv s) (h1 : inOp (s.pc i) = 0 ∧ inOp p = 0)
    (h2 : inCommit (s.pc i) = inCommit p)
    (h3 : ∀ st, p = .commit st → ∀ b, s.unpins b = once (released s.log.lh st) b) :
    Inv (s.goto i p) := by
  have hr : ∀ q : Pc, inOp q = 0 → reserve q = 0 := by
    intro q hq
    cases q <;> simp_all [inOp, reserve]
  have hroom := h.room
  refine inv_move (p := p) h rfl ?_ ?_ h.alone h.nodup ?_ (fun b hb _ => hb) (fun _ => Or.inl rfl)
    ?_ h.logged h.pins h.unpinsIdle h3 fun j st _ hj => h.unpins j st hj
  · rw [h1.1, h1.2]; rfl
  · rw [h2]; rfl
  · rw [hr _ h1.1, hr _ h1.2]; exact hroom
  · intro blocks e
    rw [e] at h1
    cases h1.2

theorem inv_call (h : Inv s) (hi : s.pc i = .idle) : Inv (s.goto i .entering) :=
  inv_goto h (by rw [hi]; exact ⟨rfl, rfl⟩) (by rw [hi]; rfl) fun _ e => by cases e

omit [DecidableEq ι] in
/-- The operations in flight have reserved at most their whole shares. -/
theorem reserve_le (pc : ι → Pc) :
    total Finset.univ reserve pc ≤ total Finset.univ inOp pc * MAXOPBLOCKS := by
  unfold total
  rw [Finset.sum_mul]
  refine Finset.sum_le_sum fun j _ => ?_
  cases pc j <;> simp [reserve, inOp]

/-- **`begin_op` reserves its share**: the admission test leaves room for it. -/
theorem inv_beginOp {l : Log} (h : Inv s) (hi : s.pc i = .entering) (hl : s.log.beginOp = some l) :
    Inv { s.goto i (.op []) with log := l } := by
  obtain ⟨hc, hadmit, rfl⟩ := Log.beginOp_some hl
  have hres := reserve_le s.pc
  have hout := h.outstanding
  refine inv_move (p := .op []) h rfl ?_ ?_ ?_ h.nodup ?_ (fun b hb _ => hb) ?_ ?_ h.logged h.pins
    h.unpinsIdle ?_ fun j st _ hj => h.unpins j st hj
  · rw [hi]; simp [inOp]
  · rw [hi]; simp [inCommit]
  · intro hc'
    rw [show s.log.committing = true from hc'] at hc
    cases hc
  · show s.log.lh.length + total Finset.univ reserve s.pc + MAXOPBLOCKS ≤ LOGBLOCKS + reserve (s.pc i)
    rw [hi]
    simp only [reserve, MAXOPBLOCKS, LOGBLOCKS] at hres hadmit ⊢
    omega
  · intro e; cases e
  · intro blocks e
    cases e
    exact ⟨by simp, by simp⟩
  · intro st e; cases e

variable {blocks : List Nat}

theorem mem_addBlock {b x : Nat} :
    x ∈ addBlock blocks b ↔ x = b ∨ x ∈ blocks := by
  unfold addBlock
  split
  · rename_i hb
    constructor
    · exact Or.inr
    · rintro (rfl | hx)
      · exact hb
      · exact hx
  · exact List.mem_cons

variable {b n : Nat}

theorem once_snoc {l : List Nat} (hb : b ∉ l) (x : Nat) :
    bump (once l) b x = once (l ++ [b]) x := by
  unfold bump once
  by_cases hx : x = b
  · subst hx
    simp [hb]
  · simp [hx]

/-- **A `log_write` takes at most what its operation has reserved**: a block new in the log is
    new in the operation too, and an absorbed one adds nothing to the log. -/
theorem inv_logWrite {l : Log} {new : Bool} (h : Inv s) (hi : s.pc i = .op blocks)
    (hlen : (addBlock blocks b).length ≤ MAXOPBLOCKS) (hl : s.log.logWrite b = .ok (l, new)) :
    Inv { s.goto i (.op (addBlock blocks b)) with
      log := l, logged := b :: s.logged, pins := if new then bump s.pins b else s.pins } := by
  obtain ⟨-, -, hcase⟩ := Log.logWrite_ok hl
  obtain ⟨hnc, -⟩ := h.op_not_committing hi
  obtain ⟨hold, hsub⟩ := h.own i blocks hi
  have hroom := h.room
  have hother : ∀ j st, s.pc j ≠ .commit st := by
    intro j st hj
    have := h.committing_of hj
    rw [hnc] at this
    cases this
  rcases hcase with ⟨hb, rfl, rfl⟩ | ⟨hb, rfl, rfl⟩
  · -- absorbed: the log stays as it is, the operation's rest does not grow
    have hge : blocks.length ≤ (addBlock blocks b).length := by
      unfold addBlock
      split <;> simp
    refine inv_move (p := .op (addBlock blocks b)) h rfl ?_ ?_ h.alone h.nodup ?_
      (fun b hb _ => hb) ?_ ?_ ?_ h.pins h.unpinsIdle ?_ fun j st _ hj => absurd hj (hother j st)
    · rw [hi]; rfl
    · rw [hi]; rfl
    · rw [hi]
      simp only [reserve]
      omega
    · intro e; cases e
    · intro bs e
      cases e
      refine ⟨hlen, fun x hx => ?_⟩
      rcases mem_addBlock.mp hx with rfl | hx
      · exact hb
      · exact hsub x hx
    · intro x
      rw [List.mem_cons, h.logged]
      exact ⟨fun hx => hx.elim (fun e => e ▸ hb) id, Or.inr⟩
    · intro st e; cases e
  · -- appended: the operation had not logged `b`, so its reserve shrinks by one
    have hnew : addBlock blocks b = b :: blocks := by
      unfold addBlock
      rw [if_neg fun hm => hb (hsub b hm)]
    rw [hnew] at hlen ⊢
    have hpins : s.pins = once s.log.lh := funext h.pins
    refine inv_move (p := .op (b :: blocks)) h rfl ?_ ?_ h.alone ?_ ?_
      (fun x hx _ => List.mem_append_left _ hx) ?_ ?_ ?_ ?_ h.unpinsIdle ?_
      fun j st _ hj => absurd hj (hother j st)
    · rw [hi]; rfl
    · rw [hi]; rfl
    · show (s.log.lh ++ [b]).Nodup
      exact List.nodup_append.mpr ⟨h.nodup, List.nodup_singleton b, fun x hx y hy e =>
        hb (List.mem_singleton.mp hy ▸ e ▸ hx)⟩
    · show (s.log.lh ++ [b]).length + _ + _ ≤ _
      rw [hi]
      simp only [reserve, List.length_append, List.length_cons, List.length_nil] at hlen ⊢
      omega
    · intro e; cases e
    · intro bs e
      cases e
      refine ⟨hlen, fun x hx => List.mem_append.mpr ?_⟩
      rcases List.mem_cons.mp hx with rfl | hx
      · exact Or.inr (List.mem_singleton_self x)
      · exact Or.inl (hsub x hx)
    · intro x
      rw [List.mem_cons, h.logged, List.mem_append, List.mem_singleton]
      exact or_comm
    · intro x
      rw [hpins]
      exact once_snoc hb x
    · intro st e; cases e

/-- **`end_op` gives its reserve back**; the last one out becomes the committer. -/
theorem inv_endOp {l : Log} {doCommit : Bool} (h : Inv s) (hi : s.pc i = .op blocks)
    (hl : s.log.endOp = .ok (l, doCommit)) :
    Inv { s.goto i (if doCommit then .commit .enter else .idle) with log := l } := by
  obtain ⟨hnc, hcase⟩ := Log.endOp_ok hl
  have hroom := h.room
  have hz := h.unpinsIdle hnc
  rcases hcase with ⟨h1, rfl, rfl⟩ | ⟨h1, rfl, rfl⟩
  · refine inv_move (p := .commit .enter) h rfl ?_ ?_ (fun _ => rfl) h.nodup ?_ (fun b hb _ => hb)
      (fun _ => Or.inl rfl) ?_ h.logged h.pins ?_ ?_ fun j st _ hj => h.unpins j st hj
    · rw [hi, h1]; rfl
    · rw [hi, hnc]; rfl
    · rw [hi]
      simp only [reserve]
      omega
    · intro bs e; cases e
    · intro hc; cases hc
    · intro st e
      cases e
      exact hz
  · refine inv_move (p := .idle) h rfl ?_ ?_ ?_ h.nodup ?_ (fun b hb _ => hb)
      (fun _ => Or.inl rfl) ?_ h.logged h.pins h.unpinsIdle ?_ fun j st _ hj => h.unpins j st hj
    · rw [hi]
      simp [inOp]
    · rw [hi]; rfl
    · intro hc
      rw [show s.log.committing = true from hc] at hnc
      cases hnc
    · rw [hi]
      simp only [reserve]
      omega
    · intro bs e; cases e
    · intro st e; cases e

theorem take_succ_of_getElem? {l : List Nat} (h : l[n]? = some b) :
    l.take (n + 1) = l.take n ++ [b] := by
  rw [List.take_add_one, h]
  rfl

/-- The next block to install has not been unpinned yet. -/
theorem notMem_take_of_getElem? {l : List Nat} (hn : l.Nodup) (h : l[n]? = some b) :
    b ∉ l.take n := by
  have h1 := hn.sublist (List.take_sublist (n + 1) l)
  rw [take_succ_of_getElem? h] at h1
  intro hb
  exact (List.nodup_append.mp h1).2.2 b hb b (List.mem_singleton_self b) rfl

/-- **Every step of `commit()`**: `install_trans` unpins the blocks of the log one after the
    other, and the history starts again when the log is cleared. -/
theorem inv_commitStep {st : Stage} (h : Inv s) (hi : s.pc i = .commit st) :
    Inv (commitStep s i st) := by
  have hc := h.committing_of hi
  have hun := h.unpins i st hi
  have hroom := h.room
  have hother : ∀ j st', j ≠ i → s.pc j ≠ .commit st' :=
    fun j st' hne hj => hne (h.one_commit hj hi)
  -- a step that only moves on
  have hstay : ∀ st', (∀ b, once (released s.log.lh st) b = once (released s.log.lh st') b) →
      Inv (s.goto i (.commit st')) := by
    intro st' hsame
    refine inv_goto h (by rw [hi]; exact ⟨rfl, rfl⟩) (by rw [hi]; rfl) fun st'' e b => ?_
    cases e
    rw [hun b, hsame b]
  cases st with
  | enter =>
    simp only [commitStep]
    split
    · exact hstay _ fun _ => rfl
    · exact hstay _ fun _ => rfl
  | writeLog tail =>
    simp only [commitStep]
    split
    · exact hstay _ fun _ => rfl
    · exact hstay _ fun _ => rfl
  | writeHead =>
    refine hstay _ fun b => ?_
    simp [released]
  | install tail =>
    simp only [commitStep]
    split
    · rename_i b hb
      have hfresh := notMem_take_of_getElem? h.nodup hb
      refine inv_move (p := .commit (.install (tail + 1))) h rfl ?_ ?_ h.alone h.nodup ?_
        (fun b hb _ => hb) (fun _ => Or.inl rfl) ?_ h.logged h.pins ?_ ?_
        fun j st' hne hj => absurd hj (hother j st' hne)
      · rw [hi]; rfl
      · rw [hi]; rfl
      · rw [hi]; exact hroom
      · intro bs e; cases e
      · intro hc'
        rw [show s.log.committing = false from hc'] at hc
        cases hc
      · intro st' e
        cases e
        intro x
        show bump s.unpins b x = once (s.log.lh.take (tail + 1)) x
        rw [take_succ_of_getElem? hb, ← once_snoc hfresh]
        unfold bump
        rw [hun x]
        rfl
    · rename_i hnone
      refine hstay _ fun b => ?_
      show once (s.log.lh.take tail) b = once s.log.lh b
      rw [List.take_of_length_le (List.getElem?_eq_none_iff.mp hnone)]
  | clear =>
    refine inv_move (p := .commit .eraseHead) h rfl ?_ ?_ h.alone List.nodup_nil ?_ ?_
      (fun _ => Or.inr hc) ?_ (fun _ => Iff.rfl) (fun _ => rfl) (fun _ _ => rfl) ?_
      fun j st' hne hj => absurd hj (hother j st' hne)
    · rw [hi]; rfl
    · rw [hi]; rfl
    · show 0 + _ + _ ≤ _
      rw [hi]
      simp only [reserve]
      omega
    · intro b _ e; cases e
    · intro bs e; cases e
    · intro st' e
      cases e
      exact fun _ => rfl
  | eraseHead => exact hstay _ fun _ => rfl
  | leave =>
    refine inv_move (p := .idle) h rfl ?_ ?_ ?_ h.nodup ?_ (fun b hb _ => hb)
      (fun _ => Or.inl rfl) ?_ h.logged h.pins ?_ ?_
      fun j st' hne hj => absurd hj (hother j st' hne)
    · rw [hi]; rfl
    · rw [hi, hc]; rfl
    · intro hc'; cases hc'
    · rw [hi]; exact hroom
    · intro bs e; cases e
    · intro _ b
      exact hun b
    · intro st' e; cases e

/-- **Every step keeps the invariant.** -/
theorem inv_step {a : Act} (h : Inv s) (hs : step s i a = some (.ok s')) : Inv s' := by
  cases a with
  | call =>
    simp only [step] at hs
    split at hs
    · rename_i hi
      simp only [Option.some.injEq, Except.ok.injEq] at hs
      exact hs ▸ inv_call h hi
    · cases hs
  | beginOp =>
    simp only [step] at hs
    split at hs
    · rename_i l hi hl
      simp only [Option.some.injEq, Except.ok.injEq] at hs
      exact hs ▸ inv_beginOp h hi hl
    · simp only [Option.some.injEq, Except.ok.injEq] at hs
      exact hs ▸ h
    · cases hs
  | logWrite b =>
    simp only [step] at hs
    split at hs
    · rename_i blocks hi
      split at hs
      · rename_i hlen
        split at hs
        · cases hs
        · rename_i l new hl
          simp only [Option.some.injEq, Except.ok.injEq] at hs
          exact hs ▸ inv_logWrite h hi hlen hl
      · cases hs
    · cases hs
  | endOp =>
    simp only [step] at hs
    split at hs
    · rename_i blocks hi
      split at hs
      · cases hs
      · rename_i l hl
        simp only [Option.some.injEq, Except.ok.injEq] at hs
        exact hs ▸ inv_endOp h hi hl
      · rename_i l hl
        simp only [Option.some.injEq, Except.ok.injEq] at hs
        exact hs ▸ inv_endOp h hi hl
    · cases hs
  | commit =>
    simp only [step] at hs
    split at hs
    · rename_i st hi
      simp only [Option.some.injEq, Except.ok.injEq] at hs
      exact hs ▸ inv_commitStep h hi
    · cases hs

end Steps

/-- **The invariant on every reachable state.** -/
theorem inv_reach {s : Sys ι} (h : Reachable s) : Inv s :=
  h.invariant (fun _ => inv_initial) fun _ _ hI ⟨_, _, hs⟩ => inv_step hI hs

/-! ## 3. What the protocol promises -/

/-- **The only panic of the protocol is the overflow test of `log_write`.** -/
theorem Inv.step_panic {s : Sys ι} (h : Inv s) {i : ι} {a : Act} {p : Panic}
    (hs : step s i a = some (.error p)) : p = .tooBigTransaction := by
  cases a with
  | logWrite b =>
    simp only [step] at hs
    split at hs
    · rename_i blocks hi
      have hout := (h.op_not_committing hi).2
      split at hs
      · split at hs
        · rename_i p' hl
          simp only [Option.some.injEq, Except.error.injEq] at hs
          subst hs
          rcases Log.logWrite_error hl with ⟨e, _⟩ | ⟨_, hlt⟩
          · exact e
          · omega
        · cases hs
      · cases hs
    · cases hs
  | endOp =>
    simp only [step] at hs
    split at hs
    · rename_i blocks hi
      split at hs
      · rename_i p' hl
        have hc := Log.endOp_error hl
        rw [(h.op_not_committing hi).1] at hc
        cases hc
      · cases hs
      · cases hs
    · cases hs
  | _ =>
    simp only [step] at hs
    split at hs <;> cases hs

/-- While a commit runs no process can take the step of a `log_write`. -/
theorem Inv.no_logWrite {s : Sys ι} (h : Inv s) (hc : s.log.committing = true) (i : ι) (b : Nat) :
    step s i (.logWrite b) = none := by
  simp only [step]
  split
  · rename_i blocks hi
    exact absurd hi (h.no_op hc i blocks)
  · rfl

/-- **THE GROUP-COMMIT PROTOCOL.** In every state that any interleaving of any number of
    processes reaches, each operation logging at most `MAXOPBLOCKS` distinct blocks:
    a commit runs only when no operation is outstanding, and no `log_write` can happen during
    it; the log has no duplicates and holds exactly the blocks logged since the last commit;
    it fits its region; each of these blocks has been pinned once, none has been unpinned
    before the commit, and at the end of `install_trans` each has been unpinned once; and
    neither `end_op` nor `log_write` can reach the panic of a misused protocol. -/
theorem groupCommit_safe {s : Sys ι} (h : Reachable s) :
    (s.log.committing = true → s.log.outstanding = 0) ∧
    (s.log.committing = true → ∀ i b, step s i (.logWrite b) = none) ∧
    s.log.lh.Nodup ∧
    (∀ b, b ∈ s.logged ↔ b ∈ s.log.lh) ∧
    s.log.lh.length ≤ LOGBLOCKS ∧
    (∀ b, s.pins b = if b ∈ s.log.lh then 1 else 0) ∧
    (s.log.committing = false → ∀ b, s.unpins b = 0) ∧
    (∀ b, s.unpins b ≤ s.pins b) ∧
    (∀ i, s.pc i = .commit .clear → ∀ b, s.unpins b = if b ∈ s.log.lh then 1 else 0) ∧
    ∀ i a, step s i a ≠ some (.error .logCommitting) ∧
      step s i a ≠ some (.error .logWriteOutsideOfTrans) := by
  have hI := inv_reach h
  refine ⟨hI.alone, hI.no_logWrite, hI.nodup, hI.logged, ?_, hI.pins, hI.unpinsIdle, ?_,
    fun i hi => hI.unpins i _ hi, fun i a => ⟨fun hs => ?_, fun hs => ?_⟩⟩
  · have := hI.room
    omega
  · intro b
    cases hc : s.log.committing with
    | false => rw [hI.unpinsIdle hc b]; exact Nat.zero_le _
    | true =>
      -- some process commits, and it has unpinned only blocks of the log
      have h1 : total Finset.univ inCommit s.pc ≠ 0 := by
        rw [← hI.committing, hc]
        exact one_ne_zero
      have h2 : ∃ i, inCommit (s.pc i) ≠ 0 := by
        by_contra hno
        exact h1 (total_eq_zero.mpr fun i _ => by_contra fun hi => hno ⟨i, hi⟩)
      obtain ⟨i, hi⟩ := h2
      cases hp : s.pc i with
      | commit st =>
        rw [hI.unpins i st hp b, hI.pins b]
        exact once_released_le s.log.lh st b
      | _ => rw [hp] at hi; exact absurd rfl hi
  · cases hI.step_panic hs
  · cases hI.step_panic hs

/-- Two processes have entered and the first has logged block 7 twice: the log holds it once. -/
theorem groupCommit_safe_two : ∃ s : Sys (Fin 2), Reachable s ∧ s.log.outstanding = 2 ∧
    s.logged = [7, 7] ∧ s.log.lh = [7] ∧ ∀ b, s.pins b = if b ∈ s.log.lh then 1 else 0 := by
  have h0 : Reachable (boot 2 : Sys (Fin 2)) :=
    .start ⟨rfl, rfl, rfl, fun _ => rfl, rfl, fun _ => rfl, fun _ => rfl⟩
  have h1 := (h0.step ⟨0, .call, rfl⟩).step ⟨0, .beginOp, rfl⟩
  have h2 := (h1.step ⟨1, .call, rfl⟩).step ⟨1, .beginOp, rfl⟩
  have h3 := (h2.step ⟨0, .logWrite 7, rfl⟩).step ⟨0, .logWrite 7, rfl⟩
  exact ⟨_, h3, rfl, rfl, rfl, (groupCommit_safe h3).2.2.2.2.2.1⟩

/-! ## 4. The overflow test of `log_write` -/

section Overflow

variable {s : Sys ι} {i : ι} {blocks : List Nat} {b : Nat}

omit [DecidableEq ι] in
/-- **A full log has nothing left to give**: every operation in flight has used up its share, so
    whatever it logs within its budget is in the log already. -/
theorem Inv.mem_of_full (h : Inv s) (hi : s.pc i = .op blocks)
    (hlen : (addBlock blocks b).length ≤ MAXOPBLOCKS) (hfull : s.log.lh.length = LOGBLOCKS) :
    b ∈ s.log.lh := by
  have hroom := h.room
  have hres := le_total reserve s.pc (Finset.mem_univ i)
  rw [hi] at hres
  simp only [reserve] at hres
  by_contra hb
  have hnew : addBlock blocks b = b :: blocks := by
    unfold addBlock
    rw [if_neg fun hm => hb ((h.own i blocks hi).2 b hm)]
  rw [hnew, List.length_cons] at hlen
  omega

/-- A `log_write` of an operation within its budget panics exactly when the log is full. -/
theorem Inv.logWrite_panic_iff (h : Inv s) (hi : s.pc i = .op blocks)
    (hlen : (addBlock blocks b).length ≤ MAXOPBLOCKS) :
    step s i (.logWrite b) = some (.error .tooBigTransaction) ↔ s.log.lh.length = LOGBLOCKS := by
  have hroom := h.room
  have hout := (h.op_not_committing hi).2
  simp only [step, hi, if_pos hlen]
  constructor
  · intro hs
    split at hs
    · rename_i p hl
      rcases Log.logWrite_error hl with ⟨_, hfull⟩ | ⟨_, hlt⟩ <;> omega
    · cases hs
  · intro hfull
    have hl : s.log.logWrite b = .error .tooBigTransaction := by
      unfold Log.logWrite
      rw [if_pos (ge_of_eq hfull)]
    rw [hl]

end Overflow

/-- **WHEN A TRANSACTION WITHIN ITS BUDGET OVERFLOWS THE LOG.** In every reachable state, for every
    operation in flight and every block its budget allows, `log_write` panics exactly when the log
    is full. It is the absorbed writes that panic: when the log is full the block is in it
    already, and a block that is not in the log never panics. -/
theorem logWrite_overflow_iff {s : Sys ι} (h : Reachable s) {i : ι} {blocks : List Nat} {b : Nat}
    (hi : s.pc i = .op blocks) (hlen : (addBlock blocks b).length ≤ MAXOPBLOCKS) :
    (step s i (.logWrite b) = some (.error .tooBigTransaction) ↔ s.log.lh.length = LOGBLOCKS) ∧
    (step s i (.logWrite b) = some (.error .tooBigTransaction) → b ∈ s.log.lh) := by
  have hI := inv_reach h
  have hiff := hI.logWrite_panic_iff hi hlen
  exact ⟨hiff, fun hs => hI.mem_of_full hi hlen (hiff.mp hs)⟩

/-- The steps `l` one after the other; `none` when one of them cannot be taken or panics. -/
def play (s : Sys ι) : List (ι × Act) → Option (Sys ι)
  | [] => some s
  | (i, a) :: l =>
    match step s i a with
    | some (.ok s') => play s' l
    | _ => none

omit [Fintype ι] in
theorem play_reachable {l : List (ι × Act)} {s s' : Sys ι} (h : Reachable s)
    (hp : play s l = some s') : Reachable s' := by
  induction l generalizing s with
  | nil =>
    cases hp
    exact h
  | cons x l ih =>
    obtain ⟨i, a⟩ := x
    simp only [play] at hp
    split at hp
    · rename_i s1 hs
      exact ih (h.step ⟨i, a, hs⟩) hp
    · cases hp

omit [Fintype ι] in
theorem reachable_boot (start : Nat) : Reachable (boot start : Sys ι) :=
  .start ⟨rfl, rfl, rfl, fun _ => rfl, rfl, fun _ => rfl, fun _ => rfl⟩

/-- Three processes enter, and each logs `MAXOPBLOCKS` blocks of its own. -/
def threeFull : List (Fin 3 × Act) :=
  (List.finRange 3).flatMap (fun i => [(i, .call), (i, .beginOp)]) ++
  (List.finRange 3).flatMap fun i =>
    (List.range MAXOPBLOCKS).map fun k => (i, .logWrite (MAXOPBLOCKS * i + k))

/-- The log is full after these steps, and the first process logs its block 0 once more. -/
theorem logWrite_overflows : ∃ (s : Sys (Fin 3)) (blocks : List Nat), Reachable s ∧
    s.pc 0 = .op blocks ∧ 0 ∈ blocks ∧ blocks.length = MAXOPBLOCKS ∧
    step s 0 (.logWrite 0) = some (.error .tooBigTransaction) := by
  have hrun : (play (boot 2) threeFull).map (fun s =>
      decide (s.log.lh.length = LOGBLOCKS ∧ s.pc 0 = .op (List.range MAXOPBLOCKS).reverse)) =
      some true := by
    decide +kernel
  obtain ⟨s, hplay, hs⟩ := Option.map_eq_some_iff.mp hrun
  obtain ⟨hfull, hpc⟩ := of_decide_eq_true hs
  have hr := play_reachable (reachable_boot 2) hplay
  exact ⟨s, _, hr, hpc, by decide, by decide,
    ((inv_reach hr).logWrite_panic_iff hpc (by decide)).mpr hfull⟩

/-- One process has logged nine of its ten blocks: logging the first again does not panic. -/
theorem logWrite_overflow_iff_nine : ∃ s : Sys (Fin 1), Reachable s ∧
    s.pc 0 = .op (List.range 9).reverse ∧
    step s 0 (.logWrite 0) ≠ some (.error .tooBigTransaction) := by
  have hrun : (play (boot 2) ([(0, .call), (0, .beginOp)] ++
      (List.range 9).map fun k => ((0 : Fin 1), Act.logWrite k))).map (fun s =>
      decide (s.log.lh.length = 9 ∧ s.pc 0 = .op (List.range 9).reverse)) = some true := by
    decide +kernel
  obtain ⟨s, hplay, hs⟩ := Option.map_eq_some_iff.mp hrun
  obtain ⟨hnine, hpc⟩ := of_decide_eq_true hs
  have hr := play_reachable (reachable_boot 2) hplay
  refine ⟨s, hr, hpc, fun hpanic => ?_⟩
  have hfull := (logWrite_overflow_iff hr hpc (by decide)).1.mp hpanic
  rw [hnine] at hfull
  cases hfull

end HaiOS.Group
