/-
  File:      HaiOS/Log/Core.lean
  Subject:   THE IN-MEMORY LOG and the critical sections of kernel/log.c under `log.lock`.

  `struct log` without its lock: `lh` is `log.lh.block[0 .. log.lh.n)`, so `log.lh.n` is the
  length of `lh`. Each definition is what one process does between `acquire(&log.lock)` and
  the `release` (or the `sleep`) that follows.
-/
import HaiOS.Param

namespace HaiOS

/-- `struct log`. -/
structure Log where
  /-- first block of the log region: the header block -/
  start : Nat
  /-- how many FS sys calls are executing -/
  outstanding : Int
  /-- in commit(), please wait -/
  committing : Bool
  /-- `lh.block[0 .. lh.n)` -/
  lh : List Nat
  deriving DecidableEq, Repr

namespace Log

/-- One turn of the loop of `begin_op`: `none` is `sleep(&log, &log.lock)`. -/
def beginOp (l : Log) : Option Log :=
  if l.committing then none
  else if (l.lh.length : Int) + (l.outstanding + 1) * MAXOPBLOCKS > LOGBLOCKS then none
  else some { l with outstanding := l.outstanding + 1 }

/-- The body of `log_write` for block `b`. The search loop stops at the first entry that is
    `b`; storing `b` there changes nothing, and storing it at `lh.n` appends it. -/
def logWrite (l : Log) (b : Nat) : Except Panic (Log × Bool) :=
  if l.lh.length ≥ LOGBLOCKS then .error .tooBigTransaction
  else if l.outstanding < 1 then .error .logWriteOutsideOfTrans
  else if b ∈ l.lh then .ok (l, false)
  else .ok ({ l with lh := l.lh ++ [b] }, true)

/-- The first critical section of `end_op`, with `do_commit`. -/
def endOp (l : Log) : Except Panic (Log × Bool) :=
  let l1 := { l with outstanding := l.outstanding - 1 }
  if l1.committing then .error .logCommitting
  else if l1.outstanding = 0 then .ok ({ l1 with committing := true }, true)
  else .ok (l1, false)

/-- The second critical section of `end_op`. -/
def committed (l : Log) : Log := { l with committing := false }

variable {l l' : Log}

theorem beginOp_some (h : l.beginOp = some l') :
    l.committing = false ∧
    (l.lh.length : Int) + (l.outstanding + 1) * MAXOPBLOCKS ≤ LOGBLOCKS ∧
    l' = { l with outstanding := l.outstanding + 1 } := by
  unfold beginOp at h
  split at h
  · cases h
  · rename_i hc
    split at h
    · cases h
    · rename_i hn
      simp only [Option.some.injEq] at h
      exact ⟨by simpa using hc, by omega, h.symm⟩

/-- **Everything a `log_write` can do.** -/
theorem logWrite_ok {b : Nat} {new : Bool} (h : l.logWrite b = .ok (l', new)) :
    l.lh.length < LOGBLOCKS ∧ 1 ≤ l.outstanding ∧
    ((b ∈ l.lh ∧ l' = l ∧ new = false) ∨
      (b ∉ l.lh ∧ l' = { l with lh := l.lh ++ [b] } ∧ new = true)) := by
  unfold logWrite at h
  split at h
  · cases h
  · split at h
    · cases h
    · refine ⟨by omega, by omega, ?_⟩
      split at h
      · rename_i hb
        simp only [Except.ok.injEq, Prod.mk.injEq] at h
        exact Or.inl ⟨hb, h.1.symm, h.2.symm⟩
      · rename_i hb
        simp only [Except.ok.injEq, Prod.mk.injEq] at h
        exact Or.inr ⟨hb, h.1.symm, h.2.symm⟩

/-- The two panics of `log_write`. -/
theorem logWrite_error {b : Nat} {p : Panic} (h : l.logWrite b = .error p) :
    (p = .tooBigTransaction ∧ LOGBLOCKS ≤ l.lh.length) ∨
    (p = .logWriteOutsideOfTrans ∧ l.outstanding < 1) := by
  unfold logWrite at h
  split at h
  · rename_i hfull
    simp only [Except.error.injEq] at h
    exact Or.inl ⟨h.symm, hfull⟩
  · split at h
    · rename_i hout
      simp only [Except.error.injEq] at h
      exact Or.inr ⟨h.symm, hout⟩
    · split at h <;> cases h

theorem endOp_error {p : Panic} (h : l.endOp = .error p) : l.committing = true := by
  unfold endOp at h
  dsimp only at h
  split at h
  · rename_i hc
    exact hc
  · split at h <;> cases h

/-- **Everything the first half of `end_op` can do.** -/
theorem endOp_ok {doCommit : Bool} (h : l.endOp = .ok (l', doCommit)) :
    l.committing = false ∧
    ((l.outstanding = 1 ∧ doCommit = true ∧
        l' = { l with outstanding := 0, committing := true }) ∨
      (l.outstanding ≠ 1 ∧ doCommit = false ∧
        l' = { l with outstanding := l.outstanding - 1 })) := by
  unfold endOp at h
  dsimp only at h
  split at h
  · cases h
  · rename_i hc
    refine ⟨by simpa using hc, ?_⟩
    split at h
    · rename_i h0
      simp only [Except.ok.injEq, Prod.mk.injEq] at h
      refine Or.inl ⟨by omega, h.2.symm, ?_⟩
      rw [← h.1, h0]
    · rename_i h0
      simp only [Except.ok.injEq, Prod.mk.injEq] at h
      exact Or.inr ⟨by omega, h.2.symm, h.1.symm⟩

end Log

end HaiOS
