/-
  File:      HaiOS/Lib/Machine.lean
  Subject:   RUNS. Reachable states of a step relation, runs of a list of calls, the invariant
             rule and the simulation rule. Names nothing of the kernel.

  * `Reach`, `Reach.invariant` -- states reached from the initial ones, and what every step
    keeps holds in all of them; `Along` -- a run of labels, each of them allowed in its turn.
  * `Calls`, `Calls.invariant` -- a run of calls of routines, each with the value it returned;
    what every call keeps holds after the run; `after` computes a run.
  * `SpecRun` -- a run of an abstract machine that answers the same values.
  * `Trace`, `Trace.refines`, `Trace.image`, `Trace.invariant` -- a run of a machine with labelled
    steps, its image under an abstract machine that follows the labels, and what holds at its end;
    `afterLegal` computes one.
-/
import HaiOS.Lib.Routine

namespace HaiOS.Lib

variable {π σ τ α β : Type}

/-- The states reached from `init` by `step`. -/
inductive Reach (init : σ → Prop) (step : σ → σ → Prop) : σ → Prop where
  | start {s : σ} (h : init s) : Reach init step s
  | step {s s' : σ} (hr : Reach init step s) (hs : step s s') : Reach init step s'

variable {init I : σ → Prop} {s s' s'' : σ}

/-- **The invariant rule.** -/
theorem Reach.invariant {step : σ → σ → Prop} (h0 : ∀ s, init s → I s)
    (hs : ∀ s s', I s → step s s' → I s') (h : Reach init step s) : I s := by
  induction h with
  | start h => exact h0 _ h
  | step _ hst ih => exact hs _ _ ih hst

/-- Every label of the list meets `ok` in the state in which it is taken. -/
def Along {ε : Type} (ok : σ → ε → Prop) (next : σ → ε → σ) : σ → List ε → Prop
  | _, [] => True
  | s, e :: l => ok s e ∧ Along ok next (next s e) l

variable {ε : Type} {l : List ε}

/-- A run of a machine whose next state is computed. -/
theorem Reach.along {step : σ → σ → Prop} {ok : σ → ε → Prop} {next : σ → ε → σ}
    (hstep : ∀ s e, ok s e → step s (next s e)) (h : Reach init step s) (hl : Along ok next s l) :
    Reach init step (l.foldl next s) := by
  induction l generalizing s with
  | nil => exact h
  | cons e l ih => exact ih (h.step (hstep s e hl.1)) hl.2

/-- **A run of calls** of `exec` from `s`, with the value each call returned. A call that fails
    ends the run: it has no successor. -/
inductive Calls (exec : α → Routine π σ β) : σ → List (α × β) → σ → Prop where
  | nil (s : σ) : Calls exec s [] s
  | snoc {s s' s'' : σ} {l : List (α × β)} {a : α} {b : β} (h : Calls exec s l s')
      (hc : exec a s' = .ok b s'') : Calls exec s (l ++ [(a, b)]) s''

variable {exec : α → Routine π σ β}

/-- **What every call keeps holds after every run.** -/
theorem Calls.invariant (hs : ∀ a b s s', I s → exec a s = .ok b s' → I s') {l : List (α × β)}
    (h : Calls exec s l s') (h0 : I s) : I s' := by
  induction h with
  | nil => exact h0
  | snoc _ hc ih => exact hs _ _ _ _ ih hc

/-- The state after calls, if none of them fails. -/
def after (exec : α → Routine π σ β) : σ → List α → Option σ
  | s, [] => some s
  | s, a :: l =>
    match exec a s with
    | .ok _ s' => after exec s' l
    | .fail _ _ => none

/-- A run after a first call. -/
theorem Calls.cons {l : List (α × β)} {a : α} {b : β} (hc : exec a s = .ok b s')
    (h : Calls exec s' l s'') : Calls exec s ((a, b) :: l) s'' := by
  induction h with
  | nil => exact (Calls.nil s).snoc hc
  | snoc _ hc' ih => exact ih.snoc hc'

theorem calls_of_after {l : List α} (h : after exec s l = some s') :
    ∃ l', Calls exec s l' s' ∧ l'.map Prod.fst = l := by
  induction l generalizing s with
  | nil =>
    cases h
    exact ⟨[], .nil _, rfl⟩
  | cons a l ih =>
    unfold after at h
    cases hc : exec a s with
    | fail e s1 =>
      rw [hc] at h
      cases h
    | ok b s1 =>
      rw [hc] at h
      obtain ⟨l', hrun, hl⟩ := ih h
      exact ⟨(a, b) :: l', hrun.cons hc, by rw [List.map_cons, hl]⟩

/-- A run of an abstract machine: `spec a b t t'` says that the call `a` may answer `b` and
    lead from `t` to `t'`. -/
inductive SpecRun (spec : α → β → τ → τ → Prop) : τ → List (α × β) → τ → Prop where
  | nil (t : τ) : SpecRun spec t [] t
  | snoc {t t' t'' : τ} {l : List (α × β)} {a : α} {b : β} (h : SpecRun spec t l t')
      (hc : spec a b t' t'') : SpecRun spec t (l ++ [(a, b)]) t''

/-- A run of a machine whose steps have labels. -/
inductive Trace {ε : Type} (step : σ → ε → σ → Prop) : σ → List ε → σ → Prop where
  | nil (s : σ) : Trace step s [] s
  | snoc {s s' s'' : σ} {l : List ε} {e : ε} (h : Trace step s l s') (hs : step s' e s'') :
      Trace step s (l ++ [e]) s''

variable {step : σ → ε → σ → Prop} {P : ε → Prop}

/-- **A relation that every step keeps, with the abstract state following the labels, holds at
    the end of every run** whose labels meet `P`. -/
theorem Trace.refines {next : τ → ε → τ} {R : σ → τ → Prop}
    (hs : ∀ s e s' t, P e → R s t → step s e s' → R s' (next t e)) {t : τ} (h : Trace step s l s')
    (hl : ∀ e ∈ l, P e) (h0 : R s t) :
    R s' (l.foldl next t) := by
  induction h with
  | nil => exact h0
  | @snoc _ _ l e _ hst ih =>
    rw [List.foldl_append]
    have hR := ih fun e he => hl e (List.mem_append_left _ he)
    exact hs _ _ _ _ (hl e (List.mem_append_right _ List.mem_cons_self)) hR hst

/-- **The image of a run**: when `g` takes every step from a state of the invariant to a step of
    the abstract machine with the same label, it takes runs to runs. -/
theorem Trace.image {spec : τ → ε → τ → Prop} {g : σ → τ}
    (hs : ∀ s e s', P e → I s → step s e s' → I s' ∧ spec (g s) e (g s')) (h : Trace step s l s')
    (hl : ∀ e ∈ l, P e) (h0 : I s) :
    I s' ∧ Trace spec (g s) l (g s') := by
  induction h with
  | nil => exact ⟨h0, .nil _⟩
  | @snoc _ _ l e _ hst ih =>
    obtain ⟨hI, hrun⟩ := ih fun e he => hl e (List.mem_append_left _ he)
    obtain ⟨hI', hspec⟩ := hs _ _ _ (hl e (List.mem_append_right _ List.mem_cons_self)) hI hst
    exact ⟨hI', hrun.snoc hspec⟩

/-- **What every step keeps holds at the end of every run** whose labels meet `P`. -/
theorem Trace.invariant (hs : ∀ s e s', P e → I s → step s e s' → I s') (h : Trace step s l s')
    (hl : ∀ e ∈ l, P e) (h0 : I s) : I s' := by
  induction h with
  | nil => exact h0
  | @snoc _ _ l e _ hst ih =>
    exact hs _ _ _ (hl e (List.mem_append_right _ List.mem_cons_self))
      (ih fun e he => hl e (List.mem_append_left _ he)) hst

theorem Trace.cons {e : ε} (hs : step s e s') (h : Trace step s' l s'') :
    Trace step s (e :: l) s'' := by
  induction h with
  | nil => exact (Trace.nil s).snoc hs
  | snoc _ hst ih => exact ih.snoc hst

/-- A run of `l₁ ++ l₂` is a run of `l₁` and one of `l₂`. -/
theorem Trace.split {l₁ l₂ : List ε} (h : Trace step s (l₁ ++ l₂) s') :
    ∃ s₁, Trace step s l₁ s₁ ∧ Trace step s₁ l₂ s' := by
  generalize hl : l₁ ++ l₂ = l at h
  induction h generalizing l₂ with
  | nil =>
    obtain ⟨rfl, rfl⟩ := List.append_eq_nil_iff.mp hl
    exact ⟨s, .nil s, .nil s⟩
  | @snoc s₁ s₂ l e h hst ih =>
    rcases List.eq_nil_or_concat l₂ with rfl | ⟨l₃, e', rfl⟩
    · rw [List.append_nil] at hl
      subst hl
      exact ⟨s₂, h.snoc hst, .nil s₂⟩
    · rw [List.concat_eq_append, ← List.append_assoc] at hl
      obtain ⟨hl, he⟩ := List.append_inj' hl rfl
      obtain ⟨s₃, h1, h2⟩ := ih hl
      rw [List.concat_eq_append, he]
      exact ⟨s₃, h1, h2.snoc hst⟩

/-- The last step of a run. -/
theorem Trace.last {e : ε} (h : Trace step s (l ++ [e]) s') :
    ∃ s₁, Trace step s l s₁ ∧ step s₁ e s' := by
  generalize hl : l ++ [e] = l' at h
  cases h with
  | nil => exact absurd hl (List.append_ne_nil_of_right_ne_nil _ (List.cons_ne_nil _ _))
  | @snoc s₁ _ l' e' h hst =>
    obtain ⟨rfl, he⟩ := List.append_inj' hl rfl
    obtain rfl := List.singleton_inj.mp he
    exact ⟨s₁, h, hst⟩

/-- The state after calls that are all legal, if none of them fails. -/
def afterLegal (legal : σ → α → Prop) [∀ s a, Decidable (legal s a)] (exec : α → Routine π σ β) :
    List α → σ → Option σ
  | [], s => some s
  | a :: l, s =>
    if legal s a then
      match exec a s with
      | .ok _ s' => afterLegal legal exec l s'
      | .fail _ _ => none
    else none

theorem trace_of_afterLegal {legal : σ → α → Prop} [∀ s a, Decidable (legal s a)]
    {step : σ → α → σ → Prop} (hstep : ∀ s a b s', legal s a → exec a s = .ok b s' → step s a s')
    {l : List α} (h : afterLegal legal exec l s = some s') : Trace step s l s' := by
  induction l generalizing s with
  | nil =>
    cases h
    exact .nil _
  | cons a l ih =>
    unfold afterLegal at h
    split at h
    · rename_i hl
      cases hc : exec a s with
      | ok b s1 =>
        rw [hc] at h
        exact .cons (hstep s a b s1 hl hc) (ih h)
      | fail p s1 =>
        rw [hc] at h
        cases h
    · cases h

end HaiOS.Lib
