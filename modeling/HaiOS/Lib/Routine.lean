/-
  File:      HaiOS/Lib/Routine.lean
  Subject:   ROUTINES THAT CHANGE A STATE AND MAY FAIL, and the rules for their pre- and
             postconditions. Names nothing of the kernel.

  * `Outcome`, `Routine` -- a routine takes a state and either returns a value with the new
    state or stops with a failure `p : π` in the state it had reached; `Routine` is a monad,
    so bodies are written in `do` notation in the order of the source.
  * `Outcome.Sat` -- the routine's result meets `Q`, its failure meets `E`; `FailsOnly` -- every
    failure meets `E`, from any state.
  * `Outcome.Runs` -- as `Sat`, with a frame `R` between the state before and the state after,
    failures included. `Runs.bind` composes frames, so that a proof follows the body of the
    routine it is about, one rule a construct.
-/
import Mathlib.Init

namespace HaiOS.Lib

variable {π σ α β : Type}

/-- What running a routine gives: a value and the state after, or a failure and the state in
    which it happened. -/
inductive Outcome (π σ α : Type) where
  | ok (a : α) (s : σ)
  | fail (p : π) (s : σ)

/-- The state a run ends in, by return or by failure. -/
def Outcome.last {π σ α : Type} : Outcome π σ α → σ
  | .ok _ s => s
  | .fail _ s => s

/-- The value that a run returns. -/
def Outcome.value {π σ α : Type} : Outcome π σ α → Option α
  | .ok a _ => some a
  | .fail _ _ => none

variable {o : Outcome π σ α}

theorem Outcome.eq_ok {a : α} (h : o.value = some a) : o = .ok a o.last := by
  cases o with
  | ok a s =>
    cases h
    rfl
  | fail p s => cases h

/-- The failure that a run ends in. -/
def Outcome.failure {π σ α : Type} : Outcome π σ α → Option π
  | .ok _ _ => none
  | .fail p _ => some p

theorem Outcome.eq_fail {p : π} (h : o.failure = some p) :
    o = .fail p o.last := by
  cases o with
  | ok a s => cases h
  | fail p s =>
    cases h
    rfl

/-- The run returns, and what it returns passes a test. -/
def Outcome.test {π σ α : Type} (o : Outcome π σ α) (q : α → σ → Bool) : Bool :=
  match o with
  | .ok a s => q a s
  | .fail _ _ => false

theorem Outcome.exists_of_test {q : α → σ → Bool} (h : o.test q = true) :
    ∃ a s, o = .ok a s ∧ q a s = true := by
  cases o with
  | ok a s => exact ⟨a, s, rfl, h⟩
  | fail p s => cases h

/-- A routine over the state `σ` with failures `π`. -/
def Routine (π σ α : Type) : Type := σ → Outcome π σ α

namespace Routine

/-- Return a value, change nothing. -/
def ret (a : α) : Routine π σ α := fun s => .ok a s

/-- Run `m`, then `f` on its value; a failure of `m` stops both. -/
def andThen (m : Routine π σ α) (f : α → Routine π σ β) : Routine π σ β := fun s =>
  match m s with
  | .ok a s' => f a s'
  | .fail p s' => .fail p s'

instance : Monad (Routine π σ) where
  pure := ret
  bind := andThen

/-- The current state. -/
def read : Routine π σ σ := fun s => .ok s s

/-- A part of the current state. -/
def gets (f : σ → α) : Routine π σ α := fun s => .ok (f s) s

/-- Change the state. -/
def update (f : σ → σ) : Routine π σ Unit := fun s => .ok () (f s)

/-- Stop with a failure. -/
def stop (p : π) : Routine π σ α := fun s => .fail p s

@[simp] theorem pure_run (a : α) (s : σ) : (pure a : Routine π σ α) s = .ok a s := rfl

theorem bind_run (m : Routine π σ α) (f : α → Routine π σ β) (s : σ) :
    (m >>= f) s = match m s with
      | .ok a s' => f a s'
      | .fail p s' => .fail p s' := rfl

variable {m : Routine π σ α} {f : α → Routine π σ β}

theorem bind_ok {s s' : σ} {a : α} (h : m s = .ok a s') : (m >>= f) s = f a s' := by
  rw [bind_run, h]

theorem bind_fail {s s' : σ} {p : π} (h : m s = .fail p s') : (m >>= f) s = .fail p s' := by
  rw [bind_run, h]

@[simp] theorem read_bind (f : σ → Routine π σ β) (s : σ) : (read >>= f) s = f s s := rfl

@[simp] theorem gets_bind (g : σ → α) (f : α → Routine π σ β) (s : σ) :
    (gets g >>= f) s = f (g s) s := rfl

@[simp] theorem update_bind (g : σ → σ) (f : Unit → Routine π σ β) (s : σ) :
    (update g >>= f) s = f () (g s) := rfl

@[simp] theorem pure_bind (a : α) (f : α → Routine π σ β) (s : σ) :
    ((pure a : Routine π σ α) >>= f) s = f a s := rfl

end Routine

/-! ## Pre- and postconditions -/

/-- **The result meets `Q`, a failure meets `E`.** -/
def Outcome.Sat (o : Outcome π σ α) (Q : α → σ → Prop) (E : π → σ → Prop) : Prop :=
  match o with
  | .ok a s => Q a s
  | .fail p s => E p s

/-- The routine returns, and its result meets `Q`. -/
abbrev Outcome.Returns (o : Outcome π σ α) (Q : α → σ → Prop) : Prop := o.Sat Q fun _ _ => False

section Rules

variable {Q : α → σ → Prop} {E : π → σ → Prop} {s : σ}

variable {o : Outcome π σ α} {Q' : α → σ → Prop} {E' : π → σ → Prop}

theorem Outcome.Sat.mono (h : o.Sat Q E) (hQ : ∀ a s, Q a s → Q' a s) (hE : ∀ p s, E p s → E' p s) :
    o.Sat Q' E' := by
  cases o with
  | ok a s => exact hQ a s h
  | fail p s => exact hE p s h

theorem Outcome.Sat.imp (h : o.Sat Q E) (hQ : ∀ a s, Q a s → Q' a s) : o.Sat Q' E :=
  h.mono hQ fun _ _ hp => hp

/-- A run about which nothing is said. -/
theorem Outcome.sat_true (o : Outcome π σ α) : o.Sat (fun _ _ => True) fun _ _ => True := by
  cases o with
  | ok a s => trivial
  | fail p s => trivial

/-- Two facts about one run. -/
theorem Outcome.Sat.both (h : o.Sat Q E) (h' : o.Sat Q' E') :
    o.Sat (fun a s => Q a s ∧ Q' a s) fun p s => E p s ∧ E' p s := by
  cases o with
  | ok a s => exact ⟨h, h'⟩
  | fail p s => exact ⟨h, h'⟩

theorem Outcome.Sat.and (h : o.Sat Q E) (h' : o.Sat Q' E') : o.Sat (fun a s => Q a s ∧ Q' a s) E :=
  (h.both h').mono (fun _ _ hq => hq) fun _ _ hp => hp.1

/-- **The rule for sequences**: what `m` establishes is what `f` starts from. -/
theorem Outcome.Sat.bind {m : Routine π σ α} {f : α → Routine π σ β} {R : β → σ → Prop}
    (h : (m s).Sat Q E) (hf : ∀ a s', Q a s' → (f a s').Sat R E) : ((m >>= f) s).Sat R E := by
  rw [Routine.bind_run]
  cases hm : m s with
  | ok a s' =>
    rw [hm] at h
    exact hf a s' h
  | fail p s' =>
    rw [hm] at h
    exact h

theorem Outcome.Sat.of_ok {a : α} (h : o.Sat Q E) (e : o = .ok a s) :
    Q a s := by
  rw [e] at h
  exact h

/-- A routine that cannot fail returns. -/
theorem Outcome.Sat.exists_ok (h : o.Sat Q fun _ _ => False) :
    ∃ a s, o = .ok a s ∧ Q a s := by
  cases o with
  | ok a s => exact ⟨a, s, rfl, h⟩
  | fail p s => exact h.elim

/-- **The rule for a loop over a list**: `P l b` holds before the turns over `l`, with the value `b`
    so far. -/
theorem Outcome.Sat.foldlM {f : β → α → Routine π σ β} {P : List α → β → σ → Prop}
    (hf : ∀ a l b s, P (a :: l) b s → (f b a s).Sat (P l) E) (l : List α) {b : β}
    (h : P l b s) : (l.foldlM f b s).Sat (P []) E := by
  induction l generalizing b s with
  | nil => exact h
  | cons a l ih => exact Outcome.Sat.bind (hf a l b s h) fun _ _ hb => ih hb

end Rules

/-! ## Failures alone -/

/-- **Every failure of the routine meets `E`**, whatever state it starts from. -/
def FailsOnly (E : π → Prop) (m : Routine π σ α) : Prop :=
  ∀ s, (m s).Sat (fun _ _ => True) fun p _ => E p

section FailsOnly

variable {E : π → Prop}

theorem failsOnly_pure (a : α) : FailsOnly E (pure a : Routine π σ α) := fun _ => trivial

theorem failsOnly_gets (f : σ → α) : FailsOnly E (Routine.gets f : Routine π σ α) := fun _ => trivial

theorem failsOnly_update (f : σ → σ) : FailsOnly E (Routine.update f : Routine π σ Unit) :=
  fun _ => trivial

theorem FailsOnly.bind {m : Routine π σ α} {f : α → Routine π σ β} (h : FailsOnly E m)
    (hf : ∀ a, FailsOnly E (f a)) : FailsOnly E (m >>= f) :=
  fun s => (h s).bind fun a s' _ => hf a s'

theorem failsOnly_ite {c : Prop} [Decidable c] {m n : Routine π σ α} (hm : FailsOnly E m)
    (hn : FailsOnly E n) : FailsOnly E (if c then m else n) := by
  split
  · exact hm
  · exact hn

end FailsOnly

/-! ## The same with a frame -/

/-- **The run ends in a state that `R` relates to `s`, whether it returns or fails**; a result
    meets `Q`, a failure meets `F`. -/
def Outcome.Runs (R : σ → σ → Prop) (F : π → σ → Prop) (s : σ) (o : Outcome π σ α)
    (Q : α → σ → Prop) : Prop :=
  o.Sat (fun a s' => R s s' ∧ Q a s') (fun p s' => R s s' ∧ F p s')

section Frames

variable {R : σ → σ → Prop} {F : π → σ → Prop} {Q : α → σ → Prop} {s : σ}

variable {o : Outcome π σ α}

theorem Outcome.Runs.imp {Q' : α → σ → Prop} (h : o.Runs R F s Q)
    (hQ : ∀ a s', R s s' → Q a s' → Q' a s') : o.Runs R F s Q' :=
  Outcome.Sat.imp h fun a s' hq => ⟨hq.1, hQ a s' hq.1 hq.2⟩

/-- A wider frame and more failures. -/
theorem Outcome.Runs.mono {R' : σ → σ → Prop} {F' : π → σ → Prop} (h : o.Runs R F s Q)
    (hR : ∀ s', R s s' → R' s s') (hF : ∀ p s', F p s' → F' p s') :
    o.Runs R' F' s Q :=
  Outcome.Sat.mono h (fun _ s' hq => ⟨hR s' hq.1, hq.2⟩) fun p s' hp => ⟨hR s' hp.1, hF p s' hp.2⟩

/-- **The rule for sequences**: the frames of the two parts compose. -/
theorem Outcome.Runs.bind {m : Routine π σ α} {f : α → Routine π σ β} {Q' : β → σ → Prop}
    (trans : ∀ {a b c : σ}, R a b → R b c → R a c)
    (h : (m s).Runs R F s Q)
    (hf : ∀ a s', R s s' → Q a s' → (f a s').Runs R F s' Q') : ((m >>= f) s).Runs R F s Q' := by
  refine Outcome.Sat.bind h fun a s' hq => ?_
  exact Outcome.Sat.mono (hf a s' hq.1 hq.2) (fun b s'' hb => ⟨trans hq.1 hb.1, hb.2⟩)
    fun p s'' hp => ⟨trans hq.1 hp.1, hp.2⟩

theorem runs_pure (refl : ∀ a : σ, R a a) {a : α} (h : Q a s) :
    ((pure a : Routine π σ α) s).Runs R F s Q :=
  ⟨refl s, h⟩

theorem runs_stop (refl : ∀ a : σ, R a a) {p : π} (h : F p s) :
    ((Routine.stop p : Routine π σ α) s).Runs R F s Q :=
  ⟨refl s, h⟩

theorem runs_ite {c : Prop} [Decidable c] {m n : Routine π σ α}
    (ht : c → (m s).Runs R F s Q) (hf : ¬ c → (n s).Runs R F s Q) :
    ((if c then m else n) s).Runs R F s Q := by
  split
  · exact ht ‹_›
  · exact hf ‹_›

variable (h : o.Runs R F s Q)
include h

/-- The frame of a failure is forgotten. -/
theorem Outcome.Runs.sat : o.Sat (fun a s' => R s s' ∧ Q a s') F :=
  Outcome.Sat.mono h (fun _ _ hq => hq) fun _ _ hp => hp.2

theorem Outcome.Runs.of_ok {a : α} {s' : σ} (e : o = .ok a s') : R s s' ∧ Q a s' := by
  subst e
  exact h

theorem Outcome.Runs.of_fail {p : π} {s' : σ} (e : o = .fail p s') : R s s' ∧ F p s' := by
  subst e
  exact h

/-- A routine returns if its frame excludes its failures. -/
theorem Outcome.Runs.returns (hF : ∀ p s', R s s' → ¬ F p s') :
    ∃ a s', o = .ok a s' ∧ R s s' ∧ Q a s' := by
  cases o with
  | ok a s' => exact ⟨a, s', rfl, h⟩
  | fail p s' => exact absurd h.2 (hF p s' h.1)

end Frames

end HaiOS.Lib
