/-
  File:      HaiOS/Lib/Commute.lean
  Subject:   ROUTINES THAT DO NOT LOOK AT A PART OF THE STATE. Names nothing of the kernel.

  A part of the state is given by a function `f` that changes it. A routine that neither reads nor
  writes that part does the same from `s` as from `f s`.

  * `Outcome.mapState` -- the outcome with `f` applied to its state;
  * `Commutes f I m` -- `m` does the same from `f s` as from `s`, and keeps `I`; one rule a
    construct.
-/
import HaiOS.Lib.Routine

namespace HaiOS.Lib

variable {π σ α β : Type}

/-- The outcome with `f` applied to its state. -/
def Outcome.mapState (f : σ → σ) : Outcome π σ α → Outcome π σ α
  | .ok a s => .ok a (f s)
  | .fail p s => .fail p (f s)

/-- **`m` does not look at what `f` changes**, from any state with `I`, and keeps `I`. -/
def Commutes (f : σ → σ) (I : σ → Prop) (m : Routine π σ α) : Prop :=
  ∀ s, I s → m (f s) = (m s).mapState f ∧ (m s).Sat (fun _ s' => I s') fun _ _ => True

section Rules

variable {f : σ → σ} {I : σ → Prop}

theorem commutes_pure (a : α) : Commutes f I (pure a : Routine π σ α) := fun _ h => ⟨rfl, h⟩

theorem commutes_gets {g : σ → α} (hg : ∀ s, g (f s) = g s) :
    Commutes f I (Routine.gets g : Routine π σ α) := fun s h =>
  ⟨by rw [Routine.gets, hg]; rfl, h⟩

theorem commutes_update {g : σ → σ} (hg : ∀ s, g (f s) = f (g s)) (hI : ∀ s, I s → I (g s)) :
    Commutes f I (Routine.update g : Routine π σ Unit) := fun s h =>
  ⟨by rw [Routine.update, hg]; rfl, hI s h⟩

variable {m : Routine π σ α} {n : α → Routine π σ β}

/-- Sequences, when the first part has a postcondition the second needs. -/
theorem Commutes.bind_post {Q : α → Prop} (hm : Commutes f I m)
    (hQ : ∀ s, I s → (m s).Sat (fun a _ => Q a) fun _ _ => True)
    (hn : ∀ a, Q a → Commutes f I (n a)) : Commutes f I (m >>= n) := by
  intro s h
  obtain ⟨he, hI⟩ := hm s h
  have hq := hQ s h
  cases hrun : m s with
  | ok a s' =>
    rw [hrun] at he hI hq
    rw [Routine.bind_ok hrun, Routine.bind_ok he]
    exact hn a hq s' hI
  | fail p s' =>
    rw [hrun] at he
    rw [Routine.bind_fail hrun, Routine.bind_fail he]
    exact ⟨rfl, trivial⟩

theorem Commutes.bind (hm : Commutes f I m) (hn : ∀ a, Commutes f I (n a)) :
    Commutes f I (m >>= n) := by
  refine hm.bind_post (Q := fun _ => True) (fun s _ => ?_) fun a _ => hn a
  cases m s with
  | ok a s' => trivial
  | fail p s' => trivial

theorem commutes_ite {c : Prop} [Decidable c] {m n : Routine π σ α} (hm : c → Commutes f I m)
    (hn : ¬ c → Commutes f I n) : Commutes f I (if c then m else n) := by
  split
  · exact hm ‹_›
  · exact hn ‹_›

end Rules

end HaiOS.Lib
