/-
  File:      HaiOS/Pipe/Wakeup.lean
  Subject:   WHO SLEEPS ON A PIPE, AND WHY. A process sleeps on a channel of the pipe only while
             what it waits for has not happened, or while the holder of the lock still owes it a
             wakeup.

  * `Owed` -- the debt: the holder of `pi->lock` has changed the pipe and its `wakeup` has not
    come past the process yet;
  * `Wakes`, `wakes_step` -- no sleeper without a reason, kept by every step but one: a writer
    that finds itself killed after it has stored bytes returns without waking the readers;
  * `pipe_wakeups` -- so no wakeup is lost in the runs without such a step;
  * `pipe_wakeup_lost` -- and one is lost in a run with it.
-/
import HaiOS.Pipe.Machine

namespace HaiOS.Pipes

open Lib Function

variable {N : Nat}

/-- There is a reason to sleep on the channel. -/
def Pipe.idle (p : Pipe) : Chan → Bool
  | .nread => p.empty && p.writeopen
  | .nwrite => p.full && p.readopen

/-- The slot from which on the processes on channel `c` have still to be woken by a process at
    this place in the code. -/
def Pc.owes : Pc → Chan → Option Nat
  | .wLoop _ k j, .nread | .wCopy _ k j, .nread => if j < k then some 0 else none
  | .rLoop _ k, .nwrite | .rCopy _ k, .nwrite => if 0 < k then some 0 else none
  | .wake c k _, d => if c = d then some k else none
  | _, _ => none

/-- **Process `q` sleeps on `c` for a reason**, or will be woken by the holder of the lock. -/
def Owed (s : Sys N) (c : Chan) (q : Fin N) : Prop :=
  s.pipe.idle c = true ∨ ∃ i k, s.lock = some i ∧ (s.proc i).pc.owes c = some k ∧ k ≤ q

/-- What a process at this place has found out about the pipe since it took the lock: a writer
    that has stored bytes has found a reader, one that is about to sleep has found no room. -/
def Pc.tested (p : Pipe) : Pc → Prop
  | .wLoop _ k j => j ≤ k ∧ (j < k → p.readopen = true)
  | .wCopy _ k j => j ≤ k ∧ p.readopen = true
  | .wake _ _ (.sleep ..) => p.idle .nwrite = true
  | _ => True

/-- The invariant of the wakeups. -/
structure Wakes (s : Sys N) : Prop where
  owed : ∀ q c, (s.proc q).run.chan = some c → Owed s c q
  tested : ∀ i, (s.proc i).pc.tested s.pipe

section Owed

variable {s s' : Sys N} {i q : Fin N} {c : Chan}

theorem owed_free (h : s.lock = none) : Owed s c q ↔ s.pipe.idle c = true := by
  unfold Owed
  rw [h]
  simp

theorem owed_held (h : s.lock = some i) :
    Owed s c q ↔ s.pipe.idle c = true ∨ ∃ k, (s.proc i).pc.owes c = some k ∧ k ≤ q := by
  unfold Owed
  rw [h]
  simp

/-- Nothing is owed to the last process. -/
theorem idle_of_owed {d : Chan} {x : Next} (h : s.lock = some i)
    (hpc : (s.proc i).pc = .wake d N x) (ho : Owed s c q) : s.pipe.idle c = true := by
  rcases (owed_held h).mp ho with h0 | ⟨k, hk, hle⟩
  · exact h0
  · rw [hpc] at hk
    simp only [Pc.owes] at hk
    split at hk
    · have := Option.some.inj hk
      have := q.isLt
      omega
    · cases hk

end Owed

section Steps

variable {s s' : Sys N} {i : Fin N} {p : Proc}

/-- A process outside the lock has tested nothing. -/
theorem tested_of_out {pc : Pc} (h : pc.holds = false) (x : Pipe) : pc.tested x := by
  cases pc <;> trivial

/-- **Process `i` becomes `p`**, holding the lock or taking it, or without a look at the pipe. -/
theorem Wakes.move (h : Wakes s) (hI : Inv s) (hproc : s'.proc = update s.proc i p)
    (hturn : s.lock = some i ∨ s.lock = none ∨ s'.pipe = s.pipe)
    (howed : ∀ q c, q ≠ i → (s.proc q).run.chan = some c → Owed s c q → Owed s' c q)
    (hself : ∀ c, p.run.chan = some c → Owed s' c i) (htested : p.pc.tested s'.pipe) :
    Wakes s' := by
  have heq : s'.proc i = p := by rw [hproc, update_self]
  have hother : ∀ j, j ≠ i → s'.proc j = s.proc j := fun j hj => by
    rw [hproc, update_of_ne hj]
  refine ⟨fun q c hq => ?_, fun j => ?_⟩
  · by_cases e : q = i
    · subst e
      rw [heq] at hq
      exact hself c hq
    · rw [hother q e] at hq
      exact howed q c e hq (h.owed q c hq)
  · by_cases e : j = i
    · subst e
      rw [heq]
      exact htested
    · rw [hother j e]
      cases hh : (s.proc j).pc.holds with
      | false => exact tested_of_out hh _
      | true =>
        -- another process that holds the lock sees the same pipe
        have hl := (hI.lock j).mpr hh
        rcases hturn with hl' | hl' | e'
        · rw [hl'] at hl
          exact absurd (Option.some.inj hl).symm e
        · rw [hl'] at hl
          cases hl
        · rw [e']
          exact h.tested j

/-- The holder goes on to `pc`, which owes at least what it owed so far. -/
theorem Wakes.goto {pc : Pc} (h : Wakes s) (hI : Inv s) (hold : (s.proc i).pc.holds = true)
    (howes : ∀ c k, (s.proc i).pc.owes c = some k → pc.owes c = some k)
    (htested : pc.tested s.pipe) : Wakes (s.goto i pc) := by
  have hl := (hI.lock i).mpr hold
  have hl' : (s.goto i pc).lock = some i := hl
  refine h.move hI rfl (Or.inl hl) (fun q c _ _ ho => ?_)
    (fun c hc => absurd hc (hI.holder_chan hold c)) htested
  rcases (owed_held hl).mp ho with h0 | ⟨k, hk, hle⟩
  · exact Or.inl h0
  · refine (owed_held hl').mpr (Or.inr ⟨k, ?_, hle⟩)
    show (update s.proc i _ i).pc.owes c = some k
    rw [update_self]
    exact howes c k hk

variable {c d : Chan}

section

variable (h : Wakes s) (hI : Inv s)
include h hI

/-- The holder starts the `wakeup` of the only channel it may owe, and of all processes on it. -/
theorem Wakes.announce {x : Next} {pc : Pc} (hpc : (s.proc i).pc = pc) (hold : pc.holds = true)
    (howes : ∀ d k, pc.owes d = some k → d = c ∧ k = 0)
    (htested : (Pc.wake c 0 x).tested s.pipe) : Wakes (s.goto i (.wake c 0 x)) := by
  subst hpc
  refine h.goto hI hold (fun d k hk => ?_) htested
  obtain ⟨rfl, rfl⟩ := howes d k hk
  exact if_pos rfl

/-- The holder leaves: it must not owe anything. -/
theorem Wakes.leave (hold : (s.proc i).pc.holds = true)
    (hproc : s'.proc = update s.proc i p) (hpipe : s'.pipe = s.pipe) (hlock : s'.lock = none)
    (howes : ∀ q c, Owed s c q → s.pipe.idle c = true) (hnew : p.pc.holds = false)
    (hself : ∀ c, p.run.chan = some c → s.pipe.idle c = true) : Wakes s' := by
  refine h.move hI hproc (Or.inl ((hI.lock i).mpr hold)) (fun q c _ _ ho => ?_) (fun c hc => ?_)
    (tested_of_out hnew _)
  · rw [owed_free hlock, hpipe]
    exact howes q c ho
  · rw [owed_free hlock, hpipe]
    exact hself c hc

/-- A process outside takes the lock and leaves the pipe as it is. -/
theorem Wakes.takes {pc : Pc} (hlock : s.lock = none)
    (hproc : s'.proc = update s.proc i { s.proc i with pc := pc })
    (hpipe : s'.pipe = s.pipe) (hawake : (s.proc i).run.chan = none)
    (htested : pc.tested s'.pipe) : Wakes s' := by
  refine h.move hI hproc (Or.inr (Or.inl hlock)) (fun q c _ _ ho => ?_) (fun c hc => ?_) htested
  · refine Or.inl ?_
    rw [hpipe]
    exact (owed_free hlock).mp ho
  · rw [show (s.proc i).run.chan = none from hawake] at hc
    cases hc

/-- What happens to a process under its own lock leaves it where it slept, or awake. -/
theorem Wakes.touch (hpc : p.pc = (s.proc i).pc)
    (hrun : ∀ c, p.run.chan = some c → (s.proc i).run.chan = some c) : Wakes (s.set i p) := by
  have hsame : ∀ j, ((s.set i p).proc j).pc = (s.proc j).pc := by
    intro j
    show (update s.proc i p j).pc = _
    by_cases e : j = i
    · subst e
      rw [update_self, hpc]
    · rw [update_of_ne e]
  have howed : ∀ q c, Owed s c q → Owed (s.set i p) c q := by
    rintro q c (h0 | ⟨j, k, hl, hk, hle⟩)
    · exact Or.inl h0
    · exact Or.inr ⟨j, k, hl, by rw [hsame]; exact hk, hle⟩
  exact h.move hI rfl (Or.inr (Or.inr rfl)) (fun q c _ _ ho => howed q c ho)
    (fun c hc => howed i c (h.owed i c (hrun c hc))) (hpc ▸ h.tested i)

end

/-- **The step does not strand the readers**: a writer that finds itself killed at the head of
    its loop has stored no byte since it last woke the readers or entered. -/
def Heeds (s : Sys N) : Act N → Prop
  | .step i => ∀ n k j, (s.proc i).pc = .wLoop n k j → (k : Int) < n →
      (s.proc i).killed = true → j = k
  | .kill _ => True

/-- The holder of the lock owes nothing at this place, so every sleeper has a reason. -/
theorem idle_of_owes_none {q : Fin N} (hl : s.lock = some i) (hnone : (s.proc i).pc.owes c = none)
    (ho : Owed s c q) : s.pipe.idle c = true := by
  rcases (owed_held hl).mp ho with h0 | ⟨k, hk, -⟩
  · exact h0
  · rw [hnone] at hk
    cases hk

/-- `acquire`: what `pipeclose` changes under the lock it goes on to announce. -/
theorem wakes_acquire {c : Call} (h : Wakes s) (hI : Inv s) (hpc : (s.proc i).pc = .enter c)
    (hlock : s.lock = none) :
    Wakes { s.goto i c.start with lock := some i, pipe := c.enters s.pipe } := by
  have hawake := hI.awake (i := i) (by rw [hpc]; rfl)
  cases c with
  | write n =>
    exact h.takes hI hlock rfl rfl hawake ⟨Nat.le_refl 0, fun h0 => absurd h0 (Nat.lt_irrefl 0)⟩
  | read n => exact h.takes hI hlock rfl rfl hawake trivial
  | close writable =>
    refine h.move hI rfl (Or.inr (Or.inl hlock)) (fun q d _ _ ho => ?_) (fun d hd => ?_) ?_
    · have h0 := (owed_free hlock).mp ho
      -- the sleepers on the other channel keep their reason
      cases writable <;> cases d
      · exact Or.inl h0
      · exact Or.inr ⟨i, 0, rfl, by simp [Sys.goto, Sys.set, Call.start, Pc.owes], Nat.zero_le _⟩
      · exact Or.inr ⟨i, 0, rfl, by simp [Sys.goto, Sys.set, Call.start, Pc.owes], Nat.zero_le _⟩
      · exact Or.inl h0
    · rw [show (s.proc i).run.chan = none from hawake] at hd
      cases hd
    · cases writable <;> trivial

/-- One visit of `wakeup(c)`: the process at slot `k` is not owed anything any more. -/
theorem wakes_visit {k : Fin N} {x : Next} (h : Wakes s) (hI : Inv s)
    (hpc : (s.proc i).pc = .wake c k x) (hdone : (s.proc k).run.chan ≠ some c) :
    Wakes (s.goto i (.wake c (k + 1) x)) := by
  have hold : (s.proc i).pc.holds = true := by rw [hpc]; rfl
  have hl := (hI.lock i).mpr hold
  have hl' : (s.goto i (.wake c (k + 1) x)).lock = some i := hl
  refine h.move hI rfl (Or.inl hl) (fun q d _ hq ho => ?_) (fun d hd => ?_) ?_
  · rcases (owed_held hl).mp ho with h0 | ⟨m, hm, hle⟩
    · exact Or.inl h0
    · rw [hpc] at hm
      simp only [Pc.owes] at hm
      split at hm
      · rename_i e
        subst e
        have hkq : q ≠ k := fun e => hdone (e ▸ hq)
        have hne : (q : Nat) ≠ k := fun e => hkq (Fin.ext e)
        have hmk := Option.some.inj hm
        refine (owed_held hl').mpr (Or.inr ⟨k + 1, ?_, by omega⟩)
        simp [Sys.goto, Sys.set, Pc.owes]
      · cases hm
  · exact absurd hd (hI.holder_chan hold d)
  · have := h.tested i
    rw [hpc] at this
    cases x <;> exact this

theorem owes_write {n : Int} {k j m : Nat}
    (h : (Pc.wLoop n k j).owes d = some m ∨ (Pc.wCopy n k j).owes d = some m) :
    d = .nread ∧ m = 0 := by
  cases d with
  | nread =>
    simp only [Pc.owes, or_self, Option.ite_none_right_eq_some, Option.some.injEq] at h
    exact ⟨rfl, h.2.symm⟩
  | nwrite => rcases h with h | h <;> cases h

theorem owes_read {n : Int} {k m : Nat}
    (h : (Pc.rLoop n k).owes d = some m ∨ (Pc.rCopy n k).owes d = some m) :
    d = .nwrite ∧ m = 0 := by
  cases d with
  | nread => rcases h with h | h <;> cases h
  | nwrite =>
    simp only [Pc.owes, or_self, Option.ite_none_right_eq_some, Option.some.injEq] at h
    exact ⟨rfl, h.2.symm⟩

/-- **Every step but the stranding one keeps the invariant.** -/
theorem wakes_step {a : Act N} (h : Wakes s) (hI : Inv s) (hh : Heeds s a) (hs : Step s a s') :
    Wakes s' := by
  -- the holder of the lock is awake
  have hrun : ∀ {i : Fin N} {c : Chan} {P : Prop}, (s.proc i).pc.holds = true →
      (s.proc i).run.chan = some c → P := by
    intro i c P hold hc
    exact absurd hc (hI.holder_chan hold c)
  cases hs with
  | call i c r hpc =>
    have hawake := hI.awake (i := i) (by rw [hpc]; rfl)
    refine h.move hI rfl (Or.inr (Or.inr rfl)) (fun q d _ _ ho => ?_) (fun d hd => ?_) trivial
    · rcases ho with h0 | ⟨j, k, hl, hk, hle⟩
      · exact Or.inl h0
      · refine Or.inr ⟨j, k, hl, ?_, hle⟩
        have hne : j ≠ i := fun e => by
          have := (hI.lock j).mp hl
          rw [e, hpc] at this
          cases this
        show (update s.proc i _ j).pc.owes d = some k
        rw [update_of_ne hne]
        exact hk
    · rw [show (s.proc i).run.chan = none from hawake] at hd
      cases hd
  | acquire i c hpc hlock => exact wakes_acquire h hI hpc hlock
  | wGone i n k j hpc hn hgone =>
    have hold : (s.proc i).pc.holds = true := by rw [hpc]; rfl
    -- a writer without readers has stored nothing since it took the lock
    have hj : ¬ j < k := by
      rcases hgone with hg | hg
      · intro hlt
        have ht := h.tested i
        rw [hpc] at ht
        rw [ht.2 hlt] at hg
        cases hg
      · rw [hh n k j hpc hn hg]
        exact Nat.lt_irrefl k
    refine h.leave hI hold rfl rfl rfl (fun q c ho => ?_) rfl fun c hc => hrun hold hc
    refine idle_of_owes_none ((hI.lock i).mpr hold) ?_ ho
    rw [hpc]
    cases c <;> simp [Pc.owes, hj]
  | wFull i n k j hpc hn hopen hlive hfull =>
    exact h.announce hI hpc rfl (fun d m hm => owes_write (Or.inl hm))
      (by simp [Pc.tested, Pipe.idle, hfull, hopen])
  | wRoom i n k j hpc hn hopen =>
    have ht := h.tested i
    rw [hpc] at ht
    refine h.goto hI (by rw [hpc]; rfl) (fun c m hm => ?_) ⟨ht.1, hopen⟩
    rw [hpc] at hm
    cases c <;> exact hm
  | wByte i n k j ch hpc =>
    have hold : (s.proc i).pc.holds = true := by rw [hpc]; rfl
    have hl := (hI.lock i).mpr hold
    have ht := h.tested i
    rw [hpc] at ht
    refine h.move hI rfl (Or.inl hl) (fun q c _ _ ho => ?_) (fun c hc => hrun hold hc)
      ⟨Nat.le_succ_of_le ht.1, fun _ => ht.2⟩
    cases c with
    | nread =>
      refine Or.inr ⟨i, 0, hl, ?_, Nat.zero_le _⟩
      simp [Sys.set, Pc.owes, Nat.lt_succ_of_le ht.1]
    | nwrite =>
      -- nobody sleeps for room while there is some
      have h0 := idle_of_owes_none hl (by rw [hpc]; rfl) ho
      simp [Pipe.idle, hI.room hpc] at h0
  | wFault i n k j hpc =>
    exact h.announce hI hpc rfl (fun d m hm => owes_write (Or.inr hm)) trivial
  | wDone i n k j hpc =>
    exact h.announce hI hpc rfl (fun d m hm => owes_write (Or.inl hm)) trivial
  | rKilled i n hpc =>
    have hold : (s.proc i).pc.holds = true := by rw [hpc]; rfl
    refine h.leave hI hold rfl rfl rfl (fun q c ho => ?_) rfl fun c hc => hrun hold hc
    exact idle_of_owes_none ((hI.lock i).mpr hold) (by rw [hpc]; cases c <;> rfl) ho
  | rEmpty i n hpc hempty hopen =>
    have hold : (s.proc i).pc.holds = true := by rw [hpc]; rfl
    refine h.leave hI hold rfl rfl rfl (fun q c ho => ?_) rfl fun c hc => ?_
    · exact idle_of_owes_none ((hI.lock i).mpr hold) (by rw [hpc]; cases c <;> rfl) ho
    · obtain rfl : Chan.nread = c := Option.some.inj hc
      simp [Pipe.idle, hempty, hopen]
  | rReady i n hpc =>
    refine h.goto hI (by rw [hpc]; rfl) (fun c m hm => ?_) trivial
    rw [hpc] at hm
    cases c <;> cases hm
  | rNext i n k hpc =>
    refine h.goto hI (by rw [hpc]; rfl) (fun c m hm => ?_) trivial
    rw [hpc] at hm
    cases c <;> exact hm
  | rByte i n k hpc =>
    have hold : (s.proc i).pc.holds = true := by rw [hpc]; rfl
    have hl := (hI.lock i).mpr hold
    refine h.move hI rfl (Or.inl hl) (fun q c _ _ ho => ?_) (fun c hc => hrun hold hc) trivial
    cases c with
    | nread =>
      -- nobody sleeps for bytes while there are some
      have h0 := idle_of_owes_none hl (by rw [hpc]; rfl) ho
      simp [Pipe.idle, hI.more hpc] at h0
    | nwrite =>
      refine Or.inr ⟨i, 0, hl, ?_, Nat.zero_le _⟩
      simp [Sys.set, Pc.owes]
  | rFault i n k hpc =>
    exact h.announce hI hpc rfl (fun d m hm => owes_read (Or.inr hm)) trivial
  | rDone i n k hpc =>
    exact h.announce hI hpc rfl (fun d m hm => owes_read (Or.inl hm)) trivial
  | wake i k c x hpc hk hfree =>
    have h1 : Wakes (s.set k ((s.proc k).woken c)) :=
      h.touch hI (by simp) fun d hd => woken_chan c d hd
    have hI1 : Inv (s.set k ((s.proc k).woken c)) :=
      hI.touch (by simp) (by simp) fun d hd => woken_chan c d hd
    have hsame : (s.set k ((s.proc k).woken c)).proc i = s.proc i :=
      update_of_ne (fun e => hk e.symm) _ _
    refine wakes_visit h1 hI1 (by rw [hsame, hpc]) ?_
    show (update s.proc k _ k).run.chan ≠ some c
    rw [update_self]
    -- its lock is free, so it is not on its way to sleep
    unfold Proc.woken
    intro hc
    split at hc
    · cases hc
    · rename_i hne
      cases hr : (s.proc k).run with
      | awake => rw [hr] at hc; cases hc
      | falling d => exact hfree d hr
      | sleeping d =>
        rw [hr] at hc
        obtain rfl : d = c := Option.some.inj hc
        exact hne hr
  | wakeSelf i c x hpc =>
    exact wakes_visit h hI hpc fun hc => hrun (by rw [hpc]; rfl) hc
  | wSleep i c n k hpc =>
    have hold : (s.proc i).pc.holds = true := by rw [hpc]; rfl
    refine h.leave hI hold rfl rfl rfl
      (fun q d ho => idle_of_owed ((hI.lock i).mpr hold) hpc ho) rfl fun d hd => ?_
    obtain rfl : Chan.nwrite = d := Option.some.inj hd
    have ht := h.tested i
    rw [hpc] at ht
    exact ht
  | ret i c r hpc =>
    have hold : (s.proc i).pc.holds = true := by rw [hpc]; rfl
    exact h.leave hI hold rfl rfl rfl
      (fun q d ho => idle_of_owed ((hI.lock i).mpr hold) hpc ho) rfl fun d hd => hrun hold hd
  | closed i c hpc =>
    have hold : (s.proc i).pc.holds = true := by rw [hpc]; rfl
    exact h.leave hI hold rfl rfl rfl
      (fun q d ho => idle_of_owed ((hI.lock i).mpr hold) hpc ho) rfl fun d hd => hrun hold hd
  | asleep i c hr => exact h.touch hI rfl fun d hd => by rw [hr]; exact hd
  | wAgain i n k hpc hr hlock =>
    exact h.takes hI hlock rfl rfl (by rw [hr]; rfl)
      ⟨Nat.le_refl k, fun h0 => absurd h0 (Nat.lt_irrefl k)⟩
  | rAgain i n hpc hr hlock => exact h.takes hI hlock rfl rfl (by rw [hr]; rfl) trivial
  | kill i => exact h.touch hI (by simp) fun d hd => kill_chan d hd

end Steps

theorem wakes_initial {s : Sys N} (h : Initial s) : Wakes s := by
  obtain ⟨-, -, -, -, -, -, -, -, h9⟩ := h
  refine ⟨fun q c hq => ?_, fun i => ?_⟩
  · rw [(h9 q).2] at hq
    cases hq
  · rw [(h9 i).1]
    trivial

/-- The states reached by steps that do not strand the readers. -/
def Heeded : Sys N → Prop := Reach Initial fun s s' => ∃ a, Heeds s a ∧ Step s a s'

/-- **NO LOST WAKEUP ON PIPES**, in the runs in which no writer is killed between storing a byte
    and waking the readers: whenever the lock is free, a process sleeps on `&pi->nread` only while
    the pipe is empty and has a writer, and on `&pi->nwrite` only while it is full and has a
    reader. -/
theorem pipe_wakeups {s : Sys N} (h : Heeded s) (hlock : s.lock = none) (q : Fin N) :
    ((s.proc q).run = .sleeping .nread → s.pipe.empty = true ∧ s.pipe.writeopen = true) ∧
    ((s.proc q).run = .sleeping .nwrite → s.pipe.full = true ∧ s.pipe.readopen = true) := by
  have hW : Inv s ∧ Wakes s :=
    h.invariant (I := fun s => Inv s ∧ Wakes s)
      (fun s h0 => ⟨inv_initial h0, wakes_initial h0⟩) fun s s' hI ⟨a, hh, hs⟩ =>
        ⟨inv_step hI.1 hs, wakes_step hI.2 hI.1 hh hs⟩
  have hidle : ∀ c, (s.proc q).run = .sleeping c → s.pipe.idle c = true := fun c hc =>
    (owed_free hlock).mp (hW.2.owed q c (by rw [hc]; rfl))
  exact ⟨fun hc => by simpa [Pipe.idle] using hidle _ hc,
    fun hc => by simpa [Pipe.idle] using hidle _ hc⟩

/-! ## The stranded reader -/

/-- A step that is not one of a writer at the head of its loop strands nobody. -/
theorem Heeded.next {s s' : Sys N} {i : Fin N} (h : Heeded s) (hs : Step s (.step i) s')
    (hpc : ∀ n k j, (s.proc i).pc ≠ .wLoop n k j) : Heeded s' :=
  h.step ⟨.step i, fun n k j e => absurd e (hpc n k j), hs⟩

/-- Process 0 is in `piperead` of one byte and asleep, for the pipe is empty. -/
theorem pipe_wakeups_reader : ∃ s : Sys 2, Heeded s ∧ (s.proc 0).run = .sleeping .nread ∧
    s.pipe.empty = true ∧ s.pipe.writeopen = true := by
  have h0 : Heeded (boot : Sys 2) := .start initial_boot
  have h1 := h0.next (.call 0 (.read 1) none rfl) (fun _ _ _ e => by cases e)
  have h2 := h1.next (.acquire 0 (.read 1) rfl rfl rfl) (fun _ _ _ e => by cases e)
  have h3 := h2.next (.rEmpty 0 1 rfl rfl rfl rfl) (fun _ _ _ e => by cases e)
  have h4 := h3.next (.asleep 0 .nread rfl) (fun _ _ _ e => by cases e)
  exact ⟨_, h4, rfl, (pipe_wakeups h4 rfl 0).1 rfl⟩

/-- **A lost wakeup.** Process 0 sleeps in `piperead` on an empty pipe; process 1 writes two bytes
    and is killed after the first: it returns -1, the lock is free, and process 0 still sleeps on
    `&pi->nread` though there is a byte in the pipe. -/
theorem pipe_wakeup_lost : ∃ s : Sys 2, Reachable s ∧ s.lock = none ∧
    (s.proc 0).run = .sleeping .nread ∧ s.pipe.empty = false ∧ s.pipe.writeopen = true ∧
    (s.proc 1).pc = .out (some (-1)) ∧ s.accepted = [7] := by
  have h0 : Reachable (boot : Sys 2) := .start initial_boot
  have h1 := h0.step ⟨_, .call 0 (.read 1) none rfl⟩
  have h2 := h1.step ⟨_, .acquire 0 (.read 1) rfl rfl rfl⟩
  have h3 := h2.step ⟨_, .rEmpty 0 1 rfl rfl rfl rfl⟩
  have h4 := h3.step ⟨_, .asleep 0 .nread rfl⟩
  have h5 := h4.step ⟨_, .call 1 (.write 2) none rfl⟩
  have h6 := h5.step ⟨_, .acquire 1 (.write 2) rfl rfl rfl⟩
  have h7 := h6.step ⟨_, .wRoom 1 2 0 0 rfl (by decide) rfl rfl (by decide)⟩
  have h8 := h7.step ⟨_, .wByte 1 2 0 0 7 rfl⟩
  have h9 := h8.step ⟨_, .kill 1 (fun c e => by cases e)⟩
  have h10 := h9.step ⟨_, .wGone 1 2 1 0 rfl (by decide) (Or.inr rfl)⟩
  exact ⟨_, h10, rfl, rfl, by decide, rfl, rfl, rfl⟩

end HaiOS.Pipes
