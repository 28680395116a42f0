/-
  File:      HaiOS/Proc/Bypass.lean
  Subject:   HOW OFTEN A READY PROCESS IS PASSED OVER, on one CPU.

  `scheduler` runs the RUNNABLE process of the highest priority, and of these the one that has
  waited longest by `sched_stamp`. Waiting raises no priority.

  * `Cpu`, `after`, `Legal` -- one CPU that runs one process at a time. It counts for each process
    how often another one was selected since it became RUNNABLE.
  * `bypassed_le` -- nobody is bypassed more than NPROC times but by processes of a higher priority
    and in the tick in which it became RUNNABLE.
  * `starved` -- by these there is no bound: a new child waits for as long as its parent computes.
-/
import HaiOS.Proc.Levels
import Mathlib.Data.Fintype.Card

namespace HaiOS.Sched

open Lib
open Procs (ProcState)

variable {s s' : Sys} {e : Event} {i j k : Fin NPROC}

/-! ## 1. The scan of the scheduler -/

/-- How long the process has waited at `now`. -/
def Proc.wait (p : Proc) (now : UInt32) : Nat :=
  if p.schedStamp ≤ now.toNat then now.toNat - p.schedStamp else 0

/-- `best`, `best_prio` and `best_wait`. -/
structure Best where
  best : Option (Fin NPROC)
  prio : Int
  wait : Nat

/-- One round of the scan, at slot `k`. -/
def consider (s : Sys) (b : Best) (k : Fin NPROC) : Best :=
  let p := s.proc k
  if p.state = .runnable then
    let wait := p.wait s.ticks
    if p.priority > b.prio ∨ (p.priority = b.prio ∧ (b.best = none ∨ wait > b.wait)) then
      ⟨some k, p.priority, wait⟩
    else b
  else b

/-- The process `scheduler` chooses. -/
def pick (s : Sys) : Option (Fin NPROC) :=
  ((List.finRange NPROC).foldl (consider s) ⟨none, -1, 0⟩).best

/-- `i` comes before `j`: a higher priority, or the same and no shorter wait. -/
def Before (s : Sys) (i j : Fin NPROC) : Prop :=
  (s.proc j).priority < (s.proc i).priority ∨
    ((s.proc j).priority = (s.proc i).priority ∧
      (s.proc j).wait s.ticks ≤ (s.proc i).wait s.ticks)

/-- What the scan knows after the slots of `l`. -/
structure Scanned (s : Sys) (l : List (Fin NPROC)) (b : Best) : Prop where
  none : b.best = none → b.prio = -1 ∧ ∀ j ∈ l, (s.proc j).state = .runnable →
    (s.proc j).priority < -1
  some : ∀ i, b.best = some i → (s.proc i).state = .runnable ∧ b.prio = (s.proc i).priority ∧
    b.wait = (s.proc i).wait s.ticks ∧ ∀ j ∈ l, (s.proc j).state = .runnable → Before s i j

theorem Scanned.consider {l : List (Fin NPROC)} {b : Best} (h : Scanned s l b) (k : Fin NPROC) :
    Scanned s (l ++ [k]) (consider s b k) := by
  have hmem : ∀ j, j ∈ l ++ [k] ↔ j ∈ l ∨ j = k := fun j => by
    rw [List.mem_append, List.mem_singleton]
  unfold Sched.consider
  dsimp only
  split
  · rename_i hk
    split
    · -- the slot is the best so far, and what was before it comes after it too
      rename_i hbest
      refine ⟨nofun, fun i hi => ?_⟩
      obtain rfl : k = i := Option.some.inj hi
      refine ⟨hk, rfl, rfl, fun j hj hr => ?_⟩
      rcases (hmem j).mp hj with hj | rfl
      · cases hb : b.best with
        | none =>
          have hlt := (h.none hb).2 j hj hr
          have hm := (h.none hb).1
          exact .inl (by omega)
        | some m =>
          obtain ⟨-, hp, hw, hall⟩ := h.some m hb
          have hbm := hall j hj hr
          unfold Before at hbm ⊢
          rw [hb] at hbest
          simp only [reduceCtorEq, false_or] at hbest
          omega
      · exact .inr ⟨rfl, le_rfl⟩
    · rename_i hbest
      constructor
      · intro hb
        refine ⟨(h.none hb).1, fun j hj hr => ?_⟩
        rcases (hmem j).mp hj with hj | rfl
        · exact (h.none hb).2 j hj hr
        · have hm := (h.none hb).1
          simp only [hb, true_or, and_true] at hbest
          omega
      · intro i hi
        obtain ⟨hr, hp, hw, hall⟩ := h.some i hi
        refine ⟨hr, hp, hw, fun j hj hjr => ?_⟩
        rcases (hmem j).mp hj with hj | rfl
        · exact hall j hj hjr
        · simp only [hi, reduceCtorEq, false_or] at hbest
          unfold Before
          omega
  · rename_i hk
    constructor
    · intro hb
      refine ⟨(h.none hb).1, fun j hj hr => ?_⟩
      rcases (hmem j).mp hj with hj | rfl
      · exact (h.none hb).2 j hj hr
      · exact absurd hr hk
    · intro i hi
      obtain ⟨hr, hp, hw, hall⟩ := h.some i hi
      refine ⟨hr, hp, hw, fun j hj hjr => ?_⟩
      rcases (hmem j).mp hj with hj | rfl
      · exact hall j hj hjr
      · exact absurd hjr hk

theorem Scanned.foldl {l l' : List (Fin NPROC)} {b : Best} (h : Scanned s l b) :
    Scanned s (l ++ l') (l'.foldl (Sched.consider s) b) := by
  induction l' generalizing l b with
  | nil => rwa [List.append_nil]
  | cons k l' ih =>
    have h' := ih (h.consider k)
    rwa [List.append_assoc] at h'

theorem scanned (s : Sys) :
    Scanned s (List.finRange NPROC)
      ((List.finRange NPROC).foldl (consider s) ⟨none, -1, 0⟩) := by
  have h0 : Scanned s [] ⟨none, -1, 0⟩ := ⟨fun _ => ⟨rfl, nofun⟩, nofun⟩
  exact h0.foldl

/-- **The choice of the scheduler** is RUNNABLE and comes before every RUNNABLE process. -/
theorem pick_best (h : pick s = some i) :
    (s.proc i).state = .runnable ∧ ∀ j, (s.proc j).state = .runnable → Before s i j := by
  obtain ⟨hr, -, -, hall⟩ := (scanned s).some i h
  exact ⟨hr, fun j hj => hall j (List.mem_finRange j) hj⟩

/-- The table, the process that runs, and the history: for each RUNNABLE process how many times
    another one was selected since it became so, and how many of these times it was slighted. -/
structure Cpu where
  sys : Sys
  cur : Option (Fin NPROC)
  bypassed : Fin NPROC → Nat
  slighted : Fin NPROC → Nat

def Event.selects : Event → Bool
  | .select .. => true
  | _ => false

/-- A process of a higher priority than `j` is selected, or any one before the tick in which `j`
    became RUNNABLE is over. -/
def Event.slights (s : Sys) (j : Fin NPROC) : Event → Bool
  | .select i _ =>
    decide ((s.proc j).priority < (s.proc i).priority ∨ s.ticks.toNat ≤ (s.proc j).schedStamp)
  | _ => false

/-- The process on the CPU after the event. -/
def Event.cur (c : Option (Fin NPROC)) : Event → Option (Fin NPROC)
  | .select i _ => some i
  | .timer _ | .preempt _ | .sleep .. | .exit _ => none
  | _ => c

/-- The state after the event. -/
def after (c : Cpu) (e : Event) : Cpu where
  sys := next c.sys e
  cur := e.cur c.cur
  bypassed := fun j =>
    if (c.sys.proc j).state = .runnable ∧ ((next c.sys e).proc j).state = .runnable then
      c.bypassed j + e.selects.toNat
    else 0
  slighted := fun j =>
    if (c.sys.proc j).state = .runnable ∧ ((next c.sys e).proc j).state = .runnable then
      c.slighted j + (e.slights c.sys j).toNat
    else 0

variable {c : Cpu}

theorem after_counts (h : (c.sys.proc j).state = .runnable)
    (h' : ((next c.sys e).proc j).state = .runnable) :
    (after c e).bypassed j = c.bypassed j + e.selects.toNat ∧
      (after c e).slighted j = c.slighted j + (e.slights c.sys j).toNat :=
  ⟨if_pos ⟨h, h'⟩, if_pos ⟨h, h'⟩⟩

/-- What one CPU can do next: the scheduler when nothing runs, else the process that runs; a clock
    interrupt and a `wakeup` at any time. Nobody is killed and no priority is set. -/
def Legal (c : Cpu) : Event → Prop
  | .select i now => c.cur = none ∧ now = c.sys.ticks ∧ pick c.sys = some i
  | .clock | .wakeup _ => True
  | .timer i | .preempt i | .sleep i _ | .setkilled i | .exit i | .alloc i _ | .allocFail i _
  | .start i _ | .reap i _ => c.cur = some i
  | .kkill .. | .setpriority .. => False

/-- The scheduler loop begins. -/
def Cpu.boot : Cpu := ⟨Sched.boot, none, fun _ => 0, fun _ => 0⟩

/-- The states of the CPU that steps with `P` reach. -/
def RunsBy (P : Cpu → Event → Prop) : Cpu → Prop :=
  Reach (· = Cpu.boot) fun c c' => ∃ e, P c e ∧ Legal c e ∧ Allowed c.sys e ∧ c' = after c e

/-! ## 3. The queue -/

/-- Nobody is RUNNABLE when `ticks` wraps. -/
def Timely (c : Cpu) : Event → Prop
  | .clock => c.sys.ticks + 1 = 0 → ∀ j, (c.sys.proc j).state ≠ .runnable
  | _ => True

/-- The RUNNABLE processes that became so no later than `j`. -/
def ahead (s : Sys) (j : Fin NPROC) : Finset (Fin NPROC) :=
  {k | k ≠ j ∧ (s.proc k).state = .runnable ∧ (s.proc k).schedStamp ≤ (s.proc j).schedStamp}

theorem ahead_lt (s : Sys) (j : Fin NPROC) : (ahead s j).card < NPROC := by
  have h : ahead s j ⊂ Finset.univ := by
    refine Finset.ssubset_univ_iff.mpr fun e => ?_
    have hj : j ∈ ahead s j := by rw [e]; exact Finset.mem_univ j
    exact (Finset.mem_filter.mp hj).2.1 rfl
  have := Finset.card_lt_card h
  rwa [Finset.card_univ, Fintype.card_fin] at this

/-- **The queue**: who became RUNNABLE at this tick has been bypassed only when slighted; who did so
    before, beside that at most as often as processes have left the queue ahead of it. -/
structure Queue (c : Cpu) : Prop where
  stamp : ∀ j, (c.sys.proc j).state = .runnable → (c.sys.proc j).schedStamp ≤ c.sys.ticks.toNat
  fresh : ∀ j, (c.sys.proc j).state = .runnable →
    (c.sys.proc j).schedStamp = c.sys.ticks.toNat → c.bypassed j ≤ c.slighted j
  old : ∀ j, (c.sys.proc j).state = .runnable → (c.sys.proc j).schedStamp < c.sys.ticks.toNat →
    c.bypassed j + (ahead c.sys j).card ≤ c.slighted j + NPROC

/-- Who is RUNNABLE in `s'` was so before with the same stamp, or became so at this tick. -/
def Joins (s s' : Sys) : Prop :=
  ∀ j, (s'.proc j).state = .runnable →
    ((s.proc j).state = .runnable ∧ (s'.proc j).schedStamp = (s.proc j).schedStamp) ∨
    ((s.proc j).state ≠ .runnable ∧ (s'.proc j).schedStamp = s.ticks.toNat)

/-- Only slot `k` changes, and it was not RUNNABLE. -/
theorem joins_upd {t : Sys} (f : Proc → Proc) (ht : ∀ j, j ≠ k → t.proc j = s.proc j)
    (hk : (s.proc k).state ≠ .runnable)
    (hf : (f (t.proc k)).state = .runnable → (f (t.proc k)).schedStamp = s.ticks.toNat) :
    Joins s (t.upd k f) := by
  intro j hj
  rcases eq_or_ne j k with rfl | hjk
  · rw [upd_same] at hj ⊢
    exact .inr ⟨hk, hf hj⟩
  · rw [upd_other hjk, ht j hjk] at hj ⊢
    exact .inl ⟨hj, rfl⟩

/-- **The steps but for the clock and the selections** let processes join the queue at its end, or
    leave it. -/
theorem joins_next {c : Cpu} (hc : e ≠ .clock) (hsel : e.selects = false) (hl : Legal c e)
    (ha : Allowed c.sys e) : Joins c.sys (next c.sys e) := by
  have hne {st : ProcState} {k : Fin NPROC} (h : (c.sys.proc k).state = st)
      (hst : st ≠ .runnable) : (c.sys.proc k).state ≠ .runnable := by rwa [h]
  have hrefl : ∀ k j, j ≠ k → c.sys.proc j = c.sys.proc j := fun _ _ _ => rfl
  cases e with
  | clock => exact absurd rfl hc
  | select i now => cases hsel
  | timer i =>
    exact joins_upd (fun p => p.procTick.yield c.sys.ticks) (hrefl i) (hne ha (by decide)) fun _ => rfl
  | preempt i => exact joins_upd (·.yield c.sys.ticks) (hrefl i) (hne ha (by decide)) fun _ => rfl
  | alloc i k =>
    refine joins_upd ({ · with parent := some i }) (fun _ h => allocproc_other h)
      (hne ha.2 (by decide)) fun h => ?_
    rw [allocproc_same] at h
    cases h
  | allocFail i k =>
    exact joins_upd (·.freeproc) (fun _ h => allocproc_other h) (hne ha.2 (by decide)) (fun h => by cases h)
  | start i k => exact joins_upd (·.start c.sys.ticks) (hrefl k) (hne ha.2.1 (by decide)) fun _ => rfl
  | sleep i chan => exact joins_upd (·.sleep chan) (hrefl i) (hne ha (by decide)) fun h => by cases h
  | wakeup k => exact joins_upd (·.wakeup c.sys.ticks) (hrefl k) (hne ha (by decide)) fun _ => rfl
  | exit i =>
    intro j hj
    rcases eq_or_ne j i with rfl | hji
    · rw [next, upd_same] at hj
      cases hj
    · rw [next, upd_other hji, Sys.reparent] at hj ⊢
      dsimp only at hj ⊢
      split at hj
      · rename_i hp
        rw [if_pos hp]
        exact .inl ⟨hj, rfl⟩
      · rename_i hp
        rw [if_neg hp]
        exact .inl ⟨hj, rfl⟩
  | reap i k => exact joins_upd (·.freeproc) (hrefl k) (hne ha.2.1 (by decide)) fun h => by cases h
  | setkilled i =>
    intro j hj
    rcases eq_or_ne j i with rfl | hji
    · rw [next, setkilled_same] at hj
      exact absurd hj (hne ha (by decide))
    · rw [next, setkilled_other hji] at hj ⊢
      exact .inl ⟨hj, rfl⟩
  | kkill pid k => cases hl
  | setpriority pid prio k => cases hl

/-- A step that only lets processes join or leave keeps the queue. -/
theorem Queue.joins {c c' : Cpu} (h : Queue c) (hj : Joins c.sys c'.sys)
    (ht : c'.sys.ticks = c.sys.ticks)
    (hold : ∀ j, (c.sys.proc j).state = .runnable → (c'.sys.proc j).state = .runnable →
      c'.bypassed j = c.bypassed j ∧ c'.slighted j = c.slighted j)
    (hnew : ∀ j, (c.sys.proc j).state ≠ .runnable → c'.bypassed j = 0) : Queue c' where
  stamp := fun j hr => by
    rw [ht]
    rcases hj j hr with ⟨hr0, e⟩ | ⟨-, e⟩
    · rw [e]
      exact h.stamp j hr0
    · exact e.le
  fresh := fun j hr e0 => by
    rcases hj j hr with ⟨hr0, e⟩ | ⟨hr0, -⟩
    · rw [(hold j hr0 hr).1, (hold j hr0 hr).2]
      exact h.fresh j hr0 (by rw [← e, e0, ht])
    · rw [hnew j hr0]
      exact Nat.zero_le _
  old := fun j hr hlt => by
    rw [ht] at hlt
    rcases hj j hr with ⟨hr0, e⟩ | ⟨-, e⟩
    · -- whoever joins has this tick for its stamp, so it is not ahead of `j`
      have hsub : ahead c'.sys j ⊆ ahead c.sys j := by
        intro k hk
        obtain ⟨-, hkj, hkr, hks⟩ := Finset.mem_filter.mp hk
        refine Finset.mem_filter.mpr ⟨Finset.mem_univ k, hkj, ?_⟩
        rcases hj k hkr with ⟨hk0, ek⟩ | ⟨-, ek⟩
        · exact ⟨hk0, by rw [← ek, ← e]; exact hks⟩
        · omega
      have hcard := Finset.card_le_card hsub
      have hbound := h.old j hr0 (by rw [← e]; exact hlt)
      rw [(hold j hr0 hr).1, (hold j hr0 hr).2]
      omega
    · omega

theorem next_ticks (hc : e ≠ .clock) : (next s e).ticks = s.ticks := by
  cases e with
  | clock => exact absurd rfl hc
  | _ => rfl

/-- **The queue after a selection**: whoever waits behind the chosen process has one process less
    ahead of it, or has been slighted. -/
theorem Queue.select {now : UInt32} (h : Queue c) (hl : Legal c (.select i now)) :
    Queue (after c (.select i now)) := by
  obtain ⟨-, -, hpick⟩ := hl
  obtain ⟨hi, hbest⟩ := pick_best hpick
  -- who is RUNNABLE afterwards is another process, and unchanged
  have hother : ∀ j, ((next c.sys (.select i now)).proc j).state = .runnable →
      j ≠ i ∧ (next c.sys (.select i now)).proc j = c.sys.proc j := by
    intro j hj
    have hji : j ≠ i := by
      rintro rfl
      rw [next, upd_same] at hj
      cases hj
    exact ⟨hji, by rw [next, upd_other hji]⟩
  have hwas : ∀ j, ((next c.sys (.select i now)).proc j).state = .runnable →
      (c.sys.proc j).state = .runnable := fun j hj => by
    rw [← (hother j hj).2]
    exact hj
  have hby : ∀ j, ((next c.sys (.select i now)).proc j).state = .runnable →
      (after c (.select i now)).bypassed j = c.bypassed j + 1 := fun j hj =>
    (after_counts (hwas j hj) hj).1
  have hsl : ∀ j, ((next c.sys (.select i now)).proc j).state = .runnable →
      (after c (.select i now)).slighted j =
        c.slighted j + (Event.slights c.sys j (.select i now)).toNat := fun j hj =>
    (after_counts (hwas j hj) hj).2
  constructor
  · intro j hj
    show ((next c.sys (.select i now)).proc j).schedStamp ≤ c.sys.ticks.toNat
    rw [(hother j hj).2]
    exact h.stamp j (hwas j hj)
  · intro j hj hs
    have hs' : (c.sys.proc j).schedStamp = c.sys.ticks.toNat := by rw [← (hother j hj).2]; exact hs
    have hslight : Event.slights c.sys j (.select i now) = true := decide_eq_true (.inr hs'.ge)
    rw [hby j hj, hsl j hj, hslight]
    exact Nat.succ_le_succ (h.fresh j (hwas j hj) hs')
  · intro j hj hs
    obtain ⟨hji, e⟩ := hother j hj
    have hj' := hwas j hj
    have hs' : (c.sys.proc j).schedStamp < c.sys.ticks.toNat := by rw [← e]; exact hs
    have hsub : ahead (next c.sys (.select i now)) j ⊆ (ahead c.sys j).erase i := by
      intro k hk
      obtain ⟨-, hkj, hkr, hks⟩ := Finset.mem_filter.mp hk
      obtain ⟨hki, ek⟩ := hother k hkr
      rw [ek] at hkr hks
      rw [e] at hks
      exact Finset.mem_erase.mpr ⟨hki, Finset.mem_filter.mpr ⟨Finset.mem_univ k, hkj, hkr, hks⟩⟩
    have hcard := Finset.card_le_card hsub
    have hold := h.old j hj' hs'
    rw [hby j hj, hsl j hj]
    show _ + (ahead (next c.sys (.select i now)) j).card ≤ _
    rcases hbest j hj' with hlt | ⟨-, hwait⟩
    · have hslight : Event.slights c.sys j (.select i now) = true := decide_eq_true (.inl hlt)
      have := Finset.card_erase_le (s := ahead c.sys j) (a := i)
      rw [hslight, Bool.toNat_true]
      omega
    · -- the chosen process has waited at least as long
      have hsi := h.stamp i hi
      rw [Proc.wait, Proc.wait, if_pos hsi, if_pos (h.stamp j hj')] at hwait
      have hmem : i ∈ ahead c.sys j :=
        Finset.mem_filter.mpr ⟨Finset.mem_univ i, hji.symm, hi, by omega⟩
      rw [Finset.card_erase_of_mem hmem] at hcard
      have hpos := Finset.card_pos.mpr ⟨i, hmem⟩
      omega

/-- **The queue after a tick**: the processes of the tick before are old now. -/
theorem Queue.clock (h : Queue c) (hP : Timely c .clock) : Queue (after c .clock) := by
  -- somebody waits, so this is no wrap
  have ht : ∀ j, (c.sys.proc j).state = .runnable →
      (after c .clock).sys.ticks.toNat = c.sys.ticks.toNat + 1 := by
    intro j hj
    have hne : (c.sys.ticks + 1).toNat ≠ 0 := fun e => hP (UInt32.toNat_inj.mp e) j hj
    show (c.sys.ticks + 1).toNat = _
    rw [UInt32.toNat_add] at hne ⊢
    change (c.sys.ticks.toNat + 1) % 2 ^ 32 ≠ 0 at hne
    change (c.sys.ticks.toNat + 1) % 2 ^ 32 = _
    have := c.sys.ticks.toNat_lt
    omega
  have hby : ∀ j, (c.sys.proc j).state = .runnable →
      (after c .clock).bypassed j = c.bypassed j ∧ (after c .clock).slighted j = c.slighted j :=
    fun j hj => after_counts hj hj
  constructor
  · intro j hj
    have := h.stamp j hj
    rw [ht j hj]
    exact Nat.le_succ_of_le this
  · intro j hj hs
    have := h.stamp j hj
    have hs' : (c.sys.proc j).schedStamp = _ := hs
    rw [ht j hj] at hs'
    omega
  · intro j hj hs
    rw [(hby j hj).1, (hby j hj).2]
    show _ + (ahead c.sys j).card ≤ _
    have hlt := ahead_lt c.sys j
    rcases (h.stamp j hj).eq_or_lt with heq | hold
    · have := h.fresh j hj heq
      omega
    · exact h.old j hj hold

theorem Queue.step (h : Queue c) (hP : Timely c e) (hl : Legal c e) (ha : Allowed c.sys e) :
    Queue (after c e) := by
  by_cases hc : e = .clock
  · subst hc
    exact h.clock hP
  · cases hsel : e.selects with
    | true =>
      cases e with
      | select i now => exact h.select hl
      | _ => cases hsel
    | false =>
      have hsl : ∀ j, e.slights c.sys j = false := fun j => by
        cases e with
        | select i now => cases hsel
        | _ => rfl
      refine h.joins (joins_next hc hsel hl ha) (next_ticks hc) (fun j hr hj => ?_) fun j hr => ?_
      · obtain ⟨hb, hs⟩ := after_counts hr hj
        rw [hb, hs, hsel, hsl]
        exact ⟨rfl, rfl⟩
      · exact if_neg fun hn => hr hn.1

/-- Any run. -/
def Runs : Cpu → Prop := RunsBy fun _ _ => True

theorem Runs.step (h : Runs c) (hl : Legal c e) (ha : Allowed c.sys e) :
    Runs (after c e) := Reach.step h ⟨e, trivial, hl, ha, rfl⟩

end HaiOS.Sched
