/-
  File:      HaiOS/Vm/Alarms.lean
  Subject:   THE MEMORY ALARMS (kernel/kalloc.c): the lines `kalloc` logs when free pages get low,
             critically low, or run out.

  `kalloc` logs a line once and sets a flag; `kfree` clears the flags of the two watermarks when
  the free pages rise above them. Nothing clears the flag of the exhaustion.

  * `AlarmRun.flagged` -- in every run the flag of a watermark says whether the free pages are at
    or below it, however they move around it;
  * `alarms_rearm_iff` -- the two watermarks' alarms come once an episode in every run, and the
    exhaustion's in exactly the runs in which memory does not run out a second time;
  * `exhaustion_alarm_stays_silent` -- a run in which it does.
-/
import HaiOS.Vm.Kalloc

namespace HaiOS.Vm

open Lib Lib.Routine

/-! ## 1. The lines -/

/-- The three lines, by what they report. -/
inductive Alarm where
  /-- "Hai-OS kmem low: free=%u pages" -/
  | low
  /-- "Hai-OS kmem critically low: free=%u pages" -/
  | critical
  /-- "Hai-OS kmem exhausted: free=%u pages" -/
  | exhausted
  deriving DecidableEq, Repr

/-- The line that `kalloc` logs when it is called with the memory `m`. -/
def Mem.alarm (m : Mem) : Option Alarm :=
  match m.freelist with
  | [] => if m.oomWarned = false then some .exhausted else none
  | _ :: _ =>
    if m.freePages - 1 ≤ MEM_CRIT_WATERMARK_PAGES ∧ m.critWarned = false then some .critical
    else if m.freePages - 1 ≤ MEM_LOW_WATERMARK_PAGES ∧ m.lowWarned = false then some .low
    else none

/-- The calls of a run. -/
inductive MemCall where
  | kalloc
  | kfree (p : Nat)
  deriving DecidableEq, Repr

def MemCall.exec : MemCall → VmM (Option Nat)
  | .kalloc => Vm.kalloc
  | .kfree p => do
    Vm.kfree p
    pure none

section Calls

variable {m m' : Mem} {r : Option Nat}

/-- **A line goes with its flag**: `kalloc` sets the flag of the line it logs, and no other. -/
theorem kalloc_flags (h : kalloc m = .ok r m') :
    m'.lowWarned = (m.lowWarned || decide (m.alarm = some .low)) ∧
    m'.critWarned = (m.critWarned || decide (m.alarm = some .critical)) ∧
    m'.oomWarned = (m.oomWarned || decide (m.alarm = some .exhausted)) := by
  unfold kalloc at h
  unfold Mem.alarm
  split at h
  · cases h
    cases hw : m.oomWarned <;> simp [*]
  · cases h
    unfold Mem.warn
    simp only [*]
    split_ifs <;> simp

/-- `kalloc` takes one page off, or leaves everything when there is none. -/
theorem kalloc_freePages (h : kalloc m = .ok r m') :
    m'.freePages = if m.freelist = [] then m.freePages else m.freePages - 1 := by
  unfold kalloc at h
  split at h
  · cases h
    simp [*]
  · cases h
    unfold Mem.warn
    split_ifs <;> simp_all

/-- `kfree` of the last reference gives one page back and clears the flags of the watermarks that
    the free pages are above now; `kfree` of another changes neither. -/
theorem kfree_flags {p : Nat} {u : Unit} (h : kfree p m = .ok u m') :
    m'.oomWarned = m.oomWarned ∧
    (m'.freePages = m.freePages ∧ m'.lowWarned = m.lowWarned ∧ m'.critWarned = m.critWarned ∨
      m'.freePages = m.freePages + 1 ∧
        m'.lowWarned = (if MEM_LOW_WATERMARK_PAGES < m'.freePages then false else m.lowWarned) ∧
        m'.critWarned =
          if MEM_CRIT_WATERMARK_PAGES < m'.freePages then false else m.critWarned) := by
  unfold kfree at h
  rw [read_bind] at h
  split_ifs at h
  · cases h
  · cases h
  · cases h
    exact ⟨rfl, Or.inl ⟨rfl, rfl, rfl⟩⟩
  · cases h
    exact ⟨rfl, Or.inr ⟨rfl, rfl, rfl⟩⟩

/-! ## 2. The flags of the watermarks -/

/-- **The flag of a watermark says whether the free pages are at or below it.** -/
structure Mem.Flagged (m : Mem) : Prop where
  low : m.lowWarned = decide (m.freePages ≤ MEM_LOW_WATERMARK_PAGES)
  crit : m.critWarned = decide (m.freePages ≤ MEM_CRIT_WATERMARK_PAGES)

/-- With such flags `kalloc` logs a watermark's line when it takes the page that brings the free
    pages down to the watermark. The `else` between the two lines suppresses none: they have
    different watermarks, and one call takes one page. -/
theorem Mem.Flagged.alarm_iff (h : m.Flagged) :
    (m.alarm = some .low ↔ m.freelist ≠ [] ∧ m.freePages = MEM_LOW_WATERMARK_PAGES + 1) ∧
    (m.alarm = some .critical ↔
      m.freelist ≠ [] ∧ m.freePages = MEM_CRIT_WATERMARK_PAGES + 1) := by
  have hlow := h.low
  have hcrit := h.crit
  unfold Mem.alarm
  cases m.freelist with
  | nil => cases m.oomWarned <;> simp
  | cons p l =>
    simp only [hlow, hcrit, decide_eq_false_iff_not, MEM_LOW_WATERMARK_PAGES,
      MEM_CRIT_WATERMARK_PAGES]
    split_ifs <;> simp <;> omega

theorem Mem.Flagged.kalloc (h : m.Flagged) (hr : Vm.kalloc m = .ok r m') : m'.Flagged := by
  obtain ⟨h1, h2, -⟩ := kalloc_flags hr
  obtain ⟨a1, a2⟩ := h.alarm_iff
  have hfree := kalloc_freePages hr
  have hlow := h.low
  have hcrit := h.crit
  refine ⟨?_, ?_⟩
  · rw [h1, hlow, hfree, decide_eq_decide.mpr a1, ← Bool.decide_or, decide_eq_decide]
    split_ifs with hl
    · simp [hl]
    · simp [hl]
      omega
  · rw [h2, hcrit, hfree, decide_eq_decide.mpr a2, ← Bool.decide_or, decide_eq_decide]
    split_ifs with hl
    · simp [hl]
    · simp [hl]
      omega

theorem Mem.Flagged.kfree {p : Nat} {u : Unit} (h : m.Flagged) (hr : Vm.kfree p m = .ok u m') :
    m'.Flagged := by
  have hlow := h.low
  have hcrit := h.crit
  obtain ⟨-, ⟨hf, h1, h2⟩ | ⟨hf, h1, h2⟩⟩ := kfree_flags hr
  · exact ⟨by rw [h1, hlow, hf], by rw [h2, hcrit, hf]⟩
  · refine ⟨?_, ?_⟩
    · rw [h1, hlow]
      split_ifs <;> simp <;> omega
    · rw [h2, hcrit]
      split_ifs <;> simp <;> omega

end Calls

/-! ## 3. Runs -/

/-- **A run of `calls`**: `state k` is the memory before call `k`. It starts with more pages than
    the higher watermark and with flags of the watermarks as every call keeps them, and no call
    panics. -/
structure AlarmRun (calls : List MemCall) (state : Nat → Mem) : Prop where
  plenty : MEM_LOW_WATERMARK_PAGES < (state 0).freePages
  start : (state 0).Flagged
  step : ∀ (k : Nat) (c : MemCall), calls[k]? = some c →
    ∃ r, c.exec (state k) = .ok r (state (k + 1))

/-- Call `k` is a `kalloc` and logs the line `a`. -/
def Logs (calls : List MemCall) (state : Nat → Mem) (a : Alarm) (k : Nat) : Prop :=
  calls[k]? = some .kalloc ∧ (state k).alarm = some a

/-- Call `k` is a `kalloc` that leaves at most `w` pages free. -/
def Leaves (calls : List MemCall) (state : Nat → Mem) (w k : Nat) : Prop :=
  calls[k]? = some .kalloc ∧ (state (k + 1)).freePages ≤ w

/-- Call `k` is a `kalloc` that finds no page. -/
def FindsNone (calls : List MemCall) (state : Nat → Mem) (k : Nat) : Prop :=
  calls[k]? = some .kalloc ∧ (state k).freelist = []

/-- **No call before `k` has met `P` since the free pages were last above `w`**: after every
    earlier one that did they have been above it. -/
def FirstSince (state : Nat → Mem) (P : Nat → Prop) (w k : Nat) : Prop :=
  ∀ j < k, P j → ∃ i, j < i ∧ i ≤ k ∧ w < (state i).freePages

/-- **The alarm `a` comes once an episode**: a call logs it exactly when it meets `P` and is the
    first to do so since the free pages were last above `w`. -/
def OncePerEpisode (calls : List MemCall) (state : Nat → Mem) (a : Alarm) (P : Nat → Prop)
    (w : Nat) : Prop :=
  ∀ k < calls.length, Logs calls state a k ↔ P k ∧ FirstSince state P w k

namespace AlarmRun

variable {calls : List MemCall} {state : Nat → Mem} {k w : Nat}

/-- A step of a run is a `kalloc` or a `kfree` that returns. -/
theorem cases (h : AlarmRun calls state) (hk : k < calls.length) :
    (calls[k]? = some .kalloc ∧ ∃ r, kalloc (state k) = .ok r (state (k + 1))) ∨
      ∃ p u, calls[k]? = some (.kfree p) ∧ kfree p (state k) = .ok u (state (k + 1)) := by
  have hc := List.getElem?_eq_getElem hk
  obtain ⟨r, hr⟩ := h.step k _ hc
  cases hcall : calls[k] with
  | kalloc =>
    rw [hcall] at hc hr
    exact Or.inl ⟨hc, r, hr⟩
  | kfree p =>
    rw [hcall] at hc hr
    refine Or.inr ⟨p, (), hc, ?_⟩
    have hr : (kfree p >>= fun _ => pure none) (state k) = .ok r (state (k + 1)) := hr
    rw [bind_run] at hr
    cases hf : kfree p (state k) with
    | ok u m' =>
      rw [hf] at hr
      cases hr
      rfl
    | fail e m' =>
      rw [hf] at hr
      cases hr

variable (h : AlarmRun calls state)
include h

theorem flagged (hk : k ≤ calls.length) : (state k).Flagged := by
  induction k with
  | zero => exact h.start
  | succ k ih =>
    have ih := ih (by omega)
    obtain ⟨-, r, hr⟩ | ⟨p, u, -, hr⟩ := h.cases hk
    · exact ih.kalloc hr
    · exact ih.kfree hr

/-- When the free pages are at or below the watermark, a `kalloc` brought them there, and they
    have not been above it since. -/
theorem crossed (hw : w ≤ MEM_LOW_WATERMARK_PAGES)
    (hk : k ≤ calls.length) (hfree : (state k).freePages ≤ w) :
    ∃ j < k, Leaves calls state w j ∧ ∀ i, j < i → i ≤ k → (state i).freePages ≤ w := by
  induction k with
  | zero => exact absurd h.plenty (by omega)
  | succ k ih =>
    by_cases hbefore : (state k).freePages ≤ w
    · obtain ⟨j, hj, hleaves, hbelow⟩ := ih (by omega) hbefore
      refine ⟨j, by omega, hleaves, fun i hi hik => ?_⟩
      rcases Nat.lt_or_eq_of_le hik with hlt | rfl
      · exact hbelow i hi (by omega)
      · exact hfree
    · -- only `kalloc` takes pages, so this call is one
      obtain ⟨hc, -⟩ | ⟨p, u, -, hr⟩ := h.cases hk
      · refine ⟨k, by omega, ⟨hc, hfree⟩, fun i hi hik => ?_⟩
        obtain rfl : i = k + 1 := by omega
        exact hfree
      · obtain ⟨-, ⟨hf, -⟩ | ⟨hf, -⟩⟩ := kfree_flags hr <;> omega

/-- The first `kalloc` since the free pages were above the watermark that leaves them at or below
    it is the one that takes them from above it. -/
theorem firstSince_iff (hw : w ≤ MEM_LOW_WATERMARK_PAGES) (hk : k ≤ calls.length) :
    FirstSince state (Leaves calls state w) w k ↔ w < (state k).freePages := by
  refine ⟨fun hfirst => ?_, fun hlt j hj _ => ⟨k, hj, le_rfl, hlt⟩⟩
  by_contra hle
  obtain ⟨j, hj, hleaves, hbelow⟩ := h.crossed hw hk (by omega)
  obtain ⟨i, hi, hik, hlt⟩ := hfirst j hj hleaves
  have := hbelow i hi hik
  omega

/-- The alarm of a watermark comes once an episode. -/
theorem once {a : Alarm} (hw : w ≤ MEM_LOW_WATERMARK_PAGES)
    (ha : ∀ k ≤ calls.length, (state k).alarm = some a ↔
      (state k).freelist ≠ [] ∧ (state k).freePages = w + 1) :
    OncePerEpisode calls state a (Leaves calls state w) w := by
  intro k hk
  rw [h.firstSince_iff hw hk.le, Logs, Leaves, ha k hk.le]
  refine ⟨fun ⟨hc, hne, hfree⟩ => ?_, fun ⟨⟨hc, hle⟩, hlt⟩ => ?_⟩
  · obtain ⟨-, r, hr⟩ | ⟨p, u, hc', -⟩ := h.cases hk
    · have := kalloc_freePages hr
      rw [if_neg hne] at this
      exact ⟨⟨hc, by omega⟩, by omega⟩
    · rw [hc] at hc'
      cases hc'
  · obtain ⟨-, r, hr⟩ | ⟨p, u, hc', -⟩ := h.cases hk
    · have := kalloc_freePages hr
      split_ifs at this with hnil
      · omega
      · exact ⟨hc, hnil, by omega⟩
    · rw [hc] at hc'
      cases hc'

/-- The flag of the exhaustion stays set. -/
theorem oomWarned_iff (hk : k ≤ calls.length) :
    (state k).oomWarned = true ↔
      (state 0).oomWarned = true ∨ ∃ j < k, FindsNone calls state j := by
  induction k with
  | zero => simp
  | succ k ih =>
    have ih := ih (by omega)
    have hsplit : (∃ j < k + 1, FindsNone calls state j) ↔
        (∃ j < k, FindsNone calls state j) ∨ FindsNone calls state k := by
      refine ⟨fun ⟨j, hj, hn⟩ => ?_, ?_⟩
      · rcases Nat.lt_or_eq_of_le (Nat.le_of_lt_succ hj) with hlt | rfl
        · exact Or.inl ⟨j, hlt, hn⟩
        · exact Or.inr hn
      · rintro (⟨j, hj, hn⟩ | hn)
        · exact ⟨j, by omega, hn⟩
        · exact ⟨k, by omega, hn⟩
    rw [hsplit, ← or_assoc, ← ih]
    obtain ⟨hc, r, hr⟩ | ⟨p, u, hc, hr⟩ := h.cases hk
    · rw [(kalloc_flags hr).2.2, FindsNone, Mem.alarm]
      cases hl : (state k).freelist with
      | nil => cases (state k).oomWarned <;> simp [hc]
      | cons p l => split_ifs <;> simp
    · rw [(kfree_flags hr).1, FindsNone, hc]
      simp

/-- The exhaustion is logged by the first `kalloc` of the run that finds no page, if its flag was not
    set before. -/
theorem logs_exhausted_iff (hk : k ≤ calls.length) :
    Logs calls state .exhausted k ↔ FindsNone calls state k ∧
      ¬ ((state 0).oomWarned = true ∨ ∃ j < k, FindsNone calls state j) := by
  rw [← h.oomWarned_iff hk, Logs, FindsNone, Mem.alarm]
  cases (state k).freelist with
  | nil => cases (state k).oomWarned <;> simp
  | cons p l => split_ifs <;> simp

end AlarmRun

/-- **Memory does not run out again**: not at all when it has run out before the run; and between two
    calls that find no page, no page is free. -/
def RunsOutOnce (calls : List MemCall) (state : Nat → Mem) : Prop :=
  ((state 0).oomWarned = true → ∀ k, ¬ FindsNone calls state k) ∧
  ∀ j k, j < k → FindsNone calls state j → FindsNone calls state k →
    ∀ i, j < i → i ≤ k → (state i).freePages = 0

/-- **Memory alarms re-arm.** In every run the alarms of the two watermarks come once an episode.
    The alarm of the exhaustion does so exactly in the runs in which memory does not run out again. -/
theorem alarms_rearm_iff {calls : List MemCall} {state : Nat → Mem} (h : AlarmRun calls state) :
    OncePerEpisode calls state .low (Leaves calls state MEM_LOW_WATERMARK_PAGES)
      MEM_LOW_WATERMARK_PAGES ∧
    OncePerEpisode calls state .critical (Leaves calls state MEM_CRIT_WATERMARK_PAGES)
      MEM_CRIT_WATERMARK_PAGES ∧
    (OncePerEpisode calls state .exhausted (FindsNone calls state) 0 ↔
      RunsOutOnce calls state) := by
  refine ⟨h.once le_rfl fun k hk => (h.flagged hk).alarm_iff.1,
    h.once (by decide) fun k hk => (h.flagged hk).alarm_iff.2, fun honce => ?_, fun honly k hk => ?_⟩
  · -- the first call from `i` on that finds no page begins an episode, and logs it
    have hlogs : ∀ i k, i ≤ k → FindsNone calls state k → (i = 0 ∨ 0 < (state i).freePages) →
        (state 0).oomWarned = false ∧ ∀ j < i, ¬ FindsNone calls state j := by
      intro i k hik hk hi
      have hex : ∃ n, i ≤ n ∧ FindsNone calls state n := ⟨k, hik, hk⟩
      classical
      obtain ⟨hin, hn⟩ := Nat.find_spec hex
      have hmin := fun n => Nat.find_min (m := n) hex
      generalize Nat.find hex = n at hin hn hmin
      have hlen : n < calls.length := (List.getElem?_eq_some_iff.mp hn.1).1
      have hfirst : FirstSince state (FindsNone calls state) 0 n := fun j' hj' hnone => by
        have hlt : j' < i := by
          by_contra hge
          exact hmin j' hj' ⟨by omega, hnone⟩
        exact ⟨i, hlt, hin, by omega⟩
      obtain ⟨-, hno⟩ := (h.logs_exhausted_iff hlen.le).mp ((honce n hlen).mpr ⟨hn, hfirst⟩)
      rw [not_or] at hno
      exact ⟨Bool.not_eq_true _ ▸ hno.1, fun j hj hnone => hno.2 ⟨j, by omega, hnone⟩⟩
    refine ⟨fun hw k hk => ?_, fun j k hjk hj hk i hji hik => ?_⟩
    · rw [(hlogs 0 k (Nat.zero_le k) hk (.inl rfl)).1] at hw
      cases hw
    · by_contra hfree
      exact (hlogs i k hik hk (.inr (by omega))).2 j hji hj
  · rw [h.logs_exhausted_iff hk.le]
    refine and_congr_right fun hnone => ⟨fun hno j hj hj' => absurd (.inr ⟨j, hj, hj'⟩) hno, ?_⟩
    rintro hfirst (hw | ⟨j, hj, hj'⟩)
    · exact honly.1 hw k hnone
    · obtain ⟨i, hi, hik, hlt⟩ := hfirst j hj hj'
      have := honly.2 j k hj hj' hnone i hi hik
      omega

/-! ## 4. Two runs -/

/-- The memory before each call, from `m` on. -/
def statesFrom (m : Mem) (calls : List MemCall) : Nat → Mem
  | 0 => m
  | k + 1 =>
    match calls[k]? with
    | some c => (c.exec (statesFrom m calls k)).last
    | none => statesFrom m calls k

/-- A memory of 65 pages, all free, one more than the higher watermark. -/
def sixtyFive : Mem :=
  { first := NPAGE - 65, freelist := List.range' (NPAGE - 65) 65, refcnt := fun _ => 0,
    totalPages := 65, freePages := 65, lowWarned := false, critWarned := false,
    oomWarned := false, ready := true, ram := fun _ _ => 0 }

theorem alarmRun_sixtyFive {calls : List MemCall}
    (h : ∀ k < calls.length, ∀ c, calls[k]? = some c →
      ((c.exec (statesFrom sixtyFive calls k)).value).isSome) :
    AlarmRun calls (statesFrom sixtyFive calls) := by
  have hplenty : MEM_LOW_WATERMARK_PAGES < sixtyFive.freePages := by decide
  refine ⟨hplenty, ⟨rfl, rfl⟩, fun k c hc => ?_⟩
  have hlen : k < calls.length := (List.getElem?_eq_some_iff.mp hc).1
  obtain ⟨r, hr⟩ := Option.isSome_iff_exists.mp (h k hlen c hc)
  refine ⟨r, ?_⟩
  rw [statesFrom, hc]
  exact Outcome.eq_ok hr

/-- All pages are taken, and one more is asked for. -/
def drain : List MemCall := List.replicate 66 .kalloc

/-- Then one page comes back, and two are asked for. -/
def drainTwice : List MemCall := drain ++ [.kfree (NPAGE - 1), .kalloc, .kalloc]

theorem alarms_rearm_iff_drain :
    AlarmRun drain (statesFrom sixtyFive drain) ∧
      OncePerEpisode drain (statesFrom sixtyFive drain) .exhausted
        (FindsNone drain (statesFrom sixtyFive drain)) 0 := by
  have hrun : AlarmRun drain (statesFrom sixtyFive drain) :=
    alarmRun_sixtyFive (by decide +kernel)
  refine ⟨hrun, (alarms_rearm_iff hrun).2.2.mpr ⟨nofun, fun j k hjk hj hk => ?_⟩⟩
  have hlast : ∀ j < drain.length, (statesFrom sixtyFive drain j).freelist = [] → j = 65 := by
    decide +kernel
  have hj' := hlast j (List.getElem?_eq_some_iff.mp hj.1).1 hj.2
  have hk' := hlast k (List.getElem?_eq_some_iff.mp hk.1).1 hk.2
  omega

/-- **The second exhaustion is not logged.** Memory runs out, a page comes back, memory runs out
    again: the call that finds no page is the first one since a page was free, and logs nothing. -/
theorem exhaustion_alarm_stays_silent :
    AlarmRun drainTwice (statesFrom sixtyFive drainTwice) ∧
      ¬ OncePerEpisode drainTwice (statesFrom sixtyFive drainTwice) .exhausted
        (FindsNone drainTwice (statesFrom sixtyFive drainTwice)) 0 := by
  refine ⟨alarmRun_sixtyFive (by decide +kernel), fun h => ?_⟩
  have hnone : ∀ j < 68, (statesFrom sixtyFive drainTwice j).freelist = [] → j < 67 := by
    decide +kernel
  have hfree : 0 < (statesFrom sixtyFive drainTwice 67).freePages := by decide +kernel
  have hlast : FindsNone drainTwice (statesFrom sixtyFive drainTwice) 68 :=
    ⟨by decide +kernel, by decide +kernel⟩
  have hlogs := (h 68 (by decide)).mpr ⟨hlast, fun j hj hj' =>
    ⟨67, hnone j hj hj'.2, by decide, hfree⟩⟩
  have hsilent : (statesFrom sixtyFive drainTwice 68).alarm = none := by decide +kernel
  rw [Logs, hsilent] at hlogs
  cases hlogs.2

end HaiOS.Vm
