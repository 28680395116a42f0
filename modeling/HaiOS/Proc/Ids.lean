/-
  File:      HaiOS/Proc/Ids.lean
  Subject:   WHO IS KILLED, AND WHO IS WHO. Two invariants of the process table over whole runs,
             with the condition each of them needs.

  * `killed_of_aimed` -- a live process is killed only by a kill of its own pid or a fault of its
    own, as long as nobody calls `kkill(0)` while a slot is UNUSED: UNUSED slots have pid 0, and
    `allocproc` does not clear `killed` (`kill_zero`).
  * `pids_identify` -- live pids are positive and distinct as long as `nextpid` is positive
    whenever `allocpid` is called; it wraps after 2^31 - 2 calls of `kfork` (`pid_wraps`).
-/
import HaiOS.Proc.Sched

namespace HaiOS.Sched

open Lib Function
open Procs (ProcState)

variable {s s' : Sys} {e : Event} {i j k : Fin NPROC}

/-! ## 1. The quiet steps -/

/-- The pids, the kills and the live slots are the same, and so is the history. -/
structure Same (s s' : Sys) : Prop where
  live : ∀ k, (s'.proc k).live ↔ (s.proc k).live
  pid : ∀ k, (s'.proc k).pid = (s.proc k).pid
  killed : ∀ k, (s'.proc k).killed = (s.proc k).killed
  nextpid : s'.nextpid = s.nextpid
  aimed : s'.aimed = s.aimed

/-- The steps that neither allocate, free nor kill. -/
def Event.quiet : Event → Bool
  | .alloc .. | .allocFail .. | .reap .. | .kkill .. | .setkilled .. => false
  | _ => true

theorem same_upd (k : Fin NPROC) (f : Proc → Proc)
    (hlive : (f (s.proc k)).live ↔ (s.proc k).live)
    (hpid : (f (s.proc k)).pid = (s.proc k).pid)
    (hkilled : (f (s.proc k)).killed = (s.proc k).killed) : Same s (s.upd k f) where
  live := upd_forall (P := fun j p => p.live ↔ (s.proc j).live) (fun _ _ => Iff.rfl) hlive
  pid := upd_forall (P := fun j p => p.pid = (s.proc j).pid) (fun _ _ => rfl) hpid
  killed := upd_forall (P := fun j p => p.killed = (s.proc j).killed) (fun _ _ => rfl) hkilled
  nextpid := rfl
  aimed := rfl

theorem live_of {p : Proc} {st : ProcState} (hp : p.state = st) (h : st ≠ .unused) : p.live := by
  rw [Proc.live, hp]
  exact h

theorem kkill_live (p : Proc) : p.kkill.live ↔ p.live := by
  by_cases h : p.state = .sleeping <;> simp [Proc.live, Proc.kkill, h]

theorem same_reparent (s : Sys) (i : Fin NPROC) : Same s (s.reparent i) := by
  have hk : ∀ k, ((s.reparent i).proc k).state = (s.proc k).state ∧
      ((s.reparent i).proc k).pid = (s.proc k).pid ∧
      ((s.reparent i).proc k).killed = (s.proc k).killed := by
    intro k
    unfold Sys.reparent
    dsimp only
    split <;> exact ⟨rfl, rfl, rfl⟩
  exact ⟨fun k => by rw [Proc.live, (hk k).1]; rfl, fun k => (hk k).2.1, fun k => (hk k).2.2,
    rfl, rfl⟩

theorem Same.trans {s'' : Sys} (h : Same s s') (h' : Same s' s'') : Same s s'' :=
  ⟨fun k => (h'.live k).trans (h.live k), fun k => (h'.pid k).trans (h.pid k),
    fun k => (h'.killed k).trans (h.killed k), h'.nextpid.trans h.nextpid,
    h'.aimed.trans h.aimed⟩

/-- **A quiet step changes none of it.** -/
theorem same_next (h : Allowed s e) (hq : e.quiet = true) : Same s (next s e) := by
  -- the slot that changes is live before and after
  have hup {st : ProcState} (k : Fin NPROC) (f : Proc → Proc) (hk : (s.proc k).state = st)
      (hst : st ≠ .unused) (hf : (f (s.proc k)).live) := same_upd (s := s) k f
        ⟨fun _ => live_of hk hst, fun _ => hf⟩
  cases e with
  | select i now => exact hup i (·.select now) h (by decide) nofun rfl rfl
  | timer i =>
    exact hup i (fun p => p.procTick.yield s.ticks) h (by decide) nofun
      (procTick_keeps _).1 (procTick_keeps _).2.1
  | preempt i => exact hup i (·.yield s.ticks) h (by decide) nofun rfl rfl
  | clock => exact ⟨fun _ => Iff.rfl, fun _ => rfl, fun _ => rfl, rfl, rfl⟩
  | start i k =>
    exact hup k (·.start s.ticks) h.2.1 (by decide) nofun rfl rfl
  | sleep i c => exact hup i (·.sleep c) h (by decide) nofun rfl rfl
  | wakeup k => exact hup k (·.wakeup s.ticks) h (by decide) nofun rfl rfl
  | exit i =>
    have hr := same_reparent s i
    have hi : ((s.reparent i).proc i).live := (hr.live i).mpr (live_of h.1 (by decide))
    exact hr.trans (same_upd i ({ · with state := .zombie })
      ⟨fun _ => hi, fun _ => nofun⟩ rfl rfl)
  | setpriority pid prio k => exact same_upd k (·.setpriority prio s.ticks) Iff.rfl rfl rfl
  | alloc | allocFail | reap | kkill | setkilled => cases hq

/-! ## 2. Kills -/

/-- Nobody calls `kkill(0)` while a slot is UNUSED. -/
def NoStrayKill (s : Sys) : Event → Prop
  | .kkill pid _ => pid ≠ 0 ∨ ∀ k, (s.proc k).live
  | _ => True

/-- UNUSED slots are clean, and whoever is killed was aimed at. -/
structure KillInv (s : Sys) : Prop where
  blank : ∀ k, ¬ (s.proc k).live → (s.proc k).pid = 0 ∧ (s.proc k).killed = false
  aimed : ∀ k, (s.proc k).live → (s.proc k).killed = true → s.aimed k = true

theorem KillInv.same (h : KillInv s) (hs : Same s s') : KillInv s' where
  blank := fun k hk => by
    rw [hs.pid, hs.killed]
    exact h.blank k fun hl => hk ((hs.live k).mpr hl)
  aimed := fun k hk hd => by
    rw [hs.aimed]
    exact h.aimed k ((hs.live k).mp hk) ((hs.killed k).symm.trans hd)

/-- A slot that ends clean: it is free, or its process is new. -/
theorem KillInv.upd {f : Proc → Proc} (h : KillInv s)
    (hk : (f (s.proc k)).killed = false) (hpid : ¬ (f (s.proc k)).live → (f (s.proc k)).pid = 0) :
    KillInv (s.upd k f) where
  blank := upd_forall (P := fun _ p => ¬ p.live → p.pid = 0 ∧ p.killed = false)
    (fun j _ => h.blank j) fun hl => ⟨hpid hl, hk⟩
  aimed := upd_forall (P := fun j p => p.live → p.killed = true → s.aimed j = true)
    (fun j _ => h.aimed j) fun _ hd => by rw [hk] at hd; cases hd

/-- `allocproc` on an UNUSED slot. -/
theorem KillInv.allocproc (h : KillInv s) (hk : (s.proc k).state = .unused) :
    KillInv (s.allocproc k) := by
  have hd : (s.proc k).killed = false := (h.blank k (not_not_intro hk)).2
  constructor
  · intro j hj
    rcases eq_or_ne j k with rfl | hne
    · rw [allocproc_same] at hj
      exact absurd nofun hj
    · rw [allocproc_other hne] at hj ⊢
      exact h.blank j hj
  · intro j hl hj
    rcases eq_or_ne j k with rfl | hne
    · rw [allocproc_same] at hj
      rw [show (s.proc j).killed = true from hj] at hd
      cases hd
    · rw [allocproc_other hne] at hl hj
      show update s.aimed k false j = true
      rw [update_of_ne hne]
      exact h.aimed j hl hj

theorem KillInv.step (h : KillInv s) (ha : Allowed s e) (hg : NoStrayKill s e) :
    KillInv (next s e) := by
  cases hq : e.quiet with
  | true => exact h.same (same_next ha hq)
  | false =>
    cases e with
    | alloc i k =>
      exact (h.allocproc ha.2).same (same_upd k ({ · with parent := some i }) Iff.rfl rfl rfl)
    | allocFail i k => exact (h.allocproc ha.2).upd rfl fun _ => rfl
    | reap i k => exact h.upd rfl fun _ => rfl
    | kkill pid k =>
      -- the slot that is marked is live: an UNUSED one has pid 0
      have hpid : (s.proc k).pid = pid := ha
      have hl : (s.proc k).live := by
        by_contra hn
        have h0 := (h.blank k hn).1
        rcases hg with hne | hall
        · exact hne (hpid.symm.trans h0)
        · exact hn (hall k)
      have hnew : (s.proc k).kkill.live := (kkill_live _).mpr hl
      have hold : ∀ j, s.aimed j = true → (s.aim pid).aimed j = true := fun j hj => by
        show (s.aimed j || _) = true
        rw [hj, Bool.true_or]
      have hnow : (s.aim pid).aimed k = true := by
        show (s.aimed k || (decide (s.proc k).live && (s.proc k).pid == pid)) = true
        simp [hl, hpid]
      constructor
      · exact upd_forall (s := s.aim pid) (P := fun _ p => ¬ p.live → p.pid = 0 ∧ p.killed = false)
          (fun j _ => h.blank j) fun hn => absurd hnew hn
      · exact upd_forall (s := s.aim pid)
          (P := fun j p => p.live → p.killed = true → (s.aim pid).aimed j = true)
          (fun j _ hj hd => hold j (h.aimed j hj hd)) fun _ _ => hnow
    | setkilled i =>
      have hl : (s.proc i).live := live_of ha (by decide)
      constructor
      · intro j hj
        rcases eq_or_ne j i with rfl | hne
        · exact absurd (show (s.proc j).live from hl) (by rwa [next, setkilled_same] at hj)
        · rw [next, setkilled_other hne] at hj ⊢
          exact h.blank j hj
      · intro j hj hd
        show update s.aimed i true j = true
        rcases eq_or_ne j i with rfl | hne
        · exact update_self ..
        · rw [next, setkilled_other hne] at hj hd
          rw [update_of_ne hne]
          exact h.aimed j hj hd
    | select | timer | preempt | clock | start | sleep | wakeup | exit | setpriority => cases hq

theorem killInv_boot : KillInv boot := by
  have h0 : KillInv procinit := ⟨fun _ _ => ⟨rfl, rfl⟩, fun _ hl => absurd rfl hl⟩
  exact (h0.allocproc (k := 0) rfl).upd rfl fun hn => absurd nofun hn

theorem killInv_reach (h : ReachBy NoStrayKill s) : KillInv s :=
  Reach.invariant (fun _ h0 => by rw [h0]; exact killInv_boot)
    (fun _ _ hi ⟨_, hg, ha, hs⟩ => by rw [hs]; exact hi.step ha hg) h

/-- **Only kills aimed at a process kill it**, in every state of a run in which nobody calls
    `kkill(0)` while a slot is UNUSED; and the child `kfork` makes there is not killed. -/
theorem killed_of_aimed (h : ReachBy NoStrayKill s) :
    (∀ k, (s.proc k).live → (s.proc k).killed = true → s.aimed k = true) ∧
    ∀ i k, Allowed s (.alloc i k) → ((next s (.alloc i k)).proc k).killed = false := by
  have hi := killInv_reach h
  refine ⟨hi.aimed, fun i k ha => ?_⟩
  rw [next, upd_same, allocproc_same]
  exact (hi.blank k (not_not_intro ha.2)).2

/-- The first process runs. -/
def first : Sys := next boot (.select 0 0)

variable {P : Sys → Event → Prop}

theorem reachable_first (h : P boot (.select 0 0)) : ReachBy P first :=
  .step (.start rfl) ⟨_, h, rfl, rfl⟩

/-- It has family. -/
def family : Sys := next (next first (.alloc 0 1)) (.start 0 1)

theorem reachable_family (h : ReachBy P first) (ha : P first (.alloc 0 1))
    (hs : P (next first (.alloc 0 1)) (.start 0 1)) : ReachBy P family :=
  .step (.step h ⟨_, ha, ⟨rfl, rfl⟩, rfl⟩) ⟨_, hs, ⟨rfl, rfl, rfl⟩, rfl⟩

/-- It kills its child, whose pid is 2, and forks again. -/
theorem killed_of_aimed_child : ∃ s, ReachBy NoStrayKill s ∧ s = (family.kkill 2).1 ∧
    (s.proc 1).live ∧ (s.proc 1).killed = true ∧ s.aimed 1 = true ∧
    Allowed s (.alloc 0 2) ∧ ((next s (.alloc 0 2)).proc 2).killed = false := by
  have hfind : family.find 2 = some 1 := by decide
  have h : ReachBy NoStrayKill (next family (.kkill 2 1)) :=
    .step (reachable_family (reachable_first trivial) trivial trivial)
      ⟨.kkill 2 1, Or.inl (by decide), rfl, rfl⟩
  have hk := killed_of_aimed h
  refine ⟨_, h, ?_, nofun, rfl, hk.1 1 nofun rfl, ⟨rfl, rfl⟩, hk.2 0 2 ⟨rfl, rfl⟩⟩
  rw [Sys.kkill, hfind]
  rfl

/-- **A stray kill**: the first process calls `kkill(0)`, which stops at the first UNUSED slot,
    and then `kfork`: its child has pid 2 and is killed already. -/
theorem kill_zero : ∃ s s' : Sys, Reachable s ∧ (first.kkill 0).2 = 0 ∧ s = (first.kkill 0).1 ∧
    Step s (.alloc 0 1) s' ∧ (s'.proc 1).live ∧ (s'.proc 1).pid = 2 ∧
    (s'.proc 1).killed = true ∧ s'.aimed 1 = false := by
  have hfind : first.find 0 = some 1 := by decide
  have e : first.kkill 0 = (next first (.kkill 0 1), 0) := by
    rw [Sys.kkill, hfind]
    rfl
  refine ⟨_, _, .step (reachable_first trivial) ⟨.kkill 0 1, trivial, rfl, rfl⟩, ?_, ?_,
    ⟨⟨rfl, rfl⟩, rfl⟩, nofun, rfl, rfl, rfl⟩
  · rw [e]
  · rw [e]

/-! ## 3. Pids -/

/-- `allocpid` is called with a positive `nextpid`. -/
def PidLeft (s : Sys) : Event → Prop
  | .alloc .. | .allocFail .. => 0 < s.nextpid
  | _ => True

/-- UNUSED slots have pid 0, live ones distinct positive pids below `nextpid`. -/
structure PidInv (s : Sys) : Prop where
  blank : ∀ k, ¬ (s.proc k).live → (s.proc k).pid = 0
  pos : ∀ k, (s.proc k).live → 0 < (s.proc k).pid
  inj : ∀ j k, (s.proc j).live → (s.proc k).live → (s.proc j).pid = (s.proc k).pid → j = k
  fresh : 0 < s.nextpid → ∀ k, (s.proc k).live → (s.proc k).pid < s.nextpid

theorem PidInv.congr (h : PidInv s) (hlive : ∀ k, (s'.proc k).live ↔ (s.proc k).live)
    (hpid : ∀ k, (s'.proc k).pid = (s.proc k).pid) (hnext : s'.nextpid = s.nextpid) :
    PidInv s' where
  blank := fun k hk => by rw [hpid]; exact h.blank k fun hl => hk ((hlive k).mpr hl)
  pos := fun k hk => by rw [hpid]; exact h.pos k ((hlive k).mp hk)
  inj := fun j k hj hk e => by
    rw [hpid, hpid] at e
    exact h.inj j k ((hlive j).mp hj) ((hlive k).mp hk) e
  fresh := fun hn k hk => by
    rw [hnext] at hn ⊢
    rw [hpid]
    exact h.fresh hn k ((hlive k).mp hk)

/-- After `nextpid + 1` is positive again, it is above everything below the old one. -/
theorem lt_succ_of_pos {n : Int32} (h : 0 < n) (h' : 0 < n + 1) : n < n + 1 := by
  rw [Int32.lt_iff_toInt_lt] at *
  have hb := n.toInt_lt
  rw [Int32.toInt_add] at *
  simp only [Int32.toInt_zero, Int32.toInt_one, Int.bmod_def] at *
  omega

/-- `allocproc` on an UNUSED slot. -/
theorem PidInv.allocproc (h : PidInv s) (hn : 0 < s.nextpid) (k : Fin NPROC) :
    PidInv (s.allocproc k) := by
  have hk : ((s.allocproc k).proc k).pid = s.nextpid := by rw [allocproc_same]; rfl
  constructor
  · intro j hj
    rcases eq_or_ne j k with rfl | hne
    · rw [allocproc_same] at hj
      exact absurd nofun hj
    · rw [allocproc_other hne] at hj ⊢
      exact h.blank j hj
  · intro j hj
    rcases eq_or_ne j k with rfl | hne
    · rwa [hk]
    · rw [allocproc_other hne] at hj ⊢
      exact h.pos j hj
  · intro i j hi hj e
    rcases eq_or_ne i k with hi' | hi' <;> rcases eq_or_ne j k with hj' | hj'
    · exact hi'.trans hj'.symm
    · rw [hi', hk, allocproc_other hj'] at e
      rw [allocproc_other hj'] at hj
      exact absurd (h.fresh hn j hj) (by rw [e]; exact Int32.lt_irrefl)
    · rw [hj', hk, allocproc_other hi'] at e
      rw [allocproc_other hi'] at hi
      exact absurd (h.fresh hn i hi) (by rw [e]; exact Int32.lt_irrefl)
    · rw [allocproc_other hi', allocproc_other hj'] at e
      rw [allocproc_other hi'] at hi
      rw [allocproc_other hj'] at hj
      exact h.inj i j hi hj e
  · intro hn' j hj
    have hlt : s.nextpid < s.nextpid + 1 := lt_succ_of_pos hn hn'
    rcases eq_or_ne j k with rfl | hne
    · rwa [hk]
    · rw [allocproc_other hne] at hj ⊢
      exact Int32.lt_trans (h.fresh hn j hj) hlt

/-- `freeproc`. -/
theorem PidInv.freeproc (h : PidInv s) (k : Fin NPROC) : PidInv (s.upd k (·.freeproc)) := by
  -- a slot that is live afterwards is another one
  have hne : ∀ j, ((s.upd k (·.freeproc)).proc j).live → j ≠ k := by
    rintro j hj rfl
    rw [upd_same] at hj
    exact hj rfl
  constructor
  · intro j hj
    rcases eq_or_ne j k with rfl | hjk
    · rw [upd_same]
      rfl
    · rw [upd_other hjk] at hj ⊢
      exact h.blank j hj
  · intro j hj
    have hjk := hne j hj
    rw [upd_other hjk] at hj ⊢
    exact h.pos j hj
  · intro i j hi hj e
    have hik := hne i hi
    have hjk := hne j hj
    rw [upd_other hik] at hi e
    rw [upd_other hjk] at hj e
    exact h.inj i j hi hj e
  · intro hn j hj
    have hjk := hne j hj
    rw [upd_other hjk] at hj ⊢
    exact h.fresh hn j hj

theorem PidInv.step (h : PidInv s) (ha : Allowed s e) (hg : PidLeft s e) : PidInv (next s e) := by
  cases hq : e.quiet with
  | true =>
    have hs := same_next ha hq
    exact h.congr hs.live hs.pid hs.nextpid
  | false =>
    cases e with
    | alloc i k =>
      have hs := same_upd (s := s.allocproc k) k ({ · with parent := some i }) Iff.rfl rfl rfl
      exact (h.allocproc hg k).congr hs.live hs.pid hs.nextpid
    | allocFail i k => exact (h.allocproc hg k).freeproc k
    | reap i k => exact h.freeproc k
    | kkill pid k =>
      refine h.congr (fun j => ?_) (fun j => ?_) rfl
      · exact upd_forall (s := s.aim pid) (P := fun j p => p.live ↔ (s.proc j).live)
          (fun _ _ => Iff.rfl) (kkill_live _) j
      · exact upd_forall (s := s.aim pid) (P := fun j p => p.pid = (s.proc j).pid)
          (fun _ _ => rfl) rfl j
    | setkilled i =>
      refine h.congr (fun j => ?_) (fun j => ?_) rfl
      · exact upd_forall (s := s) (f := ({ · with killed := true }))
          (P := fun j p => p.live ↔ (s.proc j).live) (fun _ _ => Iff.rfl) Iff.rfl j
      · exact upd_forall (s := s) (f := ({ · with killed := true }))
          (P := fun j p => p.pid = (s.proc j).pid) (fun _ _ => rfl) rfl j
    | select | timer | preempt | clock | start | sleep | wakeup | exit | setpriority => cases hq

theorem pidInv_boot : PidInv boot := by
  have h0 : PidInv procinit :=
    ⟨fun _ _ => rfl, fun _ hl => absurd rfl hl, fun _ _ hl => absurd rfl hl,
      fun _ _ hl => absurd rfl hl⟩
  have hs := same_upd (s := procinit.allocproc 0) 0 (·.start 0)
    ⟨fun _ => nofun, fun _ => nofun⟩ rfl rfl
  exact (h0.allocproc (by decide) 0).congr hs.live hs.pid hs.nextpid

theorem pidInv_reach (h : ReachBy PidLeft s) : PidInv s :=
  Reach.invariant (fun _ h0 => by rw [h0]; exact pidInv_boot)
    (fun _ _ hi ⟨_, hg, ha, hs⟩ => by rw [hs]; exact hi.step ha hg) h

/-- A scan for the pid of a live process stops there. -/
theorem PidInv.only (h : PidInv s) (hi : (s.proc i).live) (hk : (s.proc k).pid = (s.proc i).pid) :
    k = i := by
  by_cases hl : (s.proc k).live
  · exact h.inj k i hl hi hk
  · have h0 := h.pos i hi
    rw [← hk, h.blank k hl] at h0
    exact absurd h0 Int32.lt_irrefl

theorem PidInv.find (h : PidInv s) (hi : (s.proc i).live) : s.find (s.proc i).pid = some i := by
  unfold Sys.find
  cases hf : (List.finRange NPROC).find? fun k => (s.proc k).pid == (s.proc i).pid with
  | none =>
    have := List.find?_eq_none.mp hf i (List.mem_finRange i)
    exact absurd (beq_self_eq_true _) this
  | some k =>
    have hk := List.find?_some hf
    rw [h.only hi (eq_of_beq hk)]

/-- **Pids identify processes**, in every state of a run in which `allocpid` is called only while
    `nextpid` is positive: live pids are positive and distinct, the next child has a positive pid
    too, and `kkill`, `setpriority` and `getpriority` of a live pid act on that process only,
    whether they scan the table at once or slot by slot. -/
theorem pids_identify (h : ReachBy PidLeft s) :
    (∀ i, (s.proc i).live → 0 < (s.proc i).pid) ∧
    (∀ i j, (s.proc i).live → (s.proc j).live → (s.proc i).pid = (s.proc j).pid → i = j) ∧
    (∀ i k, PidLeft s (.alloc i k) → 0 < ((next s (.alloc i k)).proc k).pid) ∧
    ∀ i, (s.proc i).live →
      (∀ k, (s.proc k).pid = (s.proc i).pid → k = i) ∧
      s.kkill (s.proc i).pid = ((s.aim (s.proc i).pid).upd i (·.kkill), 0) ∧
      (∀ prio, PRI_MIN ≤ prio → prio ≤ PRI_MAX →
        s.setpriority (s.proc i).pid prio = (s.upd i (·.setpriority prio s.ticks), 0)) ∧
      s.getpriority (s.proc i).pid = (s.proc i).priority := by
  have hi := pidInv_reach h
  refine ⟨hi.pos, hi.inj, fun i k hn => ?_, fun i hl => ⟨fun k => hi.only hl, ?_, ?_, ?_⟩⟩
  · rw [next, upd_same, allocproc_same]
    exact hn
  · rw [Sys.kkill, hi.find hl]
  · intro prio hmin hmax
    rw [Sys.setpriority, if_neg (by omega), hi.find hl]
  · rw [Sys.getpriority, hi.find hl]

/-- The first process and its child. -/
theorem pids_identify_child : ReachBy PidLeft family ∧ (family.proc 0).live ∧
    (family.proc 1).live ∧ (family.proc 0).pid ≠ (family.proc 1).pid ∧
    family.kkill (family.proc 1).pid = ((family.aim (family.proc 1).pid).upd 1 (·.kkill), 0) ∧
    0 < ((next family (.alloc 0 2)).proc 2).pid := by
  have h : ReachBy PidLeft family :=
    reachable_family (reachable_first trivial) (show 0 < first.nextpid by decide) trivial
  obtain ⟨-, hinj, hnext, honly⟩ := pids_identify h
  exact ⟨h, nofun, nofun, fun e => absurd (hinj 0 1 nofun nofun e) (by decide),
    (honly 1 nofun).2.1, hnext 0 2 (show 0 < family.nextpid by decide)⟩

/-- The first process runs, and it is alone. -/
structure Alone (s : Sys) : Prop where
  init : s.initproc = 0
  runs : (s.proc 0).state = .running
  rest : ∀ k, k ≠ 0 → (s.proc k).state = .unused

/-- **One round**: the first process forks, its child runs and exits, and the first process reaps
    it. The table is as before, and `nextpid` one further. -/
theorem round (hr : Reachable s) (h : Alone s) :
    ∃ s', Reachable s' ∧ Alone s' ∧ s'.nextpid = s.nextpid + 1 := by
  have h1 : (s.proc 1).state = .unused := h.rest 1 (by decide)
  have h01 : (0 : Fin NPROC) ≠ 1 := by decide
  obtain ⟨a, ea⟩ : ∃ t, t = next s (.alloc 0 1) := ⟨_, rfl⟩
  have a0 : ∀ k, k ≠ 1 → a.proc k = s.proc k := fun k hk => by
    rw [ea, next, upd_other hk, allocproc_other hk]
  have a1 : a.proc 1 = { (s.proc 1).allocproc s.nextpid s.ticks with parent := some 0 } := by
    rw [ea, next, upd_same, allocproc_same]
  obtain ⟨b, eb⟩ : ∃ t, t = next a (.start 0 1) := ⟨_, rfl⟩
  have b0 : ∀ k, k ≠ 1 → b.proc k = s.proc k := fun k hk => by
    rw [eb, next, upd_other hk, a0 k hk]
  have b1 : b.proc 1 = (a.proc 1).start a.ticks := by rw [eb, next, upd_same]
  obtain ⟨c, ec⟩ : ∃ t, t = next b (.select 1 0) := ⟨_, rfl⟩
  have c0 : ∀ k, k ≠ 1 → c.proc k = s.proc k := fun k hk => by
    rw [ec, next, upd_other hk, b0 k hk]
  have c1 : c.proc 1 = (b.proc 1).select 0 := by rw [ec, next, upd_same]
  have cp : (c.proc 1).parent = some 0 := by rw [c1, b1, a1]; rfl
  obtain ⟨d, ed⟩ : ∃ t, t = next c (.exit 1) := ⟨_, rfl⟩
  have dst : ∀ k, k ≠ 1 → (d.proc k).state = (c.proc k).state := by
    intro k hk
    rw [ed, next, upd_other hk, Sys.reparent]
    dsimp only
    split <;> rfl
  have d1 : d.proc 1 = { c.proc 1 with state := .zombie } := by
    rw [ed, next, upd_same, Sys.reparent]
    dsimp only
    rw [if_neg (by rw [cp]; decide)]
  have ini : c.initproc = s.initproc := by rw [ec, eb, ea]; rfl
  have ra : Reachable a := .step hr ⟨.alloc 0 1, trivial, ⟨h.runs, h1⟩, ea⟩
  have rb : Reachable b :=
    .step ra ⟨.start 0 1, trivial, ⟨by rw [a0 0 h01]; exact h.runs, by rw [a1]; rfl, by rw [a1]⟩, eb⟩
  have rc : Reachable c := .step rb ⟨.select 1 0, trivial, by rw [Allowed, b1]; rfl, ec⟩
  have rd : Reachable d := .step rc ⟨.exit 1, trivial, ⟨by rw [c1]; rfl, by
    rw [ini, h.init]
    decide⟩, ed⟩
  have dr : (d.proc 0).state = .running := by rw [dst 0 h01, c0 0 h01]; exact h.runs
  have re : Reachable (next d (.reap 0 1)) :=
    .step rd ⟨.reap 0 1, trivial, ⟨dr, by rw [d1], by rw [d1]; exact cp⟩, rfl⟩
  refine ⟨_, re, ⟨?_, ?_, fun k hk => ?_⟩, ?_⟩
  · rw [← h.init, ← ini, ed]
    rfl
  · rw [next, upd_other h01]
    exact dr
  · rcases eq_or_ne k 1 with rfl | hk1
    · rw [next, upd_same]
      rfl
    · rw [next, upd_other hk1, dst k hk1, c0 k hk1]
      exact h.rest k hk
  · rw [ed, ec, eb, ea]
    rfl

theorem rounds (n : Nat) : ∃ s, Reachable s ∧ Alone s ∧ s.nextpid = Int32.ofNat (n + 2) := by
  induction n with
  | zero =>
    refine ⟨first, reachable_first trivial, ⟨rfl, rfl, fun k hk => ?_⟩, rfl⟩
    rw [first, next, upd_other hk, boot, upd_other hk, allocproc_other hk]
    rfl
  | succ n ih =>
    obtain ⟨s, hr, ha, hn⟩ := ih
    obtain ⟨s', hr', ha', hn'⟩ := round hr ha
    refine ⟨s', hr', ha', ?_⟩
    rw [hn', hn, Int32.ofNat_add (n + 2) 1]
    rfl

/-- **`nextpid` wraps**: after 2^31 - 2 rounds of fork, exit and wait `kfork` makes a child with a
    negative pid, and returns that. -/
theorem pid_wraps : ∃ s s' : Sys, Reachable s ∧ Step s (.alloc 0 1) s' ∧ (s'.proc 1).live ∧
    (s'.proc 1).pid = -2147483648 := by
  obtain ⟨s, hr, ha, hn⟩ := rounds 2147483646
  refine ⟨s, _, hr, ⟨⟨ha.runs, ha.rest 1 (by decide)⟩, rfl⟩, ?_, ?_⟩
  · rw [next, upd_same, allocproc_same]
    nofun
  · rw [next, upd_same, allocproc_same]
    rw [hn]
    rfl

end HaiOS.Sched
