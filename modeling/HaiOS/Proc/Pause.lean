/-
  File:      HaiOS/Proc/Pause.lean
  Subject:   THE CLOCK AND ITS SLEEPERS: `sys_pause` (kernel/sysproc.c) and `clockintr`
             (kernel/trap.c), under `tickslock`. `ticks` is a 32-bit counter that wraps around.

  * `pause_on_time` -- a pause of `n` ticks lasts `n` clock interrupts, and nobody sleeps on when
    they are over.
-/
import HaiOS.Lib.Monitor
import HaiOS.Lib.Ring
import HaiOS.Proc.Table
import Mathlib.Data.UInt

namespace HaiOS.Pauses

open Lib Lib.Monitors Function Procs

structure Clock where
  ticks : UInt32
  killed : Thread → Bool
  /-- HISTORY: the clock interrupts so far -/
  count : Nat

def boot : Clock := ⟨0, fun _ => false, 0⟩

inductive Pc where
  | pause (n : Int32)
  /-- at the head of the loop of `sys_pause`, with the number of clock interrupts at its start -/
  | loop (n ticks0 : UInt32) (start : Nat)
  | clockintr
  /-- behind the `wakeup` of `clockintr` -/
  | ticked

/-- The code under `tickslock`. -/
def body (t : Thread) : Pc → Clock → Next Clock Pc
  | .pause n, d => .goes d (.loop (if n < 0 then 0 else n).toUInt32 d.ticks d.count)
  | .loop n ticks0 start, d =>
    if d.ticks - ticks0 < n then
      -- killed: `return -1`
      if d.killed t then .leave d else .sleep d (.loop n ticks0 start)
    else .leave d
  | .clockintr, d => .signal { d with ticks := d.ticks + 1, count := d.count + 1 } .ticked
  | .ticked, d => .leave d

/-- Processes pause, and CPU 0 keeps the time. -/
inductive May : Thread → Pc → Clock → Prop where
  | pause (p : Fin NPROC) (n : Int32) (d : Clock) : May (.inl p) (.pause n) d
  | clockintr (d : Clock) : May (.inr 0) .clockintr d

/-- `kkill` and `setkilled`. -/
inductive Env : Clock → Clock → Prop where
  | kill (d : Clock) (t : Thread) : Env d { d with killed := update d.killed t true }

def monitor : Monitor Thread Clock Pc := ⟨slots, body, May, Env⟩

def Inv (d : Clock) : Prop := d.ticks.toNat = d.count % 2 ^ 32

theorem inv_boot : Inv boot := rfl

/-- What a thread in a pause remembers of its start. -/
def Pausing (t : Thread) (o : Option Pc) (d : Clock) : Prop :=
  match o with
  | some (.pause _) => t ∈ slots
  | some (.loop _ ticks0 start) => t ∈ slots ∧ ticks0.toNat = start % 2 ^ 32 ∧ start ≤ d.count
  | _ => True

theorem Pausing.mono {t : Thread} {o : Option Pc} {d d' : Clock} (h : Pausing t o d)
    (hle : d.count ≤ d'.count) : Pausing t o d' := by
  unfold Pausing at h ⊢
  split at h
  · exact h
  · exact ⟨h.1, h.2.1, h.2.2.trans hle⟩
  · trivial

theorem loop_cases (t : Thread) (n ticks0 : UInt32) (start : Nat) (d : Clock) :
    monitor.body t (.loop n ticks0 start) d = .leave d ∨
    (d.ticks - ticks0 < n ∧
      monitor.body t (.loop n ticks0 start) d = .sleep d (.loop n ticks0 start)) := by
  by_cases h : d.ticks - ticks0 < n <;> cases hk : d.killed t <;> simp [monitor, body, h, hk]

theorem data_of_ne {t : Thread} {a : Pc} {d : Clock} (h : a ≠ .clockintr) :
    (monitor.body t a d).data = d := by
  cases a with
  | pause | ticked => rfl
  | clockintr => exact absurd rfl h
  | loop n ticks0 start =>
    obtain he | ⟨-, he⟩ := loop_cases t n ticks0 start d <;> rw [he] <;> rfl

theorem outline : Outline monitor Inv Pausing (fun t a => Pausing t (some a)) where
  call {t a d} _ _ hm := by
    cases hm with
    | pause p => exact mem_slots p
    | clockintr => trivial
  acquire _ h := h
  keeps {t a d} hI hC := by
    rcases eq_or_ne a .clockintr with rfl | ha
    · exact counter_succ hI
    · rwa [data_of_ne ha]
  next {t a d} hI hC := by
    cases a with
    | pause n => exact ⟨hC, hI, Nat.le_refl _⟩
    | clockintr | ticked => trivial
    | loop n ticks0 start =>
      obtain he | ⟨-, he⟩ := loop_cases t n ticks0 start d <;> rw [he]
      · trivial
      · exact hC
  others {t a u o d} _ _ _ hu := by
    rcases eq_or_ne a .clockintr with rfl | ha
    · exact hu.mono (Nat.le_succ _)
    · rwa [data_of_ne ha]
  env_keeps hI he := by cases he; exact hI
  env_out _ he h := by cases he; exact h
  env_in _ he h := by cases he; exact h

theorem wakes : Wakes monitor Inv (fun t a => Pausing t (some a)) (fun a d =>
    ∀ n ticks0 start, a = .loop n ticks0 start → d.ticks - ticks0 < n) where
  sleep {t a d d' a'} _ hC hb := by
    cases a with
    | pause | clockintr | ticked => cases hb
    | loop n ticks0 start =>
      refine ⟨fun n' ticks0' start' h => ?_, hC.1⟩
      obtain he | ⟨hlt, he⟩ := loop_cases t n ticks0 start d <;> rw [he] at hb <;> cases hb
      cases h
      exact hlt
  keeps {t a d b} _ _ hs hW := by
    rcases eq_or_ne a .clockintr with rfl | ha
    · exact absurd rfl (hs _ _)
    · rwa [data_of_ne ha]
  env _ he hW := by cases he; exact hW

/-- **A pause is neither too short nor too long.** A process that leaves the loop of `sys_pause`,
    and has not been killed, has seen `n` clock interrupts, however often `ticks` has wrapped; and
    when `tickslock` is free, one that sleeps there, or is on its way to, has not, as long as it has
    slept for fewer than 2^32 of them. -/
theorem pause_on_time {s : Sys Thread Clock Pc} (hr : Reached monitor boot s) (t : Thread)
    (n ticks0 : UInt32) (start : Nat) :
    (s.place t = .crit (.loop n ticks0 start) → s.data.killed t = false →
      body t (.loop n ticks0 start) s.data = .leave s.data → start + n.toNat ≤ s.data.count) ∧
    (s.holder = none → (s.place t).rests = some (.loop n ticks0 start) →
      s.data.count < start + 2 ^ 32 → s.data.count < start + n.toNat) := by
  have hv := outline.reach inv_boot (fun _ => trivial) hr
  have hI : s.data.ticks.toNat = s.data.count % 2 ^ 32 := hv.data
  constructor
  · intro hp hk hb
    have hpl := hv.place t
    rw [hp] at hpl
    obtain ⟨-, h0, hle⟩ : Pausing t (some (.loop n ticks0 start)) s.data := hpl
    have hn : n ≤ s.data.ticks - ticks0 := by
      by_contra hlt
      simp [body, UInt32.not_le.mp hlt, hk] at hb
    have hn' := UInt32.le_iff_toNat_le.mp hn
    rw [UInt32.toNat_sub, h0, hI] at hn'
    omega
  · intro hfree ht hw
    obtain ⟨-, h0, hle⟩ : Pausing t (some (.loop n ticks0 start)) s.data :=
      sat_of_rests (hv.place t) ht
    have hlt := wakes.waits outline inv_boot (fun _ => trivial) hr hfree ht _ _ _ rfl
    have hlt' := UInt32.lt_iff_toNat_lt.mp hlt
    rw [counter_sub h0 hI hle hw] at hlt'
    omega

/-- On its way to sleep for one tick, and about to leave a pause of none. -/
theorem pause_on_time_one : (∃ s : Sys Thread Clock Pc,
    (s.place (.inl 0)).rests = some (.loop 1 0 0) ∧ s.data.count < 0 + (1 : UInt32).toNat) ∧
    ∃ s : Sys Thread Clock Pc, s.place (.inl 0) = .crit (.loop 0 0 0) ∧
      0 + (0 : UInt32).toNat ≤ s.data.count := by
  have h0 : Reached monitor boot (Sys.start boot) := .start rfl
  have h1 := call_first h0 (i := .inl 0) rfl (.pause 0 1 _) rfl
  have h2 := h1.step (.run (i := .inl 0) (a := .loop 1 0 0) rfl)
  have h3 := call_first h0 (i := .inl 0) rfl (.pause 0 0 _) rfl
  exact ⟨⟨_, rfl, (pause_on_time h2 (.inl 0) 1 0 0).2 rfl rfl (by decide)⟩,
    _, rfl, (pause_on_time h3 (.inl 0) 0 0 0).1 rfl rfl rfl⟩

end HaiOS.Pauses
