/-
  File:      HaiOS/Proc/Sleeplock.lean
  Subject:   SLEEP LOCKS (kernel/sleeplock.c) over `sleep` and `wakeup` of kernel/proc.c.

  A sleep lock is a monitor under its spin lock `lk->lk`: `acquiresleep` sleeps while the lock is
  taken, and `releasesleep` wakes all that sleep on it. Each of the `NPROC` processes calls them at
  any time, and `releasesleep` only when it has the lock (`brelse` and `iunlock` see to that by
  `holdingsleep`).

  * `acquiresleep_excludes` -- MUTUAL EXCLUSION, and `holdingsleep` tells who has the lock;
  * `acquiresleep_wakes` -- nobody sleeps for a lock that is free.
-/
import HaiOS.Lib.Monitor
import HaiOS.Param

namespace HaiOS.Sleeplocks

open Lib.Monitors Function

/-- `struct sleeplock` without its spin lock and its name. -/
structure Sleeplock where
  locked : Bool
  pid : Int
  deriving DecidableEq

/-- `holdingsleep`, for the process `pid`. -/
def holdingsleep (lk : Sleeplock) (pid : Int) : Bool := lk.locked && lk.pid == pid

/-- The lock, and which processes have returned from `acquiresleep` and have not yet given the
    lock up in `releasesleep`. -/
structure Shared where
  lk : Sleeplock
  inside : Fin NPROC → Bool

/-- `initsleeplock`. -/
def initsleeplock : Shared := ⟨⟨false, 0⟩, fun _ => false⟩

inductive Pc where
  /-- at the head of the loop of `acquiresleep` -/
  | acquiresleep
  | releasesleep
  /-- behind the `wakeup` of `releasesleep` -/
  | released

/-- The code under `lk->lk`, for processes with the ids `pid`. -/
def body (pid : Fin NPROC → Int) (i : Fin NPROC) : Pc → Shared → Next Shared Pc
  | .acquiresleep, d =>
    if d.lk.locked then .sleep d .acquiresleep
    else .leave ⟨⟨true, pid i⟩, update d.inside i true⟩
  | .releasesleep, d => .signal ⟨⟨false, 0⟩, update d.inside i false⟩ .released
  | .released, d => .leave d

/-- The calls that keep to the use of a lock. -/
def may (i : Fin NPROC) : Pc → Shared → Prop
  | .acquiresleep, d => d.inside i = false
  | .releasesleep, d => d.inside i = true
  | .released, _ => False

def monitor (pid : Fin NPROC → Int) : Monitor (Fin NPROC) Shared Pc where
  slots := List.finRange NPROC
  body := body pid
  may := may
  env _ _ := False

/-! ## Mutual exclusion -/

variable {pid : Fin NPROC → Int} {d : Shared} {i : Fin NPROC}

/-- **The lock is taken by the one process that is inside**, and has its id. -/
structure Inv (pid : Fin NPROC → Int) (d : Shared) : Prop where
  locked : d.lk.locked = true ↔ ∃ i, d.inside i = true
  one : ∀ i j, d.inside i = true → d.inside j = true → i = j
  pid : ∀ i, d.inside i = true → d.lk.pid = pid i

/-- A process is where its calls let it be. -/
def Calls (i : Fin NPROC) (o : Option Pc) (d : Shared) : Prop :=
  match o with
  | some .acquiresleep => d.inside i = false
  | some .releasesleep => d.inside i = true
  | _ => True

theorem Inv.nobody (h : Inv pid d) (hl : d.lk.locked = false) (j : Fin NPROC) :
    d.inside j = false :=
  Bool.eq_false_iff.mpr fun hj => by
    rw [h.locked.mpr ⟨j, hj⟩] at hl
    cases hl

theorem Inv.acquire (h : Inv pid d) (hl : d.lk.locked = false) :
    Inv pid ⟨⟨true, pid i⟩, update d.inside i true⟩ := by
  have honly (j : Fin NPROC) (hj : update d.inside i true j = true) : j = i := by
    by_contra hne
    rw [update_of_ne hne, h.nobody hl j] at hj
    cases hj
  exact
    { locked := ⟨fun _ => ⟨i, update_self ..⟩, fun _ => rfl⟩
      one := fun j k hj hk => (honly j hj).trans (honly k hk).symm
      pid := fun j hj => congrArg pid (honly j hj).symm }

theorem Inv.release (h : Inv pid d) (hi : d.inside i = true) :
    Inv pid ⟨⟨false, 0⟩, update d.inside i false⟩ := by
  have hnone (j : Fin NPROC) : update d.inside i false j = false := by
    rcases eq_or_ne j i with rfl | hne
    · exact update_self ..
    · rw [update_of_ne hne]
      exact Bool.eq_false_iff.mpr fun hj => hne (h.one j i hj hi)
  constructor <;> simp [hnone]

theorem outline (pid : Fin NPROC → Int) :
    Outline (monitor pid) (Inv pid) Calls (fun i a => Calls i (some a)) where
  call {i a d} _ _ hm := by
    cases a with
    | acquiresleep | releasesleep => exact hm
    | released => cases hm
  acquire _ h := h
  keeps {i a d} hI hC := by
    cases a with
    | acquiresleep =>
      cases hl : d.lk.locked with
      | true => simpa [monitor, body, hl, Next.data] using hI
      | false => simpa [monitor, body, hl, Next.data] using hI.acquire hl
    | releasesleep => exact hI.release hC
    | released => exact hI
  next {i a d} hI hC := by
    cases a with
    | acquiresleep =>
      cases hl : d.lk.locked with
      | true => simpa [monitor, body, hl, Next.place, Next.data, Place.Sat] using hC
      | false => simp [monitor, body, hl, Next.place, Place.Sat, Calls]
    | releasesleep | released => trivial
  others {i a j o d} hne hI hC hj := by
    -- the others' flags are not touched
    have hsame : (body pid i a d).data.inside j = d.inside j := by
      cases a with
      | acquiresleep => cases hl : d.lk.locked <;> simp [body, hl, Next.data, hne]
      | releasesleep | released => simp [body, Next.data, hne]
    unfold Calls at hj ⊢
    split at hj
    · exact hsame.trans hj
    · exact hsame.trans hj
    · trivial
  env_keeps _ he := he.elim
  env_out _ he := he.elim
  env_in _ he := he.elim

theorem inv_initsleeplock : Inv pid initsleeplock := by
  constructor <;> simp [initsleeplock]

/-- Process 0 has the lock, and process 1 is on its way to sleep for it. -/
theorem contended (pid : Fin NPROC → Int) : ∃ s, Reached (monitor pid) initsleeplock s ∧
    s.holder = none ∧ (s.place 1).rests = some .acquiresleep ∧ s.data.inside 0 = true := by
  have h0 : Reached (monitor pid) initsleeplock (Sys.start initsleeplock) := .start rfl
  have h1 := call_first h0 (i := 0) (a := .acquiresleep) rfl rfl rfl
  exact ⟨_, call_first h1 (i := 1) (a := .acquiresleep) rfl rfl rfl, rfl, rfl, rfl⟩

/-- **A sleep lock excludes**: in every state that the processes reach, at most one of them has
    the lock, and `holdingsleep` answers exactly to that process that it has. -/
theorem acquiresleep_excludes {pid : Fin NPROC → Int} (hpid : Injective pid)
    {s : Sys (Fin NPROC) Shared Pc} (hr : Reached (monitor pid) initsleeplock s) :
    (∀ i j, s.data.inside i = true → s.data.inside j = true → i = j) ∧
      ∀ i, holdingsleep s.data.lk (pid i) = s.data.inside i := by
  have hI := ((outline pid).reach inv_initsleeplock (fun _ => trivial) hr).data
  refine ⟨hI.one, fun i => Bool.eq_iff_iff.mpr ?_⟩
  rw [holdingsleep, Bool.and_eq_true, beq_iff_eq, hI.locked]
  constructor
  · rintro ⟨⟨j, hj⟩, hp⟩
    have hji : j = i := hpid ((hI.pid j hj).symm.trans hp)
    rwa [← hji]
  · exact fun hi => ⟨⟨i, hi⟩, hI.pid i hi⟩

theorem acquiresleep_excludes_contended : ∃ s, Reached (monitor fun i => (i : Int)) initsleeplock s ∧
    (s.place 1).rests = some .acquiresleep ∧ holdingsleep s.data.lk 0 = true ∧
    ∀ j, s.data.inside j = true → j = 0 := by
  obtain ⟨s, hr, -, h1, h0⟩ := contended fun i => (i : Int)
  have hpid : Injective fun i : Fin NPROC => (i : Int) := fun i j h => Fin.ext (Int.ofNat.inj h)
  obtain ⟨hone, hholds⟩ := acquiresleep_excludes hpid hr
  exact ⟨s, hr, h1, (hholds 0).trans h0, fun j hj => hone j 0 hj h0⟩

/-! ## Wake-ups -/

/-- What the sleepers wait for. -/
def Taken (a : Pc) (d : Shared) : Prop := a = .acquiresleep ∧ d.lk.locked = true

theorem wakes (pid : Fin NPROC → Int) :
    Wakes (monitor pid) (Inv pid) (fun i a => Calls i (some a)) Taken where
  sleep {i a d d' a'} _ _ hb := by
    refine ⟨?_, List.mem_finRange i⟩
    cases a with
    | acquiresleep =>
      cases hl : d.lk.locked with
      | true =>
        simp only [monitor, body, hl, if_true, Next.sleep.injEq] at hb
        exact ⟨hb.2.symm, hb.1 ▸ hl⟩
      | false => simp [monitor, body, hl] at hb
    | releasesleep | released => cases hb
  keeps {i a d b} _ _ hs hW := by
    cases a with
    | acquiresleep => simpa [monitor, body, hW.2, Next.data] using hW
    | releasesleep => exact absurd rfl (hs _ _)
    | released => exact hW
  env _ he := he.elim

/-- **Nobody sleeps for a free lock**: when `lk->lk` is free, a process that sleeps in
    `acquiresleep`, or is on its way to, waits for another one that has the lock. -/
theorem acquiresleep_wakes {pid : Fin NPROC → Int} {s : Sys (Fin NPROC) Shared Pc}
    (hr : Reached (monitor pid) initsleeplock s) (hfree : s.holder = none) {i : Fin NPROC} {a : Pc}
    (hi : (s.place i).rests = some a) : ∃ j, j ≠ i ∧ s.data.inside j = true := by
  have hv := (outline pid).reach inv_initsleeplock (fun _ => trivial) hr
  obtain ⟨rfl, hl⟩ :=
    (wakes pid).waits (outline pid) inv_initsleeplock (fun _ => trivial) hr hfree hi
  obtain ⟨j, hj⟩ := hv.data.locked.mp hl
  refine ⟨j, ?_, hj⟩
  rintro rfl
  have hout : s.data.inside j = false := sat_of_rests (hv.place j) hi
  rw [hj] at hout
  cases hout

theorem acquiresleep_wakes_contended : ∃ s, Reached (monitor fun i => (i : Int)) initsleeplock s ∧
    s.holder = none ∧ (s.place 1).rests = some .acquiresleep ∧
    ∃ j, j ≠ 1 ∧ s.data.inside j = true := by
  obtain ⟨s, hr, hfree, h1, -⟩ := contended fun i => (i : Int)
  exact ⟨s, hr, hfree, h1, acquiresleep_wakes hr hfree h1⟩

end HaiOS.Sleeplocks
