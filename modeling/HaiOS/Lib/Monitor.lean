/-
  File:      HaiOS/Lib/Monitor.lean
  Subject:   MONITORS. Threads that share data under one lock, sleep on it until a condition holds
             and wake each other by a loop over the threads. Names nothing of the kernel.

  A thread gives up the lock before it counts as asleep, and a waker visits one thread after the
  other. All that keeps a wake-up from being lost is that a thread on its way to sleep cannot be
  visited (`Place.falls`).

  * `Monitor`, `Sys`, `Step` -- critical sections as programs, and the machine that interleaves
    them with each other, with stray wake-ups and with steps of an environment;
  * `Outline`, `Outline.reach` -- PROOF OUTLINES: an invariant of the data, and what holds for a
    thread where it stands;
  * `Wakes`, `Wakes.reach`, `Wakes.waits` -- NO LOST WAKE-UP.
-/
import HaiOS.Lib.Machine
import Mathlib.Logic.Function.Basic

namespace HaiOS.Lib.Monitors

open Function

variable {ι σ α : Type}

/-! ## 1. The machine -/

/-- What a thread that holds the lock does next, with the data it leaves. -/
inductive Next (σ α : Type) where
  /-- give up the lock and return -/
  | leave (d : σ)
  /-- go on at `a`, the lock held -/
  | goes (d : σ) (a : α)
  /-- give up the lock, sleep, take the lock again and go on at `a` -/
  | sleep (d : σ) (a : α)
  /-- wake the sleepers and go on at `a`, the lock held -/
  | signal (d : σ) (a : α)

def Next.data : Next σ α → σ
  | .leave d => d
  | .goes d _ => d
  | .sleep d _ => d
  | .signal d _ => d

/-- Where a thread stands; `a` is where its program goes on. -/
inductive Place (ι α : Type) where
  | out
  /-- about to take the lock -/
  | enter (a : α)
  | crit (a : α)
  /-- holds the lock and has the threads of `rest` still to visit -/
  | wake (a : α) (rest : List ι)
  /-- has given up the lock and is not asleep yet; cannot be visited -/
  | falls (a : α)
  | asleep (a : α)

namespace Place

def holds : Place ι α → Bool
  | .crit _ => true
  | .wake _ _ => true
  | _ => false

/-- Where a thread's program goes on, if it is in a call. -/
def pc : Place ι α → Option α
  | .out => none
  | .enter a => some a
  | .crit a => some a
  | .wake a _ => some a
  | .falls a => some a
  | .asleep a => some a

/-- Where a thread goes on that sleeps or is on its way to. -/
def rests : Place ι α → Option α
  | .falls a => some a
  | .asleep a => some a
  | _ => none

/-- What a visit does to a thread. -/
def woken : Place ι α → Place ι α
  | .asleep a => .enter a
  | p => p

end Place

def Next.place (slots : List ι) : Next σ α → Place ι α
  | .leave _ => .out
  | .goes _ a => .crit a
  | .sleep _ a => .falls a
  | .signal _ a => .wake a slots

/-- A monitor: who is visited by a waker, the programs of the threads, the calls they may make,
    and what may happen to the data without the lock. -/
structure Monitor (ι σ α : Type) where
  slots : List ι
  body : ι → α → σ → Next σ α
  may : ι → α → σ → Prop
  env : σ → σ → Prop

structure Sys (ι σ α : Type) where
  data : σ
  holder : Option ι
  place : ι → Place ι α

variable [DecidableEq ι]

def Sys.move (s : Sys ι σ α) (i : ι) (p : Place ι α) : Sys ι σ α :=
  { s with place := update s.place i p }

/-- The state after a thread that holds the lock has done what its program says. -/
def Sys.after (s : Sys ι σ α) (slots : List ι) (i : ι) (n : Next σ α) : Sys ι σ α :=
  ⟨n.data, if (n.place slots).holds then s.holder else none, update s.place i (n.place slots)⟩

inductive Step (M : Monitor ι σ α) : Sys ι σ α → Sys ι σ α → Prop where
  | call {s i a} (hp : s.place i = .out) (hm : M.may i a s.data) : Step M s (s.move i (.enter a))
  | acquire {s i a} (hp : s.place i = .enter a) (hl : s.holder = none) :
      Step M s ⟨s.data, some i, update s.place i (.crit a)⟩
  | run {s i a} (hp : s.place i = .crit a) : Step M s (s.after M.slots i (M.body i a s.data))
  | fall {s i a} (hp : s.place i = .falls a) : Step M s (s.move i (.asleep a))
  | visit {s i k a rest} (hp : s.place i = .wake a (k :: rest)) (hk : ∀ b, s.place k ≠ .falls b) :
      Step M s ((s.move k (s.place k).woken).move i (.wake a rest))
  | woken {s i a} (hp : s.place i = .wake a []) : Step M s (s.move i (.crit a))
  /-- a sleeper is woken by someone else, for a reason of its own -/
  | kick {s i a} (hp : s.place i = .asleep a) : Step M s (s.move i (.enter a))
  | env {s d} (he : M.env s.data d) : Step M s { s with data := d }

/-- Nobody has called yet. -/
def Sys.start (d : σ) : Sys ι σ α := ⟨d, none, fun _ => .out⟩

/-- The states reached from the data `d`. -/
abbrev Reached (M : Monitor ι σ α) (d : σ) : Sys ι σ α → Prop :=
  Reach (fun s => s = Sys.start d) (Step M)

/-- A call up to the first step of its program. -/
theorem call_first {M : Monitor ι σ α} {d : σ} {s : Sys ι σ α} (hr : Reached M d s) {i : ι} {a : α}
    (hp : s.place i = .out) (hm : M.may i a s.data) (hl : s.holder = none) :
    Reached M d ((⟨s.data, some i, update s.place i (.crit a)⟩ : Sys ι σ α).after M.slots i
      (M.body i a s.data)) := by
  have h := (hr.step (.call hp hm)).step (.acquire (update_self ..) hl)
  simp only [Sys.move, update_idem] at h
  exact h.step (.run (update_self ..))

/-! ## 2. Who holds the lock -/

/-- The holder is the thread, and the only one, at a place where the lock is held. -/
def Held (holder : Option ι) (place : ι → Place ι α) : Prop :=
  ∀ i, (place i).holds = true ↔ holder = some i

section Held

variable {holder : Option ι} {place : ι → Place ι α} {i j : ι} {p : Place ι α}

omit [DecidableEq ι] in
theorem Held.unique (h : Held holder place) (hi : (place i).holds = true)
    (hj : (place j).holds = true) : j = i :=
  Option.some.inj (((h j).mp hj).symm.trans ((h i).mp hi))

/-- A thread moves, and the lock is or is not given or taken. -/
theorem Held.update {l : Option ι} (h : Held holder place) (hi : p.holds = true ↔ l = some i)
    (hne : ∀ j, j ≠ i → (l = some j ↔ holder = some j)) : Held l (update place i p) := by
  intro j
  rcases eq_or_ne j i with rfl | hj
  · rwa [update_self]
  · rw [update_of_ne hj, hne j hj]
    exact h j

theorem Held.move (h : Held holder place) (hp : p.holds = (place i).holds) :
    Held holder (Function.update place i p) :=
  h.update (by rw [hp]; exact h i) fun _ _ => Iff.rfl

theorem held_step {M : Monitor ι σ α} {s s' : Sys ι σ α} (h : Held s.holder s.place)
    (hs : Step M s s') : Held s'.holder s'.place := by
  cases hs with
  | call hp | fall hp | woken hp | kick hp => exact h.move (by rw [hp]; rfl)
  | acquire hp hl => exact h.update (by simp [Place.holds]) fun j hj => by simp [hl, hj.symm]
  | @run i a hp =>
    have hi : s.holder = some i := (h i).mp (by rw [hp]; rfl)
    refine h.update ?_ fun j hj => ?_ <;>
      cases hn : ((M.body i a s.data).place M.slots).holds <;> simp [Sys.after, hn, hi]
    exact hj.symm
  | @visit i k _ _ hp _ =>
    have hk : (s.place k).woken.holds = (s.place k).holds := by cases s.place k <;> rfl
    refine (h.move hk).move ?_
    rcases eq_or_ne i k with rfl | hne
    · rw [update_self, hp]; rfl
    · rw [update_of_ne hne, hp]; rfl
  | env => exact h

end Held

/-! ## 3. Proof outlines -/

/-- What an outline says of a thread at a place: `L` where it is without the lock (`none` outside
    its calls), `C` where it holds the lock. -/
def Place.Sat (L : Option α → σ → Prop) (C : α → σ → Prop) (d : σ) : Place ι α → Prop
  | .out => L none d
  | .enter a => L (some a) d
  | .falls a => L (some a) d
  | .asleep a => L (some a) d
  | .crit a => C a d
  | .wake a _ => C a d

omit [DecidableEq ι] in
theorem sat_of_rests {L : Option α → σ → Prop} {C : α → σ → Prop} {d : σ} {p : Place ι α} {a : α}
    (h : p.Sat L C d) (hp : p.rests = some a) : L (some a) d := by
  cases p <;> cases hp <;> exact h

/-- **A proof outline** of a monitor. Only what is said of threads without the lock has to stand
    the steps of the others. -/
structure Outline (M : Monitor ι σ α) (I : σ → Prop) (L : ι → Option α → σ → Prop)
    (C : ι → α → σ → Prop) : Prop where
  call : ∀ {i a d}, I d → L i none d → M.may i a d → L i (some a) d
  acquire : ∀ {i a d}, I d → L i (some a) d → C i a d
  keeps : ∀ {i a d}, I d → C i a d → I (M.body i a d).data
  next : ∀ {i a d}, I d → C i a d →
    ((M.body i a d).place M.slots).Sat (L i) (C i) (M.body i a d).data
  others : ∀ {i a j o d}, j ≠ i → I d → C i a d → L j o d → L j o (M.body i a d).data
  env_keeps : ∀ {d d'}, I d → M.env d d' → I d'
  env_out : ∀ {d d' i o}, I d → M.env d d' → L i o d → L i o d'
  env_in : ∀ {d d' i a}, I d → M.env d d' → C i a d → C i a d'

/-- The outline holds in a state. -/
structure Valid (I : σ → Prop) (L : ι → Option α → σ → Prop) (C : ι → α → σ → Prop)
    (s : Sys ι σ α) : Prop where
  held : Held s.holder s.place
  data : I s.data
  place : ∀ i, (s.place i).Sat (L i) (C i) s.data

namespace Outline

variable {M : Monitor ι σ α} {I : σ → Prop} {L : ι → Option α → σ → Prop} {C : ι → α → σ → Prop}
  {s s' : Sys ι σ α} {i j : ι} {a : α} {d : σ}

omit [DecidableEq ι] in
/-- Without the lock only `L` is said, and it stands the steps of the others. -/
theorem sat_others (h : Outline M I L C) (hne : j ≠ i) (hI : I d) (hC : C i a d)
    {p : Place ι α} (hp : p.holds = false) (hj : p.Sat (L j) (C j) d) :
    p.Sat (L j) (C j) (M.body i a d).data := by
  cases p with
  | out | enter | falls | asleep => exact h.others hne hI hC hj
  | crit | wake => cases hp

omit [DecidableEq ι] in
theorem sat_env (h : Outline M I L C) (hI : I d) {d' : σ} (he : M.env d d') {p : Place ι α}
    (hi : p.Sat (L i) (C i) d) : p.Sat (L i) (C i) d' := by
  cases p with
  | out | enter | falls | asleep => exact h.env_out hI he hi
  | crit | wake => exact h.env_in hI he hi

/-- A thread moves and the data stay. -/
theorem place_update {f : ι → Place ι α} (hf : ∀ j, (f j).Sat (L j) (C j) d) {p : Place ι α}
    (hp : p.Sat (L i) (C i) d) (j : ι) : (update f i p j).Sat (L j) (C j) d := by
  rcases eq_or_ne j i with rfl | hj
  · rwa [update_self]
  · rw [update_of_ne hj]
    exact hf j

theorem valid_step (h : Outline M I L C) (hv : Valid I L C s) (hs : Step M s s') :
    Valid I L C s' := by
  have hheld := held_step hv.held hs
  have at_place {i : ι} {p : Place ι α} (hp : s.place i = p) : p.Sat (L i) (C i) s.data :=
    hp ▸ hv.place i
  cases hs with
  | call hp hm => exact ⟨hheld, hv.data, place_update hv.place (h.call hv.data (at_place hp) hm)⟩
  | acquire hp => exact ⟨hheld, hv.data, place_update hv.place (h.acquire hv.data (at_place hp))⟩
  | fall hp | woken hp | kick hp =>
    have hi := at_place hp
    exact ⟨hheld, hv.data, place_update hv.place hi⟩
  | @run i a hp =>
    have hC : C i a s.data := at_place hp
    refine ⟨hheld, h.keeps hv.data hC, fun j => ?_⟩
    show (update s.place i _ j).Sat (L j) (C j) _
    rcases eq_or_ne j i with rfl | hj
    · rw [update_self]
      exact h.next hv.data hC
    · rw [update_of_ne hj]
      refine h.sat_others hj hv.data hC ?_ (hv.place j)
      -- the others are without the lock, as `i` has it
      refine Bool.eq_false_iff.mpr fun hjh => hj (hv.held.unique ?_ hjh)
      rw [hp]
      rfl
  | @visit i k _ _ hp hk =>
    have hi := at_place hp
    refine ⟨hheld, hv.data, place_update (place_update hv.place ?_) hi⟩
    have hk' := hv.place k
    cases hpk : s.place k <;> rw [hpk] at hk' <;> exact hk'
  | env he => exact ⟨hheld, h.env_keeps hv.data he, fun i => h.sat_env hv.data he (hv.place i)⟩

/-- **What an outline says holds in every reachable state.** -/
theorem reach (h : Outline M I L C) (hI : I d) (hL : ∀ i, L i none d) (hr : Reached M d s) :
    Valid I L C s := by
  refine Reach.invariant (I := Valid I L C) (fun s hs => ?_) (fun _ _ => h.valid_step) hr
  subst hs
  exact ⟨fun i => by simp [Sys.start, Place.holds], hI, hL⟩

end Outline

/-! ## 4. No lost wake-up -/

/-- **The discipline of sleeping**: a thread that a waker visits sleeps when its condition does
    not hold (`W`), and what may end the wait of a thread wakes the sleepers. -/
structure Wakes (M : Monitor ι σ α) (I : σ → Prop) (C : ι → α → σ → Prop)
    (W : α → σ → Prop) : Prop where
  sleep : ∀ {i a d d' a'}, I d → C i a d → M.body i a d = .sleep d' a' → W a' d' ∧ i ∈ M.slots
  keeps : ∀ {i a d b}, I d → C i a d → (∀ d' a', M.body i a d ≠ .signal d' a') → W b d →
    W b (M.body i a d).data
  env : ∀ {d d' b}, I d → M.env d d' → W b d → W b d'

/-- A sleeper waits for its condition, or a waker has it still to visit. -/
def Awaited (M : Monitor ι σ α) (W : α → σ → Prop) (s : Sys ι σ α) : Prop :=
  ∀ i a, (s.place i).rests = some a → i ∈ M.slots ∧
    (W a s.data ∨ ∃ j b rest, s.place j = .wake b rest ∧ i ∈ rest)

namespace Wakes

variable {M : Monitor ι σ α} {I : σ → Prop} {L : ι → Option α → σ → Prop} {C : ι → α → σ → Prop}
  {W : α → σ → Prop} {s s' : Sys ι σ α} {i : ι} {a : α} {d : σ}

/-- A thread that is not waking anybody moves, and rests afterwards only if it did before. -/
theorem awaited_move (h : Awaited M W s) {p : Place ι α} (hw : ∀ b rest, s.place i ≠ .wake b rest)
    (hp : ∀ a, p.rests = some a → (s.place i).rests = some a) {l : Option ι} :
    Awaited M W ⟨s.data, l, update s.place i p⟩ := by
  intro j a hj
  have hj' : (s.place j).rests = some a := by
    rcases eq_or_ne j i with rfl | hne
    · exact hp a (by simpa only [update_self] using hj)
    · simpa only [update_of_ne hne] using hj
  refine ⟨(h j a hj').1, (h j a hj').2.imp_right ?_⟩
  rintro ⟨k, b, rest, hk, hjr⟩
  refine ⟨k, b, rest, ?_, hjr⟩
  have hki : k ≠ i := fun e => hw b rest (e ▸ hk)
  simpa only [update_of_ne hki] using hk

omit [DecidableEq ι] in
/-- While a thread holds the lock and wakes nobody, every sleeper waits for its condition. -/
theorem waits_of_crit (h : Awaited M W s) (hheld : Held s.holder s.place)
    (hp : s.place i = .crit a) {j : ι} {b : α} (hj : (s.place j).rests = some b) :
    j ∈ M.slots ∧ W b s.data := by
  obtain ⟨hm, hW | ⟨k, c, rest, hk, -⟩⟩ := h j b hj
  · exact ⟨hm, hW⟩
  · have hki : k = i := hheld.unique (by rw [hp]; rfl) (by rw [hk]; rfl)
    rw [hki, hp] at hk
    cases hk

/-- A thread with the lock takes a step of its program. -/
theorem awaited_run (h : Wakes M I C W) (hv : Valid I L C s) (ha : Awaited M W s)
    (hp : s.place i = .crit a) : Awaited M W (s.after M.slots i (M.body i a s.data)) := by
  have hC : C i a s.data := (hp ▸ hv.place i : (Place.crit a).Sat (L i) (C i) s.data)
  intro j b hj
  change (update s.place i _ j).rests = some b at hj
  rcases eq_or_ne j i with rfl | hne
  · -- it rests only after a `sleep`
    rw [update_self] at hj
    cases hb : M.body j a s.data <;> rw [hb] at hj <;> cases hj
    obtain ⟨hW, hm⟩ := h.sleep hv.data hC hb
    exact ⟨hm, .inl hW⟩
  · rw [update_of_ne hne] at hj
    obtain ⟨hm, hW⟩ := waits_of_crit ha hv.held hp hj
    by_cases hsig : ∃ d' a', M.body i a s.data = .signal d' a'
    · obtain ⟨d', a', hb⟩ := hsig
      exact ⟨hm, .inr ⟨i, a', M.slots, by simp [Sys.after, hb, Next.place], hm⟩⟩
    · exact ⟨hm, .inl (h.keeps hv.data hC (fun d' a' hb => hsig ⟨d', a', hb⟩) hW)⟩

omit [DecidableEq ι] in
/-- While a thread wakes the others, a sleeper waits for its condition or is still to be visited. -/
theorem waits_of_wake (h : Awaited M W s) (hheld : Held s.holder s.place) {rest : List ι}
    (hp : s.place i = .wake a rest) {j : ι} {b : α} (hj : (s.place j).rests = some b) :
    j ∈ M.slots ∧ (W b s.data ∨ j ∈ rest) := by
  obtain ⟨hm, hW | ⟨k, c, rest', hk, hjr⟩⟩ := h j b hj
  · exact ⟨hm, .inl hW⟩
  · have hki : k = i := hheld.unique (by rw [hp]; rfl) (by rw [hk]; rfl)
    rw [hki, hp] at hk
    cases hk
    exact ⟨hm, .inr hjr⟩

/-- A waker visits the next thread. -/
theorem awaited_visit (ha : Awaited M W s) (hheld : Held s.holder s.place) {k : ι}
    {rest : List ι} (hp : s.place i = .wake a (k :: rest)) (hk : ∀ b, s.place k ≠ .falls b) :
    Awaited M W ((s.move k (s.place k).woken).move i (.wake a rest)) := by
  intro j b hj
  change (update (update s.place k (s.place k).woken) i _ j).rests = some b at hj
  have hji : j ≠ i := by
    rintro rfl
    rw [update_self] at hj
    cases hj
  rw [update_of_ne hji] at hj
  -- the visited thread does not rest: it was not on its way to sleep, and no longer sleeps
  have hjk : j ≠ k := by
    rintro rfl
    rw [update_self] at hj
    cases hpj : s.place j <;> rw [hpj] at hj <;> cases hj
    exact hk _ hpj
  rw [update_of_ne hjk] at hj
  obtain ⟨hm, hW⟩ := waits_of_wake ha hheld hp hj
  refine ⟨hm, hW.imp_right fun hjr => ⟨i, a, rest, update_self .., ?_⟩⟩
  exact (List.mem_cons.mp hjr).resolve_left hjk

/-- A waker has visited all. -/
theorem awaited_woken (ha : Awaited M W s) (hheld : Held s.holder s.place)
    (hp : s.place i = .wake a []) : Awaited M W (s.move i (.crit a)) := by
  intro j b hj
  change (update s.place i _ j).rests = some b at hj
  have hji : j ≠ i := by
    rintro rfl
    rw [update_self] at hj
    cases hj
  rw [update_of_ne hji] at hj
  obtain ⟨hm, hW | hj'⟩ := waits_of_wake ha hheld hp hj
  · exact ⟨hm, .inl hW⟩
  · cases hj'

theorem awaited_step (h : Wakes M I C W) (hv : Valid I L C s) (ha : Awaited M W s)
    (hs : Step M s s') : Awaited M W s' := by
  cases hs with
  | call hp | acquire hp | fall hp | kick hp =>
    refine awaited_move ha (fun b rest h => ?_) fun a hr => ?_
    · rw [hp] at h
      cases h
    · rw [hp]
      first | exact hr | cases hr
  | run hp => exact h.awaited_run hv ha hp
  | visit hp hk => exact awaited_visit ha hv.held hp hk
  | woken hp => exact awaited_woken ha hv.held hp
  | env he => exact fun i a hi => ⟨(ha i a hi).1, (ha i a hi).2.imp_left (h.env hv.data he)⟩

theorem reach (h : Wakes M I C W) (ho : Outline M I L C) (hI : I d) (hL : ∀ i, L i none d)
    (hr : Reached M d s) : Valid I L C s ∧ Awaited M W s := by
  refine Reach.invariant (I := fun s => Valid I L C s ∧ Awaited M W s) (fun s hs => ?_)
    (fun s s' hs hstep => ?_) hr
  · subst hs
    exact ⟨ho.reach hI hL (.start rfl), fun i a hi => by cases hi⟩
  · exact ⟨ho.valid_step hs.1 hstep, h.awaited_step hs.1 hs.2 hstep⟩

/-- **No wake-up is lost**: when nobody holds the lock, whoever sleeps, or is on its way to,
    waits for a condition that does not hold. -/
theorem waits (h : Wakes M I C W) (ho : Outline M I L C) (hI : I d) (hL : ∀ i, L i none d)
    (hr : Reached M d s) (hfree : s.holder = none) (hi : (s.place i).rests = some a) :
    W a s.data := by
  obtain ⟨hv, ha⟩ := h.reach ho hI hL hr
  obtain ⟨-, hW | ⟨j, b, rest, hj, -⟩⟩ := ha i a hi
  · exact hW
  · have hjh := (hv.held j).mp (by rw [hj]; rfl)
    rw [hfree] at hjh
    cases hjh

end Wakes

end HaiOS.Lib.Monitors
