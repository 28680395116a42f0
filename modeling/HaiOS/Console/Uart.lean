/-
  File:      HaiOS/Console/Uart.lean
  Subject:   THE TRANSMIT SIDE OF THE UART (kernel/uart.c: uartwrite, uartputc_sync, uartintr).

  Processes send through `uartwrite`, one byte for each transmit interrupt, under `tx_lock`; kernel
  `printf` and the echo through `uartputc_sync`, on any CPU and without that lock: between its test
  of LSR_TX_IDLE and its write to THR everybody else may move. The device has a FIFO of 16 bytes,
  which `uartinit` enables; LSR_TX_IDLE says that it is empty. When it runs empty, or input arrives,
  an interrupt is raised, and any CPU may take it. A byte written to a full FIFO is lost.

  * `uart_fifo` -- NO BYTE IS LOST: the FIFO never holds more than `NCPU + 1` bytes;
  * `uartwrite_order` -- each process's bytes go out once and in order, and are counted;
  * `uartwrite_wakes` -- who sleeps in `uartwrite` is woken by an interrupt that is still to come.

  Left out: the receive side, and a panic (which no longer turns interrupts off).
-/
import HaiOS.Lib.Count
import HaiOS.Lib.Monitor
import HaiOS.Proc.Table
import Mathlib.Data.UInt

namespace HaiOS.Uarts

open Lib Lib.Monitors Function Procs

/-! ## 1. The driver and the device -/

/-- The depth of the transmit FIFO of a 16550a. -/
abbrev FIFO : Nat := 16

structure Uart where
  /-- `tx_busy` -/
  busy : Bool
  /-- `uart_tx_bytes` -/
  count : UInt64
  fifo : List UInt8
  /-- what the device has sent -/
  line : List UInt8
  /-- the byte of a CPU that has seen LSR_TX_IDLE in `uartputc_sync` and has not written THR -/
  ready : Fin NCPU → Option UInt8
  /-- the interrupt line -/
  raised : Bool
  /-- the handlers that have acknowledged an interrupt and are not through with `tx_lock` -/
  handling : Thread → Bool
  /-- HISTORY: what was written to THR, and by whom if it was `uartwrite` -/
  sent : List (Option Thread × UInt8)
  /-- HISTORY: the buffers of the calls of `uartwrite` that have returned -/
  written : Thread → List UInt8

/-- LSR_TX_IDLE. -/
def Uart.idle (d : Uart) : Bool := d.fifo.isEmpty

/-- `WriteReg(THR, c)`. -/
def Uart.writeTHR (d : Uart) (who : Option Thread) (c : UInt8) : Uart :=
  { d with
    fifo := if d.fifo.length < FIFO then d.fifo ++ [c] else d.fifo
    sent := d.sent ++ [(who, c)] }

/-- After `uartinit`. -/
def uartinit : Uart :=
  ⟨false, 0, [], [], fun _ => none, false, fun _ => false, [], fun _ => []⟩

inductive Pc where
  /-- at the head of the loop of `uartwrite` -/
  | write (buf : List UInt8) (i : Nat)
  /-- in `uartintr`, at the test of LSR_TX_IDLE -/
  | uartintr
  /-- the test was true -/
  | clear
  /-- behind the `wakeup` -/
  | woken

/-- The code of `uartwrite` under `tx_lock`. -/
def uartwrite (t : Thread) (buf : List UInt8) (i : Nat) (d : Uart) : Next Uart Pc :=
  match buf[i]? with
  | none => .leave { d with written := update d.written t (d.written t ++ buf) }
  | some c =>
    if d.busy then .sleep d (.write buf i)
    else
      .goes { d.writeTHR (some t) c with busy := true, count := d.count + 1 } (.write buf (i + 1))

/-- The handler gives up `tx_lock`. -/
def Uart.handled (d : Uart) (t : Thread) : Uart :=
  { d with handling := update d.handling t false }

/-- The code under `tx_lock`. -/
def body (t : Thread) : Pc → Uart → Next Uart Pc
  | .write buf i, d => uartwrite t buf i d
  | .uartintr, d => if d.idle then .goes d .clear else .leave (d.handled t)
  | .clear, d => .signal { d with busy := false } .woken
  | .woken, d => .leave (d.handled t)

/-- Processes write and handlers handle interrupts. -/
inductive May : Thread → Pc → Uart → Prop where
  | write (p : Fin NPROC) (buf : List UInt8) (d : Uart) : May (.inl p) (.write buf 0) d
  | uartintr {k d} (h : d.handling (.inr k) = true) : May (.inr k) .uartintr d

/-- What happens without `tx_lock`: the device sends a byte, input arrives, a CPU takes an interrupt
    (`ReadReg(ISR)`), and a CPU goes through `uartputc_sync`. -/
inductive Env : Uart → Uart → Prop where
  | send {d c l} (h : d.fifo = c :: l) :
      Env d { d with fifo := l, line := d.line ++ [c], raised := d.raised || l.isEmpty }
  | receive (d : Uart) : Env d { d with raised := true }
  | take {d} (k : Fin NCPU) (h : d.raised = true) :
      Env d { d with raised := false, handling := update d.handling (.inr k) true }
  | ready {d k} (c : UInt8) (h : d.idle = true) (hk : d.ready k = none) :
      Env d { d with ready := update d.ready k (some c) }
  | put {d k c} (hk : d.ready k = some c) :
      Env d { d.writeTHR none c with ready := update d.ready k none }

def monitor : Monitor Thread Uart Pc := ⟨slots, body, May, Env⟩

/-- What a step of `uartwrite` can be. -/
theorem write_cases (t : Thread) (buf : List UInt8) (i : Nat) (d : Uart) :
    (buf.length ≤ i ∧ monitor.body t (.write buf i) d =
      .leave { d with written := update d.written t (d.written t ++ buf) }) ∨
    (d.busy = true ∧ monitor.body t (.write buf i) d = .sleep d (.write buf i)) ∨
    (∃ c, buf[i]? = some c ∧ d.busy = false ∧ monitor.body t (.write buf i) d =
      .goes { d.writeTHR (some t) c with busy := true, count := d.count + 1 }
        (.write buf (i + 1))) := by
  dsimp only [monitor, body]
  unfold uartwrite
  cases hc : buf[i]? with
  | none => exact .inl ⟨List.getElem?_eq_none_iff.mp hc, rfl⟩
  | some c =>
    cases hb : d.busy with
    | true => exact .inr (.inl ⟨rfl, rfl⟩)
    | false => exact .inr (.inr ⟨c, rfl, rfl, rfl⟩)

/-- What the test of LSR_TX_IDLE in `uartintr` can lead to. -/
theorem uartintr_cases (t : Thread) (d : Uart) :
    (d.idle = true ∧ monitor.body t .uartintr d = .goes d .clear) ∨
    (d.idle = false ∧ monitor.body t .uartintr d = .leave (d.handled t)) := by
  cases h : d.idle <;> simp [monitor, body, h]

/-! ## 2. The invariant -/

/-- 1 for a CPU that is about to write. -/
def weight (o : Option UInt8) : Nat := if o.isSome then 1 else 0

/-- How many bytes the FIFO has and will get from CPUs that have seen it empty. -/
def load (fifo : List UInt8) (ready : Fin NCPU → Option UInt8) : Nat :=
  fifo.length + total Finset.univ weight ready

/-- An interrupt is to come, or is being handled. -/
def Uart.due (d : Uart) : Prop := d.fifo ≠ [] ∨ d.raised = true ∨ ∃ t, d.handling t = true

/-- What a thread has written to THR. -/
def bytesOf (t : Thread) (l : List (Option Thread × UInt8)) : List UInt8 :=
  (l.filter fun x => x.1 = some t).map Prod.snd

/-- How many bytes `uartwrite` has written to THR. -/
def fromWrite (l : List (Option Thread × UInt8)) : Nat := l.countP fun x => x.1.isSome

structure Inv (d : Uart) : Prop where
  /-- `uartwrite` adds one more byte unless it is busy -/
  room : load d.fifo d.ready + (if d.busy then 0 else 1) ≤ NCPU + 1
  order : d.line ++ d.fifo = d.sent.map Prod.snd
  count : d.count = UInt64.ofNat (fromWrite d.sent)
  due : d.busy = true → d.due

/-- How far a thread is with its bytes. -/
def Writes (t : Thread) (o : Option Pc) (d : Uart) : Prop :=
  match o with
  | some (.write buf i) =>
    t ∈ slots ∧ i ≤ buf.length ∧ bytesOf t d.sent = d.written t ++ buf.take i
  | _ => bytesOf t d.sent = d.written t

/-- What the handler knows that has seen the FIFO empty: one more byte may be let in, and nobody
    has been since. -/
def Seen (d : Uart) : Pc → Prop
  | .clear => load d.fifo d.ready ≤ NCPU
  | .woken => d.busy = false
  | _ => True

/-- Without the lock. -/
def Outside (t : Thread) (o : Option Pc) (d : Uart) : Prop :=
  Writes t o d ∧ o ≠ some .clear ∧ o ≠ some .woken

/-- With the lock. -/
def Inside (t : Thread) (a : Pc) (d : Uart) : Prop := Writes t (some a) d ∧ Seen d a

section

variable {d d' : Uart} {t : Thread} {who : Option Thread} {c : UInt8}

theorem total_ready_le (f : Fin NCPU → Option UInt8) : total Finset.univ weight f ≤ NCPU := by
  have h := Finset.sum_le_card_nsmul Finset.univ (fun k => weight (f k)) 1 fun k _ => by
    unfold weight
    split <;> omega
  simpa [total] using h

/-- **An empty FIFO has room for every CPU.** -/
theorem load_le_of_idle (h : d.idle = true) (f : Fin NCPU → Option UInt8) :
    load d.fifo f ≤ NCPU := by
  rw [load, List.isEmpty_iff.mp h, List.length_nil, Nat.zero_add]
  exact total_ready_le f

/-- The FIFO takes a byte as long as the invariant holds. -/
theorem writeTHR_of_room (h : d.fifo.length ≤ NCPU + 1) :
    d.writeTHR who c = { d with fifo := d.fifo ++ [c], sent := d.sent ++ [(who, c)] } := by
  have hlt : d.fifo.length < FIFO := by simp only [NCPU, FIFO] at *; omega
  rw [Uart.writeTHR, if_pos hlt]

theorem Inv.length_le (h : Inv d) : d.fifo.length ≤ NCPU + 1 := by
  have hroom := h.room
  unfold load at hroom
  omega

theorem bytesOf_append (l : List (Option Thread × UInt8)) :
    bytesOf t (l ++ [(who, c)]) = bytesOf t l ++ if who = some t then [c] else [] := by
  by_cases h : who = some t <;> simp [bytesOf, List.filter_append, h]

theorem order_append {line fifo : List UInt8} {l : List (Option Thread × UInt8)}
    (h : line ++ fifo = l.map Prod.snd) :
    line ++ (fifo ++ [c]) = (l ++ [(who, c)]).map Prod.snd := by
  simp [← h]

/-- `uartwrite` writes a byte to THR. -/
theorem Inv.write (h : Inv d) (hb : d.busy = false) :
    Inv { d.writeTHR (some t) c with busy := true, count := d.count + 1 } := by
  have hroom := h.room
  rw [hb] at hroom
  rw [writeTHR_of_room h.length_le]
  refine ⟨?_, order_append h.order, ?_, fun _ => .inl (by simp)⟩
  · simpa [load, Nat.add_right_comm] using hroom
  · simp [fromWrite, h.count, List.countP_append, UInt64.ofNat_add]

/-- A step without `tx_lock` keeps the invariant, and a handler's room. -/
theorem Inv.env (h : Inv d) (he : Env d d') :
    Inv d' ∧ (load d.fifo d.ready ≤ NCPU → load d'.fifo d'.ready ≤ NCPU) := by
  have hlen := h.length_le
  obtain ⟨hroom, horder, hcount, hdue⟩ := h
  cases he with
  | @send c l hf =>
    have hload : load l d.ready + 1 = load d.fifo d.ready := by
      simp only [load, hf, List.length_cons]
      omega
    refine ⟨⟨?_, by simpa [hf] using horder, hcount, fun hb => ?_⟩, fun hl => ?_⟩
    · dsimp only
      omega
    · -- the FIFO runs empty and the device says so
      rcases l with - | ⟨c', l⟩
      · exact .inr (.inl (by simp))
      · exact .inl (by simp)
    · dsimp only
      omega
  | receive => exact ⟨⟨hroom, horder, hcount, fun _ => .inr (.inl rfl)⟩, id⟩
  | take k => exact ⟨⟨hroom, horder, hcount, fun _ => .inr (.inr ⟨.inr k, update_self ..⟩)⟩, id⟩
  | @ready k c hi hk =>
    have hle := load_le_of_idle hi (update d.ready k (some c))
    refine ⟨⟨?_, horder, hcount, hdue⟩, fun _ => hle⟩
    dsimp only
    split <;> omega
  | @put k c hk =>
    rw [writeTHR_of_room hlen]
    have hone : total Finset.univ weight (update d.ready k none) + 1 =
        total Finset.univ weight d.ready := by
      have ht := total_update weight d.ready (Finset.mem_univ k) none
      rwa [hk] at ht
    have hload : load (d.fifo ++ [c]) (update d.ready k none) = load d.fifo d.ready := by
      simp only [load, List.length_append, List.length_singleton]
      omega
    refine ⟨⟨?_, order_append horder, ?_, fun _ => .inl (by simp)⟩, fun hl => ?_⟩
    · simpa only [hload] using hroom
    · simpa [fromWrite, List.countP_append] using hcount
    · simpa only [hload] using hl

/-- The handler is through: the FIFO is not empty, or it has let the writers go on. -/
theorem Inv.handled (h : Inv d) (hd : d.idle = false ∨ d.busy = false) :
    Inv (d.handled t) := by
  refine ⟨h.room, h.order, h.count, fun hb => ?_⟩
  rcases hd with hi | hb'
  · exact .inl fun hf => by simp [Uart.idle, show d.fifo = [] from hf] at hi
  · rw [show d.busy = true from hb] at hb'
    cases hb'

theorem Writes.congr {o : Option Pc} (h : Writes t o d) (hs : bytesOf t d'.sent = bytesOf t d.sent)
    (hw : d'.written t = d.written t) : Writes t o d' := by
  unfold Writes at h ⊢
  rw [hs, hw]
  exact h

theorem bytesOf_other (hne : who ≠ some t) (l : List (Option Thread × UInt8)) :
    bytesOf t (l ++ [(who, c)]) = bytesOf t l := by
  rw [bytesOf_append, if_neg hne, List.append_nil]

theorem Writes.env {o : Option Pc} (h : Writes t o d) (he : Env d d') : Writes t o d' := by
  cases he with
  | send | receive | take | ready => exact h
  | put => exact h.congr (bytesOf_other (by simp) _) rfl

theorem outline : Outline monitor Inv Outside Inside where
  call {t a d} _ h hm := by
    cases hm with
    | write p buf =>
      exact ⟨⟨mem_slots p, Nat.zero_le _, h.1.trans (List.append_nil _).symm⟩, by simp⟩
    | uartintr => exact ⟨h.1, by simp⟩
  acquire {t a d} _ h := by
    refine ⟨h.1, ?_⟩
    cases a with
    | clear => exact absurd rfl h.2.1
    | woken => exact absurd rfl h.2.2
    | write | uartintr => trivial
  keeps {t a d} hI hC := by
    cases a with
    | write buf i =>
      obtain ⟨-, he⟩ | ⟨-, he⟩ | ⟨c, -, hb, he⟩ := write_cases t buf i d <;> rw [he]
      · exact ⟨hI.room, hI.order, hI.count, hI.due⟩
      · exact hI
      · exact hI.write hb
    | uartintr =>
      obtain ⟨-, he⟩ | ⟨hi, he⟩ := uartintr_cases t d <;> rw [he]
      · exact hI
      · exact hI.handled (.inl hi)
    | clear => exact ⟨Nat.succ_le_succ hC.2, hI.order, hI.count, fun hb => by cases hb⟩
    | woken => exact hI.handled (.inr hC.2)
  next {t a d} hI hC := by
    cases a with
    | write buf i =>
      obtain ⟨⟨hm, hle, hbytes⟩, -⟩ := hC
      obtain ⟨hn, he⟩ | ⟨-, he⟩ | ⟨c, hc, -, he⟩ := write_cases t buf i d <;> rw [he]
      · refine ⟨?_, by simp⟩
        show bytesOf t d.sent = update d.written t (d.written t ++ buf) t
        rw [update_self, hbytes, List.take_of_length_le hn]
      · exact ⟨⟨hm, hle, hbytes⟩, by simp⟩
      · refine ⟨⟨hm, (List.getElem?_eq_some_iff.mp hc).1, ?_⟩, trivial⟩
        show bytesOf t (d.sent ++ [(some t, c)]) = d.written t ++ buf.take (i + 1)
        rw [bytesOf_append, if_pos rfl, hbytes, List.append_assoc, List.take_add_one, hc]
        rfl
    | uartintr =>
      obtain ⟨hi, he⟩ | ⟨-, he⟩ := uartintr_cases t d <;> rw [he]
      · exact ⟨hC.1, load_le_of_idle hi d.ready⟩
      · exact ⟨hC.1, by simp⟩
    | clear => exact ⟨hC.1, rfl⟩
    | woken => exact ⟨hC.1, by simp⟩
  others {t a u o d} hne _ hC hu := by
    refine ⟨?_, hu.2⟩
    cases a with
    | write buf i =>
      obtain ⟨-, he⟩ | ⟨-, he⟩ | ⟨c, -, -, he⟩ := write_cases t buf i d <;> rw [he]
      · exact hu.1.congr rfl (update_of_ne hne ..)
      · exact hu.1
      · exact hu.1.congr (bytesOf_other (fun e => hne (Option.some.inj e).symm) _) rfl
    | uartintr => obtain ⟨-, he⟩ | ⟨-, he⟩ := uartintr_cases t d <;> rw [he] <;> exact hu.1
    | clear | woken => exact hu.1
  env_keeps hI he := (hI.env he).1
  env_out {d d' t o} _ he h := ⟨h.1.env he, h.2⟩
  env_in {d d' t a} hI he h := by
    refine ⟨h.1.env he, ?_⟩
    cases a with
    | clear => exact (hI.env he).2 h.2
    | woken => cases he <;> exact h.2
    | write | uartintr => trivial

theorem inv_uartinit : Inv uartinit where
  room := by decide
  order := rfl
  count := rfl
  due h := by cases h

theorem outside_uartinit (t : Thread) : Outside t none uartinit := ⟨rfl, by simp⟩

end

/-! ## 3. What goes out -/

/-- Process 0 has written a byte, and process 1 is on its way to sleep before it writes one. -/
theorem two_writers : ∃ s, Reached monitor uartinit s ∧ s.holder = none ∧
    (s.place (.inl 0)).pc = none ∧ s.data.written (.inl 0) = [65] ∧ s.data.fifo = [65] ∧
    (s.place (.inl 1)).rests = some (.write [66] 0) := by
  have h0 : Reached monitor uartinit (Sys.start uartinit) := .start rfl
  have h1 := call_first h0 (i := .inl 0) rfl (.write 0 [65] _) rfl
  have h2 := h1.step (.run (i := .inl 0) (a := .write [65] 1) rfl)
  have h3 := call_first h2 (i := .inl 1) rfl (.write 1 [66] _) rfl
  exact ⟨_, h3, rfl, rfl, rfl, rfl, rfl⟩

section

variable {s : Sys Thread Uart Pc}

/-- **No byte is lost, whoever sends it**: in every interleaving of `uartwrite`, `uartputc_sync` and
    `uartintr` on all CPUs, the FIFO holds at most `NCPU + 1` bytes, and what has gone out and what
    it holds are the bytes written to THR, in their order. -/
theorem uart_fifo (hr : Reached monitor uartinit s) :
    s.data.fifo.length ≤ NCPU + 1 ∧
      s.data.line ++ s.data.fifo = s.data.sent.map Prod.snd := by
  have hI := (outline.reach inv_uartinit outside_uartinit hr).data
  exact ⟨hI.length_le, hI.order⟩

theorem uart_fifo_two_writers : ∃ s, Reached monitor uartinit s ∧ s.data.fifo = [65] ∧
    s.data.fifo.length ≤ NCPU + 1 ∧ s.data.line ++ s.data.fifo = s.data.sent.map Prod.snd := by
  obtain ⟨s, hr, -, -, -, hf, -⟩ := two_writers
  exact ⟨s, hr, hf, uart_fifo hr⟩

/-- **Each process's bytes are sent once and in order**: a process has written to THR the buffers
    of its calls of `uartwrite` that have returned, then the first `i` bytes of the one it is in;
    and `uart_tx_bytes` counts these bytes of all processes. -/
theorem uartwrite_order (hr : Reached monitor uartinit s) :
    (∀ t, (s.place t).pc = none → bytesOf t s.data.sent = s.data.written t) ∧
      (∀ t buf i, (s.place t).pc = some (.write buf i) →
        bytesOf t s.data.sent = s.data.written t ++ buf.take i) ∧
      s.data.count = UInt64.ofNat (fromWrite s.data.sent) := by
  have hv := outline.reach inv_uartinit outside_uartinit hr
  have hw {t : Thread} {o : Option Pc} (ho : (s.place t).pc = o) : Writes t o s.data := by
    have h := hv.place t
    rw [← ho]
    cases hp : s.place t <;> rw [hp] at h <;> exact h.1
  exact ⟨fun t ht => hw ht, fun t buf i ht => (hw ht).2.2, hv.data.count⟩

theorem uartwrite_order_two_writers : ∃ s, Reached monitor uartinit s ∧
    (s.place (.inl 0)).pc = none ∧ bytesOf (.inl 0) s.data.sent = [65] ∧
    s.data.count = UInt64.ofNat (fromWrite s.data.sent) := by
  obtain ⟨s, hr, -, h0, hw, -, -⟩ := two_writers
  obtain ⟨hout, -, hcount⟩ := uartwrite_order hr
  exact ⟨s, hr, h0, (hout _ h0).trans hw, hcount⟩

end

/-! ## 4. Wake-ups -/

theorem wakes : Wakes monitor Inv Inside (fun _ d => d.busy = true) where
  sleep {t a d d' a'} _ hC hb := by
    cases a with
    | write buf i =>
      refine ⟨?_, hC.1.1⟩
      obtain ⟨-, he⟩ | ⟨hbusy, he⟩ | ⟨c, -, -, he⟩ := write_cases t buf i d <;> rw [he] at hb <;>
        cases hb
      exact hbusy
    | uartintr => obtain ⟨-, he⟩ | ⟨-, he⟩ := uartintr_cases t d <;> rw [he] at hb <;> cases hb
    | clear | woken => cases hb
  keeps {t a d b} _ hC hs hW := by
    cases a with
    | write buf i =>
      obtain ⟨-, he⟩ | ⟨-, he⟩ | ⟨c, -, -, he⟩ := write_cases t buf i d <;> rw [he] <;>
        first | exact hW | rfl
    | uartintr => obtain ⟨-, he⟩ | ⟨-, he⟩ := uartintr_cases t d <;> rw [he] <;> exact hW
    | clear => exact absurd rfl (hs _ _)
    | woken => exact hW
  env {d d' b} _ he hW := by cases he <;> exact hW

/-- **No transmit interrupt is lost**: when `tx_lock` is free, a process that sleeps in `uartwrite`,
    or is on its way to, sleeps because the driver is busy, and then the FIFO is not empty yet, or
    the interrupt is raised, or a CPU is about to handle it. -/
theorem uartwrite_wakes {s : Sys Thread Uart Pc} (hr : Reached monitor uartinit s)
    (hfree : s.holder = none) {t : Thread} {a : Pc} (ht : (s.place t).rests = some a) :
    s.data.busy = true ∧ s.data.due := by
  have hb := wakes.waits outline inv_uartinit outside_uartinit hr hfree ht
  exact ⟨hb, (outline.reach inv_uartinit outside_uartinit hr).data.due hb⟩

theorem uartwrite_wakes_two_writers : ∃ s, Reached monitor uartinit s ∧ s.holder = none ∧
    (s.place (.inl 1)).rests = some (.write [66] 0) ∧ s.data.busy = true ∧ s.data.due := by
  obtain ⟨s, hr, hfree, -, -, -, h1⟩ := two_writers
  exact ⟨s, hr, hfree, h1, uartwrite_wakes hr hfree h1⟩

end HaiOS.Uarts
