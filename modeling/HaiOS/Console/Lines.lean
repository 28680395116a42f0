/-
  File:      HaiOS/Console/Lines.lean
  Subject:   THE CONSOLE'S LINE DISCIPLINE: `consoleintr` and `consoleread` of kernel/console.c.

  Any processes call `consoleread` and characters come in at any time. The machine steps at lock
  granularity or below: `consoleintr` is one step, and a reader that has `cons.lock` takes one
  step for each character. A sleeping reader may take the lock again at any time, whatever wakes
  it up, and `killed` and `copyout` may answer what they like. The echo is left out.

  * `Disc` -- what the console is for: lines are edited, committed and taken in order;
  * `Abs`, `abs_type`, `abs_take` -- the buffer holds what has been committed and not yet taken,
    and the line that is edited;
  * `console_lines` -- the line discipline.
-/
import HaiOS.Lib.Machine
import HaiOS.Lib.Ring

namespace HaiOS.Console

open Lib Function

/-! ## 1. The input buffer -/

abbrev INPUT_BUF_SIZE : Nat := 128

/-- Control-x. -/
abbrev C (x : Char) : UInt8 := UInt8.ofNat (x.toNat - '@'.toNat)

/-- newline -/
abbrev NL : UInt8 := 10

/-- carriage return -/
abbrev CR : UInt8 := 13

/-- the delete key -/
abbrev DEL : UInt8 := 127

/-- `cons` without its lock. -/
structure Cons where
  /-- `buf[k]` for `k < INPUT_BUF_SIZE` -/
  buf : Nat → UInt8
  /-- Read index -/
  r : UInt32
  /-- Write index -/
  w : UInt32
  /-- Edit index -/
  e : UInt32

namespace Cons

/-- `cons.buf[i % INPUT_BUF_SIZE]`. -/
def charAt (c : Cons) (i : UInt32) : UInt8 := c.buf (i.toNat % INPUT_BUF_SIZE)

/-- `cons.e--`. -/
def erase (c : Cons) : Cons := { c with e := c.e - 1 }

/-- Kill line. -/
def killLoop : Nat → Cons → Cons
  | 0, c => c
  | n + 1, c => if c.e ≠ c.w ∧ c.charAt (c.e - 1) ≠ NL then killLoop n c.erase else c

/-- `cons.buf[cons.e++ % INPUT_BUF_SIZE] = x`. -/
def store (c : Cons) (x : UInt8) : Cons :=
  { c with buf := update c.buf (c.e.toNat % INPUT_BUF_SIZE) x, e := c.e + 1 }

/-- `cons.w = cons.e`. -/
def commit (c : Cons) : Cons := { c with w := c.e }

/-- `cons.r++`. -/
def take (c : Cons) : Cons := { c with r := c.r + 1 }

end Cons

/-- The default case of `consoleintr`, for a character that is stored. -/
def append (c : Cons) (x : UInt8) : Cons :=
  let x := if x = CR then NL else x
  let c := c.store x
  if x = NL ∨ x = C 'D' ∨ c.e - c.r = UInt32.ofNat INPUT_BUF_SIZE then c.commit else c

/-- The console input interrupt handler. The loop of kill line ends at `cons.w`, after
    `cons.e - cons.w` turns at most. -/
def consoleintr (x : UInt8) (c : Cons) : Cons :=
  if x = C 'P' then c
  else if x = C 'U' then c.killLoop (c.e - c.w).toNat
  else if x = C 'H' ∨ x = DEL then if c.e ≠ c.w then c.erase else c
  else if x ≠ 0 ∧ c.e - c.r < UInt32.ofNat INPUT_BUF_SIZE then append c x
  else c

/-! ## 2. The machine -/

/-- Where a reader stands. -/
inductive Pc where
  /-- in no call; what the last one returned -/
  | out (r : Option Int)
  /-- at `acquire(&cons.lock)` -/
  | enter (n : Int)
  /-- at the head of the loop, with the lock -/
  | loop (target n : Int)
  /-- in `sleep(&cons.r, &cons.lock)` -/
  | asleep (target n : Int)
  deriving DecidableEq

/-- The console, the holder of its lock, and its readers. -/
structure Sys (ι : Type) where
  cons : Cons
  lock : Option ι
  pc : ι → Pc

/-- What happens. -/
inductive Event (ι : Type) where
  /-- a character comes in -/
  | typed (x : UInt8)
  /-- a call of `consoleread` -/
  | call (i : ι) (n : Int)
  | acquire (i : ι)
  /-- `n` bytes have been read -/
  | done (i : ι)
  | killed (i : ι)
  | sleep (i : ι)
  /-- `sleep` returns -/
  | again (i : ι)
  /-- a character is copied to the reader -/
  | copied (i : ι) (x : UInt8)
  /-- a character is taken and `copyout` fails -/
  | fault (i : ι) (x : UInt8)
  /-- a reader without input takes ^D -/
  | eof (i : ι)
  /-- a reader with input meets ^D and leaves it for the next one -/
  | cut (i : ι)

section Machine

variable {ι : Type} [DecidableEq ι]

def Sys.goto (s : Sys ι) (i : ι) (pc : Pc) : Sys ι := { s with pc := update s.pc i pc }

/-- `release(&cons.lock); return r`. -/
def Sys.ret (s : Sys ι) (i : ι) (r : Int) : Sys ι := { s.goto i (.out (some r)) with lock := none }

/-- After a character has been copied. -/
def Sys.go (s : Sys ι) (i : ι) (target n : Int) (x : UInt8) : Sys ι :=
  if x = NL then s.ret i (target - n) else s.goto i (.loop target n)

/-- **The steps of the machine.** -/
inductive Step : Sys ι → Event ι → Sys ι → Prop where
  | typed {s : Sys ι} (x : UInt8) (hlock : s.lock = none) :
      Step s (.typed x) { s with cons := consoleintr x s.cons }
  | call {s : Sys ι} (i : ι) (n : Int) (r : Option Int) (hpc : s.pc i = .out r) :
      Step s (.call i n) (s.goto i (.enter n))
  | acquire {s : Sys ι} (i : ι) (n : Int) (hpc : s.pc i = .enter n) (hlock : s.lock = none) :
      Step s (.acquire i) { s.goto i (.loop n n) with lock := some i }
  | done {s : Sys ι} (i : ι) (target n : Int) (hpc : s.pc i = .loop target n) (hn : n ≤ 0) :
      Step s (.done i) (s.ret i (target - n))
  | killed {s : Sys ι} (i : ι) (target n : Int) (hpc : s.pc i = .loop target n) (hn : 0 < n)
      (hempty : s.cons.r = s.cons.w) : Step s (.killed i) (s.ret i (-1))
  | sleep {s : Sys ι} (i : ι) (target n : Int) (hpc : s.pc i = .loop target n) (hn : 0 < n)
      (hempty : s.cons.r = s.cons.w) :
      Step s (.sleep i) { s.goto i (.asleep target n) with lock := none }
  | again {s : Sys ι} (i : ι) (target n : Int) (hpc : s.pc i = .asleep target n)
      (hlock : s.lock = none) : Step s (.again i) { s.goto i (.loop target n) with lock := some i }
  | copied {s : Sys ι} (i : ι) (target n : Int) (hpc : s.pc i = .loop target n) (hn : 0 < n)
      (hmore : s.cons.r ≠ s.cons.w) (hx : s.cons.charAt s.cons.r ≠ C 'D') :
      Step s (.copied i (s.cons.charAt s.cons.r))
        (Sys.go { s with cons := s.cons.take } i target (n - 1) (s.cons.charAt s.cons.r))
  | fault {s : Sys ι} (i : ι) (target n : Int) (hpc : s.pc i = .loop target n) (hn : 0 < n)
      (hmore : s.cons.r ≠ s.cons.w) (hx : s.cons.charAt s.cons.r ≠ C 'D') :
      Step s (.fault i (s.cons.charAt s.cons.r))
        (Sys.ret { s with cons := s.cons.take } i (target - n))
  | eof {s : Sys ι} (i : ι) (target n : Int) (hpc : s.pc i = .loop target n) (hn : 0 < n)
      (hmore : s.cons.r ≠ s.cons.w) (hx : s.cons.charAt s.cons.r = C 'D') (hall : ¬ n < target) :
      Step s (.eof i) (Sys.ret { s with cons := s.cons.take } i (target - n))
  | cut {s : Sys ι} (i : ι) (target n : Int) (hpc : s.pc i = .loop target n) (hn : 0 < n)
      (hmore : s.cons.r ≠ s.cons.w) (hx : s.cons.charAt s.cons.r = C 'D') (hsome : n < target) :
      Step s (.cut i) (Sys.ret { s with cons := { s.cons.take with r := s.cons.take.r - 1 } } i
        (target - n))

/-- Nobody has typed and nobody reads. -/
def Initial (s : Sys ι) : Prop :=
  s.cons.r = 0 ∧ s.cons.w = 0 ∧ s.cons.e = 0 ∧ s.lock = none ∧ ∀ i, s.pc i = .out none

end Machine

/-! ## 3. What the console is for -/

/-- **The abstract console**: all characters committed so far, the line that is being edited, and
    the characters that readers have taken. -/
structure Disc where
  committed : List UInt8
  line : List UInt8
  taken : List UInt8
  deriving DecidableEq

namespace Disc

/-- There is no room for another character. -/
def full (a : Disc) : Prop := a.taken.length + INPUT_BUF_SIZE ≤ a.committed.length + a.line.length

instance (a : Disc) : Decidable a.full := inferInstanceAs (Decidable (_ ≤ _))

/-- The line is committed if it ends or the buffer is full. -/
def settle (a : Disc) (x : UInt8) : Disc :=
  if x = NL ∨ x = C 'D' ∨ a.full then ⟨a.committed ++ a.line, [], a.taken⟩ else a

/-- A character comes in. -/
def type (a : Disc) (x : UInt8) : Disc :=
  if x = C 'P' then a
  else if x = C 'U' then { a with line := [] }
  else if x = C 'H' ∨ x = DEL then { a with line := a.line.dropLast }
  else if x = 0 ∨ a.full then a
  else
    let x := if x = CR then NL else x
    settle { a with line := a.line ++ [x] } x

end Disc

/-- The character an event takes. -/
def Event.char {ι : Type} : Event ι → Option UInt8
  | .copied _ x | .fault _ x => some x
  | .eof _ => some (C 'D')
  | _ => none

def Disc.next {ι : Type} (a : Disc) : Event ι → Disc
  | .typed x => a.type x
  | e => { a with taken := a.taken ++ e.char.toList }

/-- The abstract console after the events `l`. -/
def disc {ι : Type} (l : List (Event ι)) : Disc := l.foldl Disc.next ⟨[], [], []⟩

/-! ## 4. The buffer holds the abstract console -/

/-- **The buffer holds what is committed and not taken, and the line.** -/
structure Held (c : Cons) (a : Disc) : Prop where
  ring : Ring INPUT_BUF_SIZE c.buf (a.committed ++ a.line) a.taken.length
  r : c.r.toNat = a.taken.length % 2 ^ 32
  w : c.w.toNat = a.committed.length % 2 ^ 32
  e : c.e.toNat = (a.committed.length + a.line.length) % 2 ^ 32
  inOrder : a.taken <+: a.committed

/-- The same, and the line has no newline. -/
structure Abs (c : Cons) (a : Disc) : Prop extends Held c a where
  plain : NL ∉ a.line

namespace Held

variable {c : Cons} {a : Disc} {x : UInt8}

variable (h : Held c a)
include h

theorem le : a.taken.length ≤ a.committed.length := h.inOrder.length_le

theorem room : a.committed.length + a.line.length ≤ a.taken.length + INPUT_BUF_SIZE := by
  have := h.ring.room
  rwa [List.length_append] at this

theorem lt_range : a.committed.length + a.line.length < a.taken.length + 2 ^ 32 := by
  have hroom := h.room
  have hsize : INPUT_BUF_SIZE < 2 ^ 32 := by decide
  omega

theorem sub_wr : (c.w - c.r).toNat = a.committed.length - a.taken.length :=
  counter_sub h.r h.w h.le (by have := h.lt_range; omega)

theorem sub_er : (c.e - c.r).toNat = a.committed.length + a.line.length - a.taken.length :=
  counter_sub h.r h.e (by have := h.le; omega) h.lt_range

theorem sub_ew : (c.e - c.w).toNat = a.line.length := by
  have hle := h.le
  have hlt := h.lt_range
  rw [counter_sub h.w h.e (by omega) (by omega)]
  omega

theorem empty_iff : c.r = c.w ↔ a.taken.length = a.committed.length := by
  have hlt := h.lt_range
  rw [eq_comm, eq_comm (a := a.taken.length)]
  simpa using counter_eq_iff h.r h.w h.le (by omega) 0 (by decide)

theorem line_iff : c.e = c.w ↔ a.line = [] := by
  have hle := h.le
  have hlt := h.lt_range
  have hiff := counter_eq_iff h.w h.e (by omega) (by omega) 0 (by decide)
  rw [show UInt32.ofNat 0 = 0 from rfl, UInt32.add_zero] at hiff
  rw [hiff, ← List.length_eq_zero_iff]
  omega

theorem charAt_r {k : Nat} (hk : (a.committed ++ a.line)[a.taken.length + k]? = some x) :
    c.charAt (c.r + UInt32.ofNat k) = x := by
  unfold Cons.charAt
  rw [counter_mod (counter_add h.r k) (by decide)]
  exact h.ring.held _ _ (by omega) hk

theorem charAt_w {k : Nat} (hk : a.line[k]? = some x) : c.charAt (c.w + UInt32.ofNat k) = x := by
  unfold Cons.charAt
  rw [counter_mod (counter_add h.w k) (by decide)]
  refine h.ring.held _ _ (by have := h.le; omega) ?_
  rw [List.getElem?_append_right (by omega), Nat.add_sub_cancel_left]
  exact hk

end Held

section Input

variable {c : Cons} {a : Disc} {committed line taken : List UInt8} {x : UInt8}

/-- The last character of the line is erased. -/
theorem Held.erase (h : Held c ⟨committed, line ++ [x], taken⟩) :
    Held c.erase ⟨committed, line, taken⟩ ∧ c.charAt (c.e - 1) = x := by
  have hle : taken.length ≤ committed.length := h.le
  have he : (c.e - 1).toNat = (committed.length + line.length) % 2 ^ 32 := by
    refine counter_pred ?_
    rw [h.e, List.length_append, List.length_singleton]
    rfl
  have hring := h.ring
  dsimp only at hring
  rw [← List.append_assoc] at hring
  refine ⟨⟨hring.unput ?_, h.r, h.w, he, h.inOrder⟩, ?_⟩
  · rw [List.length_append]
    omega
  · unfold Cons.charAt
    rw [counter_mod he (by decide)]
    refine hring.held _ _ (by omega) ?_
    rw [← List.length_append, List.getElem?_concat_length]

/-- Kill line erases the line. -/
theorem abs_killLoop (h : Abs c a) {n : Nat} (hn : a.line.length = n) :
    Abs (c.killLoop n) { a with line := [] } := by
  induction n generalizing c a with
  | zero =>
    have hnil : a.line = [] := List.length_eq_zero_iff.mp hn
    rw [← hnil]
    exact h
  | succ n ih =>
    obtain ⟨committed, line, taken⟩ := a
    obtain ⟨l, y, rfl⟩ : ∃ l y, line = l ++ [y] :=
      ⟨_, _, (List.dropLast_append_getLast (List.ne_nil_of_length_eq_add_one hn)).symm⟩
    obtain ⟨he, hc⟩ := h.toHeld.erase
    have hplain := h.plain
    simp only [List.mem_append, List.mem_singleton, not_or] at hplain
    have hne : c.e ≠ c.w := fun e => by simpa using h.line_iff.mp e
    rw [Cons.killLoop, if_pos ⟨hne, by rw [hc]; exact Ne.symm hplain.2⟩]
    refine ih (a := ⟨committed, l, taken⟩) ⟨he, hplain.1⟩ ?_
    simpa using hn

/-- A character is stored. -/
theorem Held.store (h : Held c a) (hroom : ¬ a.full) (x : UInt8) :
    Held (c.store x) { a with line := a.line ++ [x] } := by
  have hlt : (a.committed ++ a.line).length < a.taken.length + INPUT_BUF_SIZE := by
    rw [List.length_append]
    exact Nat.not_le.mp hroom
  have hput := h.ring.put hlt x
  rw [List.length_append, ← counter_mod h.e (by decide), List.append_assoc] at hput
  refine ⟨hput, h.r, h.w, ?_, h.inOrder⟩
  show (c.e + 1).toNat = _
  rw [counter_succ h.e, List.length_append, List.length_singleton]
  rfl

theorem Held.commit (h : Held c a) : Held c.commit ⟨a.committed ++ a.line, [], a.taken⟩ := by
  refine ⟨?_, h.r, ?_, ?_, h.inOrder.trans (List.prefix_append _ _)⟩
  · dsimp only
    rw [List.append_nil]
    exact h.ring
  · show c.e.toNat = _
    rw [h.e, List.length_append]
  · show c.e.toNat = _
    rw [h.e, List.length_append]
    rfl

theorem Held.full_iff (h : Held c a) : c.e - c.r = UInt32.ofNat INPUT_BUF_SIZE ↔ a.full := by
  have hroom := h.room
  rw [← UInt32.toNat_inj, h.sub_er]
  unfold Disc.full
  show _ = 128 ↔ _
  simp only [INPUT_BUF_SIZE] at *
  omega

theorem Held.room_iff (h : Held c a) : c.e - c.r < UInt32.ofNat INPUT_BUF_SIZE ↔ ¬ a.full := by
  rw [UInt32.lt_iff_toNat_lt, h.sub_er]
  unfold Disc.full
  show _ < 128 ↔ _
  simp only [INPUT_BUF_SIZE] at *
  omega

theorem abs_append (h : Abs c a) (hroom : ¬ a.full) (x : UInt8) :
    Abs (append c x) (Disc.settle { a with line := a.line ++ [if x = CR then NL else x] }
      (if x = CR then NL else x)) := by
  unfold append Disc.settle
  generalize (if x = CR then NL else x) = y
  have hs := h.store hroom y
  simp only [hs.full_iff]
  split
  · exact ⟨hs.commit, List.not_mem_nil⟩
  · rename_i hno
    refine ⟨hs, ?_⟩
    rw [List.mem_append, List.mem_singleton, not_or]
    exact ⟨h.plain, fun e => hno (Or.inl e.symm)⟩

/-- **A character comes in.** -/
theorem abs_type (h : Abs c a) (x : UInt8) : Abs (consoleintr x c) (a.type x) := by
  unfold consoleintr Disc.type
  split
  · exact h
  split
  · exact abs_killLoop h h.sub_ew.symm
  split
  · -- backspace
    obtain ⟨committed, line, taken⟩ := a
    rcases List.eq_nil_or_concat line with rfl | ⟨l, y, rfl⟩
    · rw [if_neg (not_not.mpr (h.line_iff.mpr rfl))]
      exact h
    · rw [List.concat_eq_append] at h ⊢
      rw [if_pos fun e => by simpa using h.line_iff.mp e]
      have hplain := h.plain
      simp only [List.mem_append, not_or] at hplain
      simp only [List.dropLast_concat]
      exact ⟨h.toHeld.erase.1, hplain.1⟩
  · have hiff : (x ≠ 0 ∧ c.e - c.r < UInt32.ofNat INPUT_BUF_SIZE) ↔ ¬ (x = 0 ∨ a.full) := by
      rw [h.room_iff, not_or]
    by_cases hx : x = 0 ∨ a.full
    · rw [if_pos hx, if_neg fun hn => hiff.mp hn hx]
      exact h
    · rw [if_neg hx, if_pos (hiff.mpr hx)]
      exact abs_append h (not_or.mp hx).2 x

/-- **A character is taken**: the oldest one that is committed. -/
theorem abs_take (h : Abs c a) (hmore : c.r ≠ c.w) :
    a.committed[a.taken.length]? = some (c.charAt c.r) ∧
    Abs c.take { a with taken := a.taken ++ [c.charAt c.r] } := by
  have hlt : a.taken.length < a.committed.length := by
    have := h.le
    have := mt h.empty_iff.mpr hmore
    omega
  have hnext : a.committed[a.taken.length]? = some (c.charAt c.r) := by
    have h1 := h.ring.next (by rw [List.length_append]; omega)
    rw [List.getElem?_append_left hlt] at h1
    unfold Cons.charAt
    rw [h1, counter_mod h.r (by decide)]
  refine ⟨hnext, ⟨?_, ?_, h.w, h.e, ?_⟩, h.plain⟩
  · rw [List.length_append, List.length_singleton]
    exact h.ring.take (by rw [List.length_append]; omega)
  · rw [List.length_append, List.length_singleton]
    exact counter_succ h.r
  · obtain ⟨rest, hrest⟩ := h.inOrder
    rw [← hrest, List.getElem?_append_right (Nat.le_refl _), Nat.sub_self] at hnext
    cases rest with
    | nil => cases hnext
    | cons y rest =>
      obtain rfl : y = c.charAt c.r := by simpa using hnext
      exact ⟨rest, by rw [List.append_assoc]; exact hrest⟩

end Input

/-! ## 5. Runs -/

section Runs

variable {ι : Type} [DecidableEq ι] {s s' : Sys ι} {l : List (Event ι)} {e : Event ι}

/-- The bytes that the present or last call of reader `i` has received. -/
def received (l : List (Event ι)) (i : ι) : Nat := l.foldl (fun k e => match e with
  | .call j _ => if j = i then 0 else k
  | .copied j _ => if j = i then k + 1 else k
  | _ => k) 0

/-- What the place of a reader says about the bytes it has received. -/
def Pc.counted (pc : Pc) (k : Nat) : Prop :=
  match pc with
  | .out _ => True
  | .enter _ => k = 0
  | .loop target n | .asleep target n => target - n = k

/-- The invariant, with the events so far. -/
structure Inv (l : List (Event ι)) (s : Sys ι) : Prop where
  abs : Abs s.cons (disc l)
  counted : ∀ i, (s.pc i).counted (received l i)
  markers : ∀ i x, .copied i x ∈ l ∨ .fault i x ∈ l → x ≠ C 'D'

omit [DecidableEq ι] in
theorem disc_snoc (l : List (Event ι)) (e : Event ι) : disc (l ++ [e]) = (disc l).next e := by
  unfold disc
  rw [List.foldl_append]
  rfl

@[simp] theorem go_cons (s : Sys ι) (i : ι) (target n : Int) (x : UInt8) :
    (s.go i target n x).cons = s.cons := by
  unfold Sys.go
  split <;> rfl

/-- The ^D that a reader with input meets stays where it is. -/
theorem untake (c : Cons) : { c.take with r := c.take.r - 1 } = c := by
  simp [Cons.take]

theorem abs_step (h : Abs s.cons (disc l)) (hs : Step s e s') : Abs s'.cons (disc (l ++ [e])) := by
  have hsame : ∀ {a : Disc}, Abs s.cons a → Abs s.cons { a with taken := a.taken ++ [] } := by
    intro a ha
    rw [List.append_nil]
    exact ha
  rw [disc_snoc]
  cases hs with
  | typed x => exact abs_type h x
  | copied i target n hpc hn hmore hx =>
    rw [go_cons]
    exact (abs_take h hmore).2
  | fault i target n hpc hn hmore hx => exact (abs_take h hmore).2
  | eof i target n hpc hn hmore hx =>
    have ht := (abs_take h hmore).2
    rw [hx] at ht
    exact ht
  | cut i target n hpc hn hmore hx =>
    rw [untake]
    exact hsame h
  | _ => exact hsame h

theorem received_snoc (l : List (Event ι)) (e : Event ι) (i : ι) : received (l ++ [e]) i =
    match e with
    | .call j _ => if j = i then 0 else received l i
    | .copied j _ => if j = i then received l i + 1 else received l i
    | _ => received l i := by
  unfold received
  rw [List.foldl_append]
  rfl

/-- The reader `i` moves to `pc`. -/
theorem counted_goto {j : ι} {pc : Pc} {k : ι → Nat} (h : ∀ i, (s.pc i).counted (received l i))
    (hpc : s'.pc = update s.pc j pc) (hk : ∀ i, i ≠ j → k i = received l i)
    (hj : pc.counted (k j)) : ∀ i, (s'.pc i).counted (k i) := by
  intro i
  rw [hpc]
  by_cases hi : i = j
  · subst hi
    rw [update_self]
    exact hj
  · rw [update_of_ne hi, hk i hi]
    exact h i

theorem counted_step (h : ∀ i, (s.pc i).counted (received l i)) (hs : Step s e s') :
    ∀ i, (s'.pc i).counted (received (l ++ [e]) i) := by
  simp only [received_snoc]
  cases hs with
  | typed x => exact h
  | call j n r hpc =>
    refine counted_goto h rfl (fun i hi => if_neg (Ne.symm hi)) ?_
    exact if_pos rfl
  | copied j target n hpc hn hmore hx =>
    have hj := h j
    rw [hpc] at hj
    have hnew : target - (n - 1) = ((received l j + 1 : Nat) : Int) := by
      have hj' : target - n = received l j := hj
      omega
    unfold Sys.go
    split
    · exact counted_goto h rfl (fun i hi => if_neg (Ne.symm hi)) trivial
    · refine counted_goto h rfl (fun i hi => if_neg (Ne.symm hi)) ?_
      show target - (n - 1) = ((if j = j then received l j + 1 else received l j : Nat) : Int)
      rw [if_pos rfl]
      exact hnew
  | acquire j n hpc hlock =>
    refine counted_goto h rfl (fun _ _ => rfl) ?_
    have hj := h j
    rw [hpc] at hj
    have hj' : received l j = 0 := hj
    show n - n = (received l j : Int)
    omega
  | sleep j target n hpc hn hempty =>
    refine counted_goto h rfl (fun _ _ => rfl) ?_
    have hj := h j
    rw [hpc] at hj
    exact hj
  | again j target n hpc hlock =>
    refine counted_goto h rfl (fun _ _ => rfl) ?_
    have hj := h j
    rw [hpc] at hj
    exact hj
  | _ => exact counted_goto h rfl (fun _ _ => rfl) trivial

theorem inv_step (h : Inv l s) (hs : Step s e s') : Inv (l ++ [e]) s' := by
  refine ⟨abs_step h.abs hs, counted_step h.counted hs, fun i x hx => ?_⟩
  simp only [List.mem_append, List.mem_singleton] at hx
  by_cases hl : .copied i x ∈ l ∨ .fault i x ∈ l
  · exact h.markers i x hl
  · have he : e = .copied i x ∨ e = .fault i x := by
      rcases hx with (hx | rfl) | (hx | rfl)
      · exact absurd (Or.inl hx) hl
      · exact Or.inl rfl
      · exact absurd (Or.inr hx) hl
      · exact Or.inr rfl
    rcases he with rfl | rfl
    · cases hs
      assumption
    · cases hs
      assumption

theorem inv_run {s0 : Sys ι} (h0 : Initial s0) (hrun : Trace Step s0 l s) : Inv l s := by
  induction hrun with
  | nil =>
    obtain ⟨hr, hw, he, -, hpc⟩ := h0
    refine ⟨⟨⟨Ring.empty _, ?_, ?_, ?_, List.nil_prefix⟩, List.not_mem_nil⟩, fun i => ?_, ?_⟩
    · rw [hr]
      rfl
    · rw [hw]
      rfl
    · rw [he]
      rfl
    · rw [hpc]
      trivial
    · intro i x hx
      simp at hx
  | snoc _ hs ih => exact inv_step ih hs

theorem settle_grows (a : Disc) (x : UInt8) :
    a.committed <+: (a.settle x).committed ∧ (a.settle x).taken = a.taken := by
  unfold Disc.settle
  split
  · exact ⟨List.prefix_append _ _, rfl⟩
  · exact ⟨List.prefix_refl _, rfl⟩

/-- Committed characters stay committed, and input takes none. -/
theorem type_grows (a : Disc) (x : UInt8) :
    a.committed <+: (a.type x).committed ∧ (a.type x).taken = a.taken := by
  unfold Disc.type
  split
  · exact ⟨List.prefix_refl _, rfl⟩
  split
  · exact ⟨List.prefix_refl _, rfl⟩
  split
  · exact ⟨List.prefix_refl _, rfl⟩
  split
  · exact ⟨List.prefix_refl _, rfl⟩
  · exact settle_grows { a with line := a.line ++ [if x = CR then NL else x] } _

omit [DecidableEq ι] in
/-- **What an event does to the abstract console**: it takes its character, and committed
    characters stay committed. -/
theorem next_grows (a : Disc) (e : Event ι) :
    (a.next e).taken = a.taken ++ e.char.toList ∧ a.committed <+: (a.next e).committed := by
  cases e with
  | typed x =>
    obtain ⟨h1, h2⟩ := type_grows a x
    exact ⟨h2.trans (List.append_nil _).symm, h1⟩
  | _ => exact ⟨rfl, List.prefix_refl _⟩

omit [DecidableEq ι] in
/-- The characters taken are those of the events. -/
theorem disc_taken (l : List (Event ι)) : (disc l).taken = l.filterMap Event.char := by
  have hgen : ∀ (l : List (Event ι)) (a : Disc),
      (l.foldl Disc.next a).taken = a.taken ++ l.filterMap Event.char := by
    intro l
    induction l with
    | nil => exact fun a => (List.append_nil _).symm
    | cons e l ih =>
      intro a
      rw [List.foldl_cons, ih, (next_grows a e).1, List.append_assoc, List.filterMap_cons]
      cases e.char <;> rfl
  rw [disc, hgen]
  rfl

/-- The characters between the read and the write index. -/
def window (c : Cons) : List UInt8 :=
  (List.range (c.w - c.r).toNat).map fun k => c.charAt (c.r + UInt32.ofNat k)

/-- **What is committed has been taken or is in the buffer.** -/
theorem Abs.window_eq {c : Cons} {a : Disc} (h : Abs c a) : a.taken ++ window c = a.committed := by
  obtain ⟨rest, hrest⟩ := h.inOrder
  rw [← hrest]
  congr 1
  have hlen : (c.w - c.r).toNat = rest.length := by
    rw [h.sub_wr, ← hrest, List.length_append]
    omega
  apply List.ext_getElem
  · rw [Console.window, List.length_map, List.length_range, hlen]
  · intro k h1 h2
    simp only [Console.window, List.getElem_map, List.getElem_range]
    refine h.charAt_r ?_
    rw [← hrest, List.append_assoc, List.getElem?_append_right (by omega), Nat.add_sub_cancel_left,
      List.getElem?_append_left h2, List.getElem?_eq_getElem h2]

/-- Later input leaves the characters between the read and the write index. -/
theorem window_type {c : Cons} {a : Disc} (h : Abs c a) (x : UInt8) :
    (consoleintr x c).r = c.r ∧ window c <+: window (consoleintr x c) := by
  have h' := abs_type h x
  obtain ⟨hp, htaken⟩ := type_grows a x
  constructor
  · rw [← UInt32.toNat_inj, h'.r, h.r, htaken]
  · rw [← h.window_eq, ← h'.window_eq, htaken] at hp
    exact (List.prefix_append_right_inj _).mp hp

omit [DecidableEq ι] in
/-- After a reader has left a ^D, the oldest character that is not taken is that ^D. -/
theorem marker_stays (l2 : List (Event ι)) {a : Disc}
    (h : a.committed[a.taken.length]? = some (C 'D')) (hl : ∀ e ∈ l2, e.char = none) :
    (l2.foldl Disc.next a).committed[(l2.foldl Disc.next a).taken.length]? = some (C 'D') := by
  induction l2 generalizing a with
  | nil => exact h
  | cons e l2 ih =>
    obtain ⟨htaken, rest, hrest⟩ := next_grows a e
    rw [hl e List.mem_cons_self, Option.toList_none, List.append_nil] at htaken
    refine ih ?_ fun e' he' => hl e' (List.mem_cons_of_mem _ he')
    rw [htaken, ← hrest, List.getElem?_append_left (List.getElem?_eq_some_iff.mp h).1]
    exact h

/-- **What has been shown of the console** after the events `l`. -/
structure Disciplined (l : List (Event ι)) (s : Sys ι) : Prop where
  /-- the indices, modulo 2^32 -/
  order : s.cons.w - s.cons.r ≤ s.cons.e - s.cons.r
  bound : s.cons.e - s.cons.r ≤ UInt32.ofNat INPUT_BUF_SIZE
  /-- no newline between the write and the edit index -/
  plain : ∀ k < (s.cons.e - s.cons.w).toNat, s.cons.charAt (s.cons.w + UInt32.ofNat k) ≠ NL
  /-- later input leaves the characters between the read and the write index -/
  stays : ∀ x s', Step s (.typed x) s' → s'.cons.r = s.cons.r ∧ window s.cons <+: window s'.cons
  /-- every committed character is taken once, in order, or waits in the buffer -/
  delivered : l.filterMap Event.char ++ window s.cons = (disc l).committed
  /-- no reader gets a ^D -/
  markers : ∀ i x, .copied i x ∈ l ∨ .fault i x ∈ l → x ≠ C 'D'
  /-- a ^D ends a read that has received nothing -/
  eof : ∀ i s', Step s (.eof i) s' → received l i = 0 ∧ s'.pc i = .out (some 0)
  /-- a read that has received something leaves the ^D where it is -/
  cut : ∀ i s', Step s (.cut i) s' → 0 < received l i ∧
    s'.pc i = .out (some (received l i)) ∧ s'.cons = s.cons
  /-- for the first read that takes a character after it -/
  next : ∀ l1 i l2 e, l = l1 ++ .cut i :: (l2 ++ [e]) → (∀ e' ∈ l2, e'.char = none) →
    e.char ≠ none → ∃ j, e = .eof j

/-- After a reader has left a ^D, the first one that takes a character takes it. -/
theorem first_after_cut {s0 : Sys ι} (h0 : Initial s0) {l1 l2 : List (Event ι)} {i : ι}
    (hrun : Trace Step s0 (l1 ++ .cut i :: (l2 ++ [e])) s) (hl : ∀ e' ∈ l2, e'.char = none)
    (he : e.char ≠ none) : ∃ j, e = .eof j := by
  have hlist : l1 ++ .cut i :: (l2 ++ [e]) = (l1 ++ [.cut i] ++ l2) ++ [e] := by simp
  rw [hlist] at hrun
  obtain ⟨s2, hrun2, hlast⟩ := hrun.last
  obtain ⟨s1', hrun1', -⟩ := hrun2.split
  obtain ⟨s1, hrun1, hcut⟩ := hrun1'.last
  -- the ^D that was left is the oldest character
  have hfront : (disc l1).committed[(disc l1).taken.length]? = some (C 'D') := by
    cases hcut with
    | cut _ target n hpc hn hmore hx =>
      rw [(abs_take (inv_run h0 hrun1).abs hmore).1, hx]
  have hstill := marker_stays (.cut i :: l2) hfront (by
    intro e' he'
    rcases List.mem_cons.mp he' with rfl | he'
    · rfl
    · exact hl e' he')
  rw [show (Event.cut i :: l2).foldl Disc.next (disc l1) = disc (l1 ++ [.cut i] ++ l2) by
    simp [disc, List.foldl_append]] at hstill
  have h2 := (inv_run h0 hrun2).abs
  cases hlast with
  | eof j => exact ⟨j, rfl⟩
  | copied j target n hpc hn hmore hx =>
    rw [(abs_take h2 hmore).1] at hstill
    exact absurd (Option.some.inj hstill) hx
  | fault j target n hpc hn hmore hx =>
    rw [(abs_take h2 hmore).1] at hstill
    exact absurd (Option.some.inj hstill) hx
  | _ => exact absurd rfl he

/-- **The line discipline.** Let characters come in and readers call, sleep and take characters in
    any order, any number of them. Then in every state that is reached: `w - r <= e - r <=
    INPUT_BUF_SIZE`; no newline is between `w` and `e`; later input changes no character between
    `r` and `w`; the characters that readers have taken, followed by those between `r` and `w`,
    are the committed ones; ^D is never copied, it ends one read that has received nothing, and a
    read that has received something leaves it to the first one that takes a character next. -/
theorem console_lines {s0 : Sys ι} (h0 : Initial s0) (hrun : Trace Step s0 l s) :
    Disciplined l s := by
  have h := inv_run h0 hrun
  have hwr := h.abs.sub_wr
  have her := h.abs.sub_er
  have hroom := h.abs.room
  constructor
  · rw [UInt32.le_iff_toNat_le, hwr, her]
    omega
  · rw [UInt32.le_iff_toNat_le, her]
    show _ ≤ 128
    simp only [INPUT_BUF_SIZE] at hroom
    omega
  · intro k hk hx
    rw [h.abs.sub_ew] at hk
    rw [h.abs.charAt_w (List.getElem?_eq_getElem hk)] at hx
    exact h.abs.plain (by rw [← hx]; exact List.getElem_mem hk)
  · intro x s' hs
    cases hs
    exact window_type h.abs x
  · rw [← disc_taken]
    exact h.abs.window_eq
  · exact h.markers
  · intro i s' hs
    cases hs with
    | eof _ target n hpc hn hmore hx hall =>
      have hc := h.counted i
      rw [hpc] at hc
      have hc' : target - n = received l i := hc
      have hz : target - n = 0 := by omega
      refine ⟨by omega, ?_⟩
      show update _ _ _ _ = _
      rw [update_self, hz]
  · intro i s' hs
    cases hs with
    | cut _ target n hpc hn hmore hx hsome =>
      have hc := h.counted i
      rw [hpc] at hc
      have hc' : target - n = received l i := hc
      refine ⟨by omega, ?_, untake _⟩
      show update _ _ _ _ = _
      rw [update_self, hc']
  · rintro l1 i l2 e rfl hl he
    exact first_after_cut h0 hrun hl he

/-- A run of one reader: "a", ^D, a read that gets the "a" and leaves the ^D, and a read that
    takes it. -/
theorem console_lines_eof : ∃ (s0 s : Sys Unit) (l : List (Event Unit)), Initial s0 ∧
    Trace Step s0 l s ∧ Disciplined l s ∧ (disc l).committed = [97, C 'D'] ∧
    s.pc () = .out (some 0) := by
  have hstart : Trace Step (⟨⟨fun _ => 0, 0, 0, 0⟩, none, fun _ => .out none⟩ : Sys Unit) [] _ :=
    .nil _
  have hrun := hstart
    |>.snoc (.typed 97 rfl) |>.snoc (.typed (C 'D') rfl)
    |>.snoc (.call () 5 none rfl) |>.snoc (.acquire () 5 rfl rfl)
    |>.snoc (.copied () 5 5 rfl (by decide) (by decide) (by decide))
    |>.snoc (.cut () 5 4 rfl (by decide) (by decide) (by decide) (by decide))
    |>.snoc (.call () 5 (some 1) rfl) |>.snoc (.acquire () 5 rfl rfl)
    |>.snoc (.eof () 5 5 rfl (by decide) (by decide) (by decide) (by decide))
  have h0 : Initial (⟨⟨fun _ => 0, 0, 0, 0⟩, none, fun _ => .out none⟩ : Sys Unit) :=
    ⟨rfl, rfl, rfl, rfl, fun _ => rfl⟩
  exact ⟨_, _, _, h0, hrun, console_lines h0 hrun, by decide, rfl⟩

end Runs

end HaiOS.Console
