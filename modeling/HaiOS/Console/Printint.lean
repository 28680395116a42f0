/-
  File:      HaiOS/Console/Printint.lean
  Subject:   PRINTING INTEGERS: `printint` of kernel/printf.c and of user/printf.c.

  The digits of the number are stored in `char buf[20]`, lowest digit first, and sent off from
  the last one stored to the first. A store at an index that `buf` does not have is `none`. A
  `long long` is 64 bits in two's complement, and its negation is the machine's.

  * `putDigits_eq` -- the loop stores the digits of `x`, and no more of them than `x` has;
  * `Numeral` -- what is a numeral of an integer: the sign, the digits without leading zeros, and
    that reading them back gives the integer;
  * `printint_exact` -- both functions send the numeral of their argument, for every argument.
-/
import Mathlib.Data.Nat.Digits.Lemmas
import Mathlib.Logic.Function.Basic

namespace HaiOS.Printf

open Function

/-! ## 1. The routines -/

/-- `char buf[20]`. -/
abbrev Buf : Type := Nat → Char

/-- `buf[i] = c`. -/
def store (buf : Buf) (i : Nat) (c : Char) : Option Buf :=
  if i < 20 then some (update buf i c) else none

/-- `do { buf[i++] = digits[x % base]; } while((x /= base) != 0)`, at most `turns` times round. -/
def putDigits (digits : List Char) (base : UInt64) :
    Nat → Buf → Nat → UInt64 → Option (Buf × Nat)
  | 0, _, _, _ => none
  | turns + 1, buf, i, x => do
    let buf ← store buf i (digits.getD (x % base).toNat ' ')
    if x / base = 0 then some (buf, i + 1)
    else putDigits digits base turns buf (i + 1) (x / base)

/-- `while(--i >= 0) putc(buf[i])`: the characters that are sent. -/
def sent (buf : Buf) : Nat → List Char
  | 0 => []
  | i + 1 => buf i :: sent buf i

/-- The body the two functions share, once `x` and the sign are known. Each turn of the loop
    stores a character, so a run that stays inside `buf` has at most 20. -/
def body (digits : List Char) (buf : Buf) (base x : UInt64) (neg : Bool) : Option (List Char) := do
  let (buf, i) ← putDigits digits base 20 buf 0 x
  if neg then do
    let buf ← store buf i '-'
    some (sent buf (i + 1))
  else some (sent buf i)

namespace Kernel

def digits : List Char := "0123456789abcdef".toList

/-- `printint` of kernel/printf.c: the characters it sends to `consputc`. -/
def printint (buf : Buf) (xx : Int64) (base : UInt64) (sign : Bool) : Option (List Char) :=
  -- the assignment to `sign` in the condition happens only when `sign` was set
  let sign := sign && decide (xx < 0)
  let x := if sign then (-xx).toUInt64 else xx.toUInt64
  body digits buf base x sign

end Kernel

namespace User

def digits : List Char := "0123456789ABCDEF".toList

/-- `printint` of user/printf.c: the characters it sends to `putc`. -/
def printint (buf : Buf) (xx : Int64) (base : UInt64) (sgn : Bool) : Option (List Char) :=
  let (neg, x) := if sgn && decide (xx < 0) then (true, (-xx).toUInt64) else (false, xx.toUInt64)
  body digits buf base x neg

end User

/-! ## 2. The loop -/

/-- The digits of `n`, lowest first, and at least one. -/
def lowFirst (base n : Nat) : List Nat := if n = 0 then [0] else Nat.digits base n

section Loop

variable {base n : Nat}

theorem lowFirst_eq (hb : 1 < base) (n : Nat) :
    lowFirst base n = n % base :: if n / base = 0 then [] else lowFirst base (n / base) := by
  unfold lowFirst
  by_cases h0 : n = 0
  · simp [h0]
  · rw [if_neg h0, Nat.digits_def' hb (Nat.pos_of_ne_zero h0)]
    split
    · rename_i hq
      rw [hq, Nat.digits_zero]
    · rfl

theorem lowFirst_ne_nil (hb : 1 < base) : lowFirst base n ≠ [] := by
  rw [lowFirst_eq hb]
  exact List.cons_ne_nil _ _

theorem lowFirst_lt (hb : 1 < base) {d : Nat} (hd : d ∈ lowFirst base n) : d < base := by
  unfold lowFirst at hd
  split at hd
  · rw [List.mem_singleton.mp hd]
    omega
  · exact Nat.digits_lt_base hb hd

theorem length_lowFirst {k : Nat} (hb : 1 < base) (hk : 0 < k) (hn : n < base ^ k) :
    (lowFirst base n).length ≤ k := by
  unfold lowFirst
  split
  · exact hk
  · exact (Nat.digits_length_le_iff hb n).mpr hn

/-- The highest digit is 0 only for the number 0. -/
theorem lowFirst_getLast (h : (lowFirst base n).getLast? = some 0) :
    lowFirst base n = [0] := by
  by_cases h0 : n = 0
  · rw [lowFirst, if_pos h0]
  · rw [lowFirst, if_neg h0] at h
    have hne : Nat.digits base n ≠ [] := Nat.digits_ne_nil_iff_ne_zero.mpr h0
    rw [List.getLast?_eq_some_getLast hne, Option.some.injEq] at h
    exact absurd h (Nat.getLast_digit_ne_zero base h0)

/-- What was stored is sent in the opposite order. -/
theorem sent_update (buf : Buf) (i : Nat) (c : Char) :
    sent (update buf i c) (i + 1) = c :: sent buf i := by
  have hbelow : ∀ k ≤ i, sent (update buf i c) k = sent buf k := by
    intro k hk
    induction k with
    | zero => rfl
    | succ k ih =>
      show update buf i c k :: _ = buf k :: _
      rw [update_of_ne (by omega), ih (by omega)]
  show update buf i c i :: _ = _
  rw [update_self, hbelow i le_rfl]

/-- **The loop stores the digits of `x`** in front of what is sent already, and moves `i` on by
    their number. -/
theorem putDigits_eq (digits : List Char) {b x : UInt64} (hb : 1 < b.toNat) {turns i : Nat}
    (buf : Buf) (hturns : (lowFirst b.toNat x.toNat).length ≤ turns)
    (hfit : i + (lowFirst b.toNat x.toNat).length ≤ 20) :
    ∃ buf', putDigits digits b turns buf i x =
        some (buf', i + (lowFirst b.toNat x.toNat).length) ∧
      sent buf' (i + (lowFirst b.toNat x.toNat).length) =
        (lowFirst b.toNat x.toNat).reverse.map (digits.getD · ' ') ++ sent buf i := by
  -- the induction is on the turns; each one takes the lowest digit off `x`
  induction turns generalizing buf i x with
  | zero =>
    have := List.length_pos_of_ne_nil (lowFirst_ne_nil (n := x.toNat) hb)
    omega
  | succ turns ih =>
    have hlow := lowFirst_eq hb x.toNat
    have hmod : (x % b).toNat = x.toNat % b.toNat := UInt64.toNat_mod x b
    have hdiv : (x / b).toNat = x.toNat / b.toNat := UInt64.toNat_div x b
    have hzero : x / b = 0 ↔ x.toNat / b.toNat = 0 := by
      rw [← hdiv, ← UInt64.toNat_inj]
      rfl
    rw [hlow, List.length_cons] at hturns hfit
    have hstore : ∀ c, store buf i c = some (update buf i c) := fun c =>
      if_pos (by omega)
    simp only [putDigits, hstore, hmod, Option.bind_eq_bind, Option.bind_some]
    by_cases hq : x.toNat / b.toNat = 0
    · rw [if_pos (hzero.mpr hq), hlow, if_pos hq]
      exact ⟨_, rfl, sent_update ..⟩
    · rw [if_neg hq, ← hdiv] at hturns hfit
      obtain ⟨buf', hrun, hsent⟩ := ih (x := x / b) (i := i + 1)
        (update buf i (digits.getD (x.toNat % b.toNat) ' ')) (by omega) (by omega)
      rw [if_neg (mt hzero.mp hq), hlow, if_neg hq, List.length_cons, ← hdiv]
      have hi : i + ((lowFirst b.toNat (x / b).toNat).length + 1) =
          i + 1 + (lowFirst b.toNat (x / b).toNat).length := by omega
      refine ⟨buf', by rw [hi]; exact hrun, ?_⟩
      rw [hi, hsent, sent_update, List.reverse_cons, List.map_append, List.append_assoc]
      rfl

end Loop

/-! ## 3. Numerals -/

/-- The value of a row of digits, highest first. -/
def value (digits : List Char) (base : Nat) (ds : List Char) : Nat :=
  ds.foldl (fun n c => n * base + digits.idxOf c) 0

/-- Read an integer: a minus sign, then digits. -/
def readInt (digits : List Char) (base : Nat) : List Char → Int
  | '-' :: ds => -(value digits base ds : Int)
  | ds => value digits base ds

/-- **The numeral of `v`** in the first `base` of the `digits`: a minus sign exactly when `v` is
    negative, then at least one digit and no leading zero, and it reads back as `v`. -/
structure Numeral (digits : List Char) (base : Nat) (v : Int) (out : List Char) : Prop where
  shape : ∃ ds, out = (if v < 0 then ['-'] else []) ++ ds ∧ ds ≠ [] ∧
    (∀ c ∈ ds, c ∈ digits.take base) ∧ (ds.head? = some '0' → ds = ['0'])
  sign : out.head? = some '-' ↔ v < 0
  reads : readInt digits base out = v

/-- A table of digits: different characters, the first one `0`, none of them the minus sign. -/
structure Table (digits : List Char) : Prop where
  length : digits.length = 16
  nodup : digits.Nodup
  zero : digits.getD 0 ' ' = '0'
  minus : '-' ∉ digits

theorem Kernel.table : Table Kernel.digits := ⟨by decide, by decide, by decide, by decide⟩

theorem User.table : Table User.digits := ⟨by decide, by decide, by decide, by decide⟩

section Numerals

variable {digits : List Char} {base n : Nat}

theorem Table.getD_eq (h : Table digits) {d : Nat} (hd : d < 16) :
    ∃ hlt : d < digits.length, digits.getD d ' ' = digits[d] := by
  have hlt : d < digits.length := by rw [h.length]; exact hd
  exact ⟨hlt, by rw [List.getD_eq_getElem?_getD, List.getElem?_eq_getElem hlt, Option.getD_some]⟩

theorem Table.idxOf_getD (h : Table digits) {d : Nat} (hd : d < 16) :
    digits.idxOf (digits.getD d ' ') = d := by
  obtain ⟨hlt, he⟩ := h.getD_eq hd
  rw [he]
  exact h.nodup.idxOf_getElem d hlt

theorem Table.getD_mem_take (h : Table digits) {d : Nat} (hd : d < base) (hb : base ≤ 16) :
    digits.getD d ' ' ∈ digits.take base := by
  obtain ⟨hlt, he⟩ := h.getD_eq (d := d) (by omega)
  rw [he, List.mem_take_iff_getElem]
  exact ⟨d, by omega, rfl⟩

/-- Digits in the order of sending have the value of the number. -/
theorem Table.value_reverse (h : Table digits) {l : List Nat} (hl : ∀ d ∈ l, d < 16) :
    value digits base (l.reverse.map (digits.getD · ' ')) = Nat.ofDigits base l := by
  induction l with
  | nil => rfl
  | cons d l ih =>
    have hd : d < 16 := hl d List.mem_cons_self
    have ih := ih fun e he => hl e (List.mem_cons_of_mem _ he)
    unfold value at ih ⊢
    rw [List.reverse_cons, List.map_append, List.foldl_append, ih]
    simp only [List.map_cons, List.map_nil, List.foldl_cons, List.foldl_nil,
      Nat.ofDigits_cons]
    rw [h.idxOf_getD hd]
    ring

theorem ofDigits_lowFirst (base n : Nat) : Nat.ofDigits base (lowFirst base n) = n := by
  unfold lowFirst
  split
  · rename_i h0
    simp [h0]
  · exact Nat.ofDigits_digits base n

/-- The digits of `n`, after a minus sign when `v` is negative, are the numeral of `v`. -/
theorem Table.numeral (h : Table digits) (hb : 1 < base) (hb16 : base ≤ 16) {v : Int}
    (hv : v.natAbs = n) :
    Numeral digits base v ((if v < 0 then ['-'] else []) ++
      (lowFirst base n).reverse.map (digits.getD · ' ')) := by
  have hlt : ∀ d ∈ lowFirst base n, d < 16 := fun d hd =>
    Nat.lt_of_lt_of_le (lowFirst_lt hb hd) hb16
  have hval : value digits base ((lowFirst base n).reverse.map (digits.getD · ' ')) = n := by
    rw [h.value_reverse hlt, ofDigits_lowFirst]
  generalize hds : (lowFirst base n).reverse.map (digits.getD · ' ') = ds at hval ⊢
  have hmem : ∀ c ∈ ds, c ∈ digits.take base := by
    rintro c hc
    rw [← hds, List.mem_map] at hc
    obtain ⟨d, hd, rfl⟩ := hc
    exact h.getD_mem_take (lowFirst_lt hb (List.mem_reverse.mp hd)) hb16
  have hminus : ds.head? ≠ some '-' := fun hc =>
    h.minus (List.mem_of_mem_take (hmem _ (List.mem_of_mem_head? hc)))
  have hne : ds ≠ [] := by
    rw [← hds]
    simpa using lowFirst_ne_nil hb
  refine ⟨⟨ds, rfl, hne, hmem, fun hhead => ?_⟩, ?_, ?_⟩
  · -- the first character stands for the highest digit
    rw [← hds, List.head?_map, List.head?_reverse, Option.map_eq_some_iff] at hhead
    obtain ⟨d, hlast, hd⟩ := hhead
    have hdlt := hlt d (List.mem_of_mem_getLast? hlast)
    have hd0 : d = 0 := by
      rw [← h.idxOf_getD hdlt, hd, ← h.zero, h.idxOf_getD (by decide)]
    rw [hd0] at hlast
    rw [← hds, lowFirst_getLast hlast]
    exact congrArg (· :: []) h.zero
  · split
    · simp [*]
    · simp [*]
  · split
    · rename_i hneg
      show -(value digits base ds : Int) = v
      omega
    · rename_i hpos
      have hread : readInt digits base ds = value digits base ds := by
        unfold readInt
        split
        · simp at hminus
        · rfl
      rw [List.nil_append, hread]
      omega

end Numerals

/-! ## 4. Both functions -/

/-- The numbers of digits that fit: with a sign 19, without it 20. -/
theorem length_lowFirst_fits {b x : UInt64} {neg : Bool} (hb : b = 10 ∨ b = 16)
    (hx : neg = true → x.toNat ≤ 2 ^ 63) :
    (lowFirst b.toNat x.toNat).length + (if neg then 1 else 0) ≤ 20 := by
  have hlt : x.toNat < 2 ^ 64 := x.toNat_lt
  rcases hb with rfl | rfl
  · show (lowFirst 10 x.toNat).length + _ ≤ 20
    cases neg with
    | true =>
      have := hx rfl
      have := length_lowFirst (show 1 < 10 by decide) (show 0 < 19 by decide)
        (show x.toNat < 10 ^ 19 by omega)
      rw [if_pos rfl]
      omega
    | false =>
      have := length_lowFirst (show 1 < 10 by decide) (show 0 < 20 by decide)
        (show x.toNat < 10 ^ 20 by omega)
      rw [if_neg Bool.false_ne_true]
      omega
  · show (lowFirst 16 x.toNat).length + _ ≤ 20
    have := length_lowFirst (show 1 < 16 by decide) (show 0 < 16 by decide)
      (show x.toNat < 16 ^ 16 by omega)
    split <;> omega

/-- **The body sends the sign and the digits of `x`**, and stores them inside `buf`. -/
theorem body_eq (digits : List Char) (buf : Buf) {b x : UInt64} {neg : Bool}
    (hb : b = 10 ∨ b = 16) (hx : neg = true → x.toNat ≤ 2 ^ 63) :
    body digits buf b x neg = some ((if neg then ['-'] else []) ++
      (lowFirst b.toNat x.toNat).reverse.map (digits.getD · ' ')) := by
  have hb1 : 1 < b.toNat := by rcases hb with rfl | rfl <;> decide
  have hfit := length_lowFirst_fits hb hx
  obtain ⟨buf', hrun, hsent⟩ := putDigits_eq digits hb1 buf
    (show (lowFirst b.toNat x.toNat).length ≤ 20 by omega)
    (show 0 + (lowFirst b.toNat x.toNat).length ≤ 20 by omega)
  rw [Nat.zero_add] at hrun hsent
  simp only [body, hrun, Option.bind_eq_bind, Option.bind_some]
  cases neg with
  | true =>
    have hstore : store buf' (lowFirst b.toNat x.toNat).length '-' =
        some (update buf' (lowFirst b.toNat x.toNat).length '-') :=
      if_pos (by simp at hfit; omega)
    simp only [hstore, Option.bind_some, sent_update, hsent]
    simp [sent]
  | false => simp [hsent, sent]

/-- The value of the argument: as a signed or as an unsigned number. -/
def argument (xx : Int64) (sign : Bool) : Int := if sign then xx.toInt else xx.toUInt64.toNat

/-- The negation of a negative number is its magnitude, also for the most negative one. -/
theorem toNat_neg {xx : Int64} (h : xx < 0) : (-xx).toUInt64.toNat = xx.toInt.natAbs := by
  have hneg : xx.toInt < 0 := by
    have := Int64.lt_iff_toInt_lt.mp h
    simpa using this
  show (-xx.toBitVec).toNat = xx.toBitVec.toInt.natAbs
  have hneg : xx.toBitVec.toInt < 0 := hneg
  have := xx.toBitVec.isLt
  rw [BitVec.toInt_eq_toNat_cond] at hneg ⊢
  rw [BitVec.toNat_neg]
  split at hneg <;> omega

theorem toNat_pos {xx : Int64} (h : ¬ xx < 0) : (xx.toUInt64.toNat : Int) = xx.toInt := by
  have hpos : ¬ xx.toInt < 0 := fun hlt => h (Int64.lt_iff_toInt_lt.mpr (by simpa using hlt))
  show (xx.toBitVec.toNat : Int) = xx.toBitVec.toInt
  have hpos : ¬ xx.toBitVec.toInt < 0 := hpos
  have := xx.toBitVec.isLt
  rw [BitVec.toInt_eq_toNat_cond] at hpos ⊢
  split at hpos <;> omega

/-- What both functions hand to their common body is the sign and the magnitude. -/
theorem body_numeral {digits : List Char} (ht : Table digits) (buf : Buf) (xx : Int64)
    {base : UInt64} (hb : base = 10 ∨ base = 16) (sign : Bool) :
    ∃ out, body digits buf base
        (if sign && decide (xx < 0) then (-xx).toUInt64 else xx.toUInt64)
        (sign && decide (xx < 0)) = some out ∧
      Numeral digits base.toNat (argument xx sign) out := by
  have hb1 : 1 < base.toNat ∧ base.toNat ≤ 16 := by rcases hb with rfl | rfl <;> decide
  cases hneg : sign && decide (xx < 0) with
  | true =>
    rw [Bool.and_eq_true, decide_eq_true_eq] at hneg
    have harg : argument xx sign = xx.toInt := if_pos hneg.1
    have hlt : xx.toInt < 0 := by simpa using Int64.lt_iff_toInt_lt.mp hneg.2
    have hmag := toNat_neg hneg.2
    have hge : -2 ^ 63 ≤ xx.toInt := xx.le_toInt
    refine ⟨_, body_eq digits buf hb fun _ => ?_, ?_⟩
    · rw [if_pos rfl, hmag]
      omega
    · have hnum := ht.numeral hb1.1 hb1.2 (v := argument xx sign) (n := (-xx).toUInt64.toNat)
        (by rw [harg, hmag])
      rw [harg, if_pos hlt] at hnum
      rw [harg]
      exact hnum
  | false =>
    have hpos : argument xx sign = xx.toUInt64.toNat := by
      unfold argument
      split
      · rename_i hs
        rw [hs, Bool.true_and, decide_eq_false_iff_not] at hneg
        exact (toNat_pos hneg).symm
      · rfl
    refine ⟨_, body_eq digits buf hb fun h => absurd h Bool.false_ne_true, ?_⟩
    have hnum := ht.numeral hb1.1 hb1.2 (v := argument xx sign) (n := xx.toUInt64.toNat)
      (by rw [hpos]; rfl)
    rw [if_neg (by omega)] at hnum
    exact hnum

/-- **Integer printing is exact and in bounds.** For every 64-bit argument, base 10 or 16 and
    signedness, and whatever `buf` holds before, both functions send the numeral of the argument;
    no store is outside `buf`. -/
theorem printint_exact (buf : Buf) (xx : Int64) {base : UInt64} (hb : base = 10 ∨ base = 16)
    (sign : Bool) :
    (∃ out, Kernel.printint buf xx base sign = some out ∧
      Numeral Kernel.digits base.toNat (argument xx sign) out) ∧
    ∃ out, User.printint buf xx base sign = some out ∧
      Numeral User.digits base.toNat (argument xx sign) out := by
  refine ⟨body_numeral Kernel.table buf xx hb sign, ?_⟩
  obtain ⟨out, hrun, hnum⟩ := body_numeral User.table buf xx hb sign
  refine ⟨out, ?_, hnum⟩
  rw [← hrun, User.printint]
  cases sign && decide (xx < 0) <;> rfl

/-- The most negative number, in base 10 and signed. -/
theorem printint_exact_min :
    (∃ out, Kernel.printint (fun _ => ' ') (-9223372036854775808) 10 true = some out ∧
      Numeral Kernel.digits 10 (-9223372036854775808) out) ∧
    ∃ out, User.printint (fun _ => ' ') (-9223372036854775808) 10 true = some out ∧
      Numeral User.digits 10 (-9223372036854775808) out :=
  printint_exact (fun _ => ' ') (-9223372036854775808) (Or.inl rfl) true

example : Kernel.printint (fun _ => ' ') (-9223372036854775808) 10 true =
    some "-9223372036854775808".toList := by decide +kernel

end HaiOS.Printf
