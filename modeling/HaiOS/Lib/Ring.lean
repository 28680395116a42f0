/-
  File:      HaiOS/Lib/Ring.lean
  Subject:   A RING BUFFER WITH FREE-RUNNING COUNTERS. The history of what was put in, how much of
             it was taken out, and the cells that hold what is in between. Names nothing of the
             kernel.

  * `Ring size cell hist done` -- the cells hold `hist[done ..]`, at most `size` items of it;
  * `bits_*` -- counters of `w` bits that wrap: their difference, their equality and their residue
    tell the true ones; `counter_*` for `UInt32`.
-/
import Mathlib.Data.List.Basic
import Mathlib.Logic.Function.Basic
import Mathlib.Data.Nat.ModEq

namespace HaiOS.Lib

open Function

variable {α : Type} {size : Nat} {cell : Nat → α} {hist : List α} {done : Nat}

/-- **The cells hold what was put in and not yet taken out.** -/
structure Ring (size : Nat) (cell : Nat → α) (hist : List α) (done : Nat) : Prop where
  le : done ≤ hist.length
  room : hist.length ≤ done + size
  held : ∀ k x, done ≤ k → hist[k]? = some x → cell (k % size) = x

theorem Ring.empty (cell : Nat → α) : Ring size cell [] 0 where
  le := Nat.le_refl 0
  room := Nat.zero_le _
  held := fun _ _ _ h => by cases h

/-- **One item in**: the cell it goes to holds none of the items in between. -/
theorem Ring.put (h : Ring size cell hist done) (hroom : hist.length < done + size) (x : α) :
    Ring size (update cell (hist.length % size) x) (hist ++ [x]) done where
  le := by
    have := h.le
    rw [List.length_append, List.length_singleton]
    omega
  room := by
    rw [List.length_append, List.length_singleton]
    omega
  held := by
    intro k y hk hy
    by_cases he : k = hist.length
    · subst he
      rw [List.getElem?_concat_length, Option.some.injEq] at hy
      rw [update_self, hy]
    · have hlt : k < hist.length := by
        have := (List.getElem?_eq_some_iff.mp hy).1
        rw [List.length_append, List.length_singleton] at this
        omega
      rw [List.getElem?_append_left hlt] at hy
      -- the two positions are less than `size` apart, so their cells differ
      have hne : k % size ≠ hist.length % size := by
        intro e
        have hdvd : size ∣ hist.length - k := (Nat.modEq_iff_dvd' hlt.le).mp e
        have := Nat.le_of_dvd (by omega) hdvd
        omega
      rw [update_of_ne hne]
      exact h.held k y hk hy

/-- **One item out.** -/
theorem Ring.take (h : Ring size cell hist done) (hlt : done < hist.length) :
    Ring size cell hist (done + 1) where
  le := hlt
  room := by
    have := h.room
    omega
  held := fun k x hk hx => h.held k x (by omega) hx

/-- The youngest item is taken back. -/
theorem Ring.unput {x : α} (h : Ring size cell (hist ++ [x]) done) (hle : done ≤ hist.length) :
    Ring size cell hist done where
  le := hle
  room := by
    have := h.room
    rw [List.length_append] at this
    omega
  held := fun k y hk hy => h.held k y hk (by
    rw [List.getElem?_append_left (List.getElem?_eq_some_iff.mp hy).1]
    exact hy)

/-- The next item out is the oldest one that is still in. -/
theorem Ring.next (h : Ring size cell hist done) (hlt : done < hist.length) :
    hist[done]? = some (cell (done % size)) := by
  rw [List.getElem?_eq_getElem hlt, h.held done _ (Nat.le_refl _) (List.getElem?_eq_getElem hlt)]

/-! ## Counters that wrap -/

section Bits

variable {w : Nat} {c d : BitVec w} {m n : Nat}

variable (hc : c.toNat = m % 2 ^ w)
include hc

/-- A counter of `w` bits after `k` more. -/
theorem bits_add (k : Nat) : (c + BitVec.ofNat w k).toNat = (m + k) % 2 ^ w := by
  rw [BitVec.toNat_add, hc, BitVec.toNat_ofNat, ← Nat.add_mod]

theorem bits_succ : (c + 1).toNat = (m + 1) % 2 ^ w :=
  bits_add hc 1

/-- The difference of two counters is the true one, whichever of them has wrapped. -/
theorem bits_sub (hd : d.toNat = n % 2 ^ w) (hle : m ≤ n)
    (hlt : n < m + 2 ^ w) : (d - c).toNat = n - m := by
  have he : c + BitVec.ofNat w (n - m) = d := by
    apply BitVec.eq_of_toNat_eq
    rw [bits_add hc, hd, Nat.add_sub_cancel' hle]
  rw [← he, BitVec.add_comm, BitVec.add_sub_cancel, BitVec.toNat_ofNat,
    Nat.mod_eq_of_lt (by omega)]

/-- Two counters less than the range apart, `k` from one to the other. -/
theorem bits_eq_iff (hd : d.toNat = n % 2 ^ w) (hle : m ≤ n)
    (hlt : n < m + 2 ^ w) (k : Nat) (hk : k < 2 ^ w) : d = c + BitVec.ofNat w k ↔ n = m + k := by
  constructor
  · intro e
    have hsub := bits_sub hc hd hle hlt
    rw [e, BitVec.add_comm, BitVec.add_sub_cancel, BitVec.toNat_ofNat, Nat.mod_eq_of_lt hk] at hsub
    omega
  · intro e
    apply BitVec.eq_of_toNat_eq
    rw [bits_add hc, hd, e]

/-- The residue of a counter is that of the true one, for a divisor of the range. -/
theorem bits_mod (hs : size ∣ 2 ^ w) : c.toNat % size = m % size := by
  rw [hc, Nat.mod_mod_of_dvd m hs]

end Bits

section Counter

variable {c d : UInt32} {m n : Nat}

theorem counter_succ (hc : c.toNat = m % 2 ^ 32) : (c + 1).toNat = (m + 1) % 2 ^ 32 :=
  bits_succ hc

theorem counter_pred (hc : c.toNat = (m + 1) % 2 ^ 32) : (c - 1).toNat = m % 2 ^ 32 := by
  rw [UInt32.toNat_sub, hc, UInt32.toNat_one]
  omega

variable (hc : c.toNat = m % 2 ^ 32)
include hc

theorem counter_add (k : Nat) : (c + UInt32.ofNat k).toNat = (m + k) % 2 ^ 32 :=
  bits_add hc k

theorem counter_sub (hd : d.toNat = n % 2 ^ 32) (hle : m ≤ n)
    (hlt : n < m + 2 ^ 32) : (d - c).toNat = n - m :=
  bits_sub hc hd hle hlt

theorem counter_mod (hs : size ∣ 2 ^ 32) : c.toNat % size = m % size :=
  bits_mod hc hs

theorem counter_eq_iff (hd : d.toNat = n % 2 ^ 32) (hle : m ≤ n)
    (hlt : n < m + 2 ^ 32) (k : Nat) (hk : k < 2 ^ 32) : d = c + UInt32.ofNat k ↔ n = m + k :=
  UInt32.toBitVec_inj.symm.trans (bits_eq_iff hc hd hle hlt k hk)

end Counter

end HaiOS.Lib
