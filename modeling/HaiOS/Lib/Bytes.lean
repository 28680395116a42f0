/-
  File:      HaiOS/Lib/Bytes.lean
  Subject:   BYTES BY ADDRESS. Reading and writing runs of bytes, little-endian numbers and
             single bits in a byte-addressed store. Names nothing of the kernel.

  * `slice`, `patch` -- read `n` bytes at an address, write a list of bytes at an address;
    `slice_patch_self`, `slice_patch_disjoint`, `slice_patch_within` say what a read sees of
    a write;
  * `le`, `ofLE`, `getLE`, `putLE` -- numbers of `w` bytes, lowest byte first;
  * `getBit`, `setBit`, `clearBit` -- bit `i` of a bitmap is bit `i % 8` of byte `i / 8`.
-/
import Mathlib.Data.Nat.Basic
import Mathlib.Algebra.Group.Nat.Defs
import Mathlib.Data.List.Basic

namespace HaiOS.Lib

/-- A store of bytes by address. -/
abbrev Store : Type := Nat → UInt8

/-! ## 1. Runs of bytes -/

/-- The `n` bytes at address `a`. -/
def slice (m : Store) (a n : Nat) : List UInt8 := (List.range n).map fun k => m (a + k)

/-- Write the bytes `bs` at address `a`. -/
def patch (m : Store) (a : Nat) (bs : List UInt8) : Store := fun x =>
  if a ≤ x ∧ x < a + bs.length then bs.getD (x - a) 0 else m x

@[simp] theorem length_slice (m : Store) (a n : Nat) : (slice m a n).length = n := by
  simp [slice]

@[simp] theorem getElem_slice (m : Store) (a n k : Nat) (h : k < (slice m a n).length) :
    (slice m a n)[k] = m (a + k) := by
  simp [slice]

@[simp] theorem slice_zero (m : Store) (a : Nat) : slice m a 0 = [] := rfl

variable {a n x b off k w v : Nat}

theorem slice_congr {m m' : Store} (h : ∀ k < n, m (a + k) = m' (a + k)) :
    slice m a n = slice m' a n := by
  exact List.map_congr_left fun k hk => h k (List.mem_range.mp hk)

theorem slice_add (m : Store) (a n k : Nat) :
    slice m a (n + k) = slice m a n ++ slice m (a + n) k := by
  apply List.ext_getElem
  · simp
  · intro i h1 h2
    rw [getElem_slice, List.getElem_append]
    split
    · rw [getElem_slice]
    · rename_i hi
      rw [length_slice] at hi
      rw [getElem_slice, length_slice]
      congr 1
      omega

theorem slice_take (m : Store) (a n k : Nat) (h : k ≤ n) : (slice m a n).take k = slice m a k := by
  obtain ⟨j, rfl⟩ := Nat.exists_eq_add_of_le h
  rw [slice_add]
  exact List.take_left' (length_slice m a k)

theorem slice_drop (m : Store) (a n k : Nat) (h : k ≤ n) :
    (slice m a n).drop k = slice m (a + k) (n - k) := by
  obtain ⟨j, rfl⟩ := Nat.exists_eq_add_of_le h
  rw [slice_add, Nat.add_sub_cancel_left]
  exact List.drop_left' (length_slice m a k)

variable {m : Store} {bs l : List UInt8}

theorem patch_in (h1 : a ≤ x) (h2 : x - a < bs.length) :
    patch m a bs x = bs[x - a] := by
  unfold patch
  rw [if_pos ⟨h1, by omega⟩]
  simp [h2]

theorem patch_out (h : x < a ∨ a + bs.length ≤ x) :
    patch m a bs x = m x := by
  unfold patch
  rw [if_neg (by omega)]

@[simp] theorem patch_nil (m : Store) (a : Nat) : patch m a [] = m := by
  funext x
  exact patch_out (by simp; omega)

/-- Writing one run after the other is writing them together. -/
theorem patch_append (m : Store) (a : Nat) (xs ys : List UInt8) :
    patch (patch m a xs) (a + xs.length) ys = patch m a (xs ++ ys) := by
  funext x
  by_cases h1 : x < a
  · rw [patch_out (Or.inl (by omega)), patch_out (Or.inl h1), patch_out (Or.inl h1)]
  · by_cases h2 : x < a + xs.length
    · rw [patch_out (Or.inl h2), patch_in (by omega) (by omega),
        patch_in (by omega) (by rw [List.length_append]; omega), List.getElem_append_left]
    · by_cases h3 : x < a + xs.length + ys.length
      · rw [patch_in (by omega) (by omega), patch_in (by omega) (by rw [List.length_append]; omega),
          List.getElem_append_right (by omega)]
        congr 1
        omega
      · rw [patch_out (Or.inr (by omega)), patch_out (Or.inr (by omega)),
          patch_out (Or.inr (by rw [List.length_append]; omega))]

/-- A read inside a write sees the bytes written. -/
theorem slice_patch_within (m : Store) (a o n : Nat) (bs : List UInt8) (h : o + n ≤ bs.length) :
    slice (patch m a bs) (a + o) n = (bs.drop o).take n := by
  apply List.ext_getElem
  · simp
    omega
  · intro i h1 h2
    rw [length_slice] at h1
    rw [getElem_slice, patch_in (by omega) (by omega), List.getElem_take, List.getElem_drop]
    congr 1
    omega

theorem slice_patch_self (m : Store) (a : Nat) (bs : List UInt8) :
    slice (patch m a bs) a bs.length = bs := by
  have h := slice_patch_within m a 0 bs.length bs (by omega)
  simpa using h

/-- A read apart from a write sees the old bytes. -/
theorem slice_patch_disjoint (h : b + n ≤ a ∨ a + bs.length ≤ b) :
    slice (patch m a bs) b n = slice m b n :=
  slice_congr fun k hk => patch_out (by omega)

/-- Overwrite, or append, the bytes `bs` from offset `off` on. -/
def overwrite (l : List UInt8) (off : Nat) (bs : List UInt8) : List UInt8 :=
  l.take off ++ (bs ++ l.drop (off + bs.length))

theorem length_overwrite (h : off ≤ l.length) :
    (overwrite l off bs).length = max l.length (off + bs.length) := by
  simp only [overwrite, List.length_append, List.length_take, List.length_drop]
  omega

theorem getElem?_overwrite (h : off ≤ l.length) :
    (overwrite l off bs)[k]? =
      if off ≤ k ∧ k < off + bs.length then bs[k - off]? else l[k]? := by
  have hl : (l.take off).length = off := by
    rw [List.length_take]
    omega
  unfold overwrite
  by_cases h1 : k < off
  · rw [if_neg (by omega), List.getElem?_append_left (by omega), List.getElem?_take, if_pos h1]
  · rw [List.getElem?_append_right (by omega), hl]
    by_cases h2 : k < off + bs.length
    · rw [if_pos ⟨by omega, h2⟩, List.getElem?_append_left (by omega)]
    · rw [if_neg (by omega), List.getElem?_append_right (by omega), List.getElem?_drop]
      congr 1
      omega

@[simp] theorem overwrite_nil (l : List UInt8) (off : Nat) : overwrite l off [] = l := by
  simp [overwrite]

/-- The first bytes of a store in which `bs` has been written. -/
theorem slice_patch_overwrite (m : Store) {n off : Nat} (bs : List UInt8) (h : off ≤ n) :
    slice (patch m off bs) 0 (max n (off + bs.length)) = overwrite (slice m 0 n) off bs := by
  apply List.ext_getElem?
  intro k
  rw [getElem?_overwrite (by rw [length_slice]; exact h)]
  by_cases hk : k < max n (off + bs.length)
  · rw [List.getElem?_eq_getElem (by rw [length_slice]; exact hk), getElem_slice, Nat.zero_add]
    split
    · rename_i hin
      rw [patch_in hin.1 (by omega), List.getElem?_eq_getElem]
    · rename_i hout
      rw [patch_out (by omega), List.getElem?_eq_getElem (by rw [length_slice]; omega), getElem_slice,
        Nat.zero_add]
  · rw [List.getElem?_eq_none (by rw [length_slice]; omega), if_neg (by omega),
      List.getElem?_eq_none (by rw [length_slice]; omega)]

/-! ## 2. Little-endian numbers -/

/-- The lowest `w` bytes of `v`, lowest first. -/
def le : Nat → Nat → List UInt8
  | 0, _ => []
  | w + 1, v => UInt8.ofNat v :: le w (v / 256)

/-- The number whose bytes, lowest first, are given. -/
def ofLE : List UInt8 → Nat
  | [] => 0
  | b :: bs => b.toNat + 256 * ofLE bs

@[simp] theorem length_le (w v : Nat) : (le w v).length = w := by
  induction w generalizing v with
  | zero => rfl
  | succ w ih => simp [le, ih]

/-- **Reading a number back gives its lowest `w` bytes.** -/
theorem ofLE_le (w v : Nat) : ofLE (le w v) = v % 256 ^ w := by
  induction w generalizing v with
  | zero => simp [le, ofLE, Nat.mod_one]
  | succ w ih =>
    have hb : (UInt8.ofNat v).toNat = v % 256 := UInt8.toNat_ofNat'
    rw [le, ofLE, ih, hb, Nat.pow_succ', Nat.mod_mul]

theorem ofLE_lt (bs : List UInt8) : ofLE bs < 256 ^ bs.length := by
  induction bs with
  | nil => simp [ofLE]
  | cons b bs ih =>
    have hb : b.toNat < 256 := b.toNat_lt
    simp only [ofLE, List.length_cons, Nat.pow_succ']
    omega

/-- The number of `w` bytes at address `a`. -/
def getLE (w : Nat) (m : Store) (a : Nat) : Nat := ofLE (slice m a w)

/-- Store the lowest `w` bytes of `v` at address `a`. -/
def putLE (w : Nat) (m : Store) (a v : Nat) : Store := patch m a (le w v)

theorem getLE_putLE (w : Nat) (m : Store) (a v : Nat) :
    getLE w (putLE w m a v) a = v % 256 ^ w := by
  unfold getLE putLE
  have h := slice_patch_self m a (le w v)
  rw [length_le] at h
  rw [h, ofLE_le]

theorem getLE_putLE_of_lt (h : v < 256 ^ w) :
    getLE w (putLE w m a v) a = v := by
  rw [getLE_putLE, Nat.mod_eq_of_lt h]

theorem getLE_patch_disjoint (h : b + w ≤ a ∨ a + bs.length ≤ b) :
    getLE w (patch m a bs) b = getLE w m b := by
  unfold getLE
  rw [slice_patch_disjoint h]

theorem getLE_putLE_disjoint {w w' : Nat} (h : b + w ≤ a ∨ a + w' ≤ b) :
    getLE w (putLE w' m a v) b = getLE w m b :=
  getLE_patch_disjoint (by rw [length_le]; exact h)

/-! ## 3. Bitmaps -/

/-- The byte whose only bit is bit `k`. -/
def bitMask (k : Nat) : UInt8 := UInt8.ofNat (2 ^ k)

/-- Is bit `i` of the bitmap set? -/
def getBit (m : Store) (i : Nat) : Bool := m (i / 8) &&& bitMask (i % 8) != 0

/-- The bitmap with bit `i` set. -/
def setBit (m : Store) (i : Nat) : Store := fun x =>
  if x = i / 8 then m x ||| bitMask (i % 8) else m x

/-- The bitmap with bit `i` clear. -/
def clearBit (m : Store) (i : Nat) : Store := fun x =>
  if x = i / 8 then m x &&& ~~~ bitMask (i % 8) else m x

theorem bitMask_getLsbD (k j : Nat) (hj : j < 8) :
    (bitMask k).toBitVec.getLsbD j = decide (j = k) := by
  have h : (bitMask k).toBitVec = BitVec.ofNat 8 (2 ^ k) := rfl
  rw [h, BitVec.getLsbD_ofNat, Nat.testBit_two_pow]
  have h1 : decide (k = j) = decide (j = k) := decide_eq_decide.mpr eq_comm
  simp [hj, h1]

theorem and_bitMask_ne_zero (x : UInt8) (hk : k < 8) :
    (x &&& bitMask k != 0) = x.toBitVec.getLsbD k := by
  have hbit : ∀ j < 8, (x &&& bitMask k).toBitVec.getLsbD j =
      (x.toBitVec.getLsbD j && decide (j = k)) := by
    intro j hj
    rw [UInt8.toBitVec_and, BitVec.getLsbD_and, bitMask_getLsbD k j hj]
  cases hx : x.toBitVec.getLsbD k with
  | true =>
    have hne : x &&& bitMask k ≠ 0 := by
      intro h0
      have h1 := hbit k hk
      rw [h0, hx] at h1
      simp at h1
    simpa using hne
  | false =>
    have h0 : x &&& bitMask k = 0 := by
      apply UInt8.toBitVec_inj.mp
      apply BitVec.eq_of_getLsbD_eq
      intro j hj
      rw [hbit j hj]
      by_cases hjk : j = k
      · subst hjk; simp [hx]
      · simp [hjk]
    simp [h0]

theorem getBit_eq (m : Store) (i : Nat) : getBit m i = (m (i / 8)).toBitVec.getLsbD (i % 8) :=
  and_bitMask_ne_zero _ (Nat.mod_lt _ (by decide))

/-- **Setting a bit sets that bit and no other.** -/
theorem getBit_setBit (m : Store) (i j : Nat) :
    getBit (setBit m i) j = (decide (j = i) || getBit m j) := by
  rw [getBit_eq, getBit_eq]
  unfold setBit
  by_cases hb : j / 8 = i / 8
  · rw [if_pos hb, UInt8.toBitVec_or, BitVec.getLsbD_or,
      bitMask_getLsbD _ _ (Nat.mod_lt _ (by decide)), Bool.or_comm]
    congr 1
    exact decide_eq_decide.mpr (by omega)
  · rw [if_neg hb]
    have hne : ¬ j = i := fun e => hb (by rw [e])
    simp [hne]

/-- **Clearing a bit clears that bit and no other.** -/
theorem getBit_clearBit (m : Store) (i j : Nat) :
    getBit (clearBit m i) j = (!decide (j = i) && getBit m j) := by
  rw [getBit_eq, getBit_eq]
  unfold clearBit
  by_cases hb : j / 8 = i / 8
  · have hlt : j % 8 < 8 := Nat.mod_lt _ (by decide)
    rw [if_pos hb, UInt8.toBitVec_and, BitVec.getLsbD_and, UInt8.toBitVec_not,
      BitVec.getLsbD_not, bitMask_getLsbD _ _ hlt, Bool.and_comm]
    have hd : decide (j % 8 = i % 8) = decide (j = i) := decide_eq_decide.mpr (by omega)
    simp [hlt, hd]
  · rw [if_neg hb]
    have hne : ¬ j = i := fun e => hb (by rw [e])
    simp [hne]

end HaiOS.Lib
