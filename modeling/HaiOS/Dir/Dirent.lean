/-
  File:      HaiOS/Dir/Dirent.lean
  Subject:   DIRECTORY ENTRIES (kernel/fs.h: struct dirent; kernel/string.c: strncmp, strncpy;
             kernel/fs.c: namecmp). A directory is a file whose bytes are a sequence of entries.

  * `Dirent`, `Dirent.bytes`, `direntOf` -- 16 bytes: an inode number and a name;
    `direntOf_bytes` -- what is stored is what is read back;
  * `dirents` -- the entries of a file; `dirents_overwrite` -- one of them is written;
  * `scan` -- the first live entry with a name.
-/
import HaiOS.Fs.State
import Mathlib.Data.List.TakeWhile

namespace HaiOS

open Lib

/-! ## 1. Names -/

/-- `strncmp(p, q, n)`; a string that ends is followed by a NUL. -/
def strncmp : List UInt8 → List UInt8 → Nat → Int
  | _, _, 0 => 0
  | p, q, n + 1 =>
    if p.headD 0 ≠ 0 ∧ p.headD 0 = q.headD 0 then strncmp p.tail q.tail n
    else (p.headD 0).toNat - (q.headD 0).toNat

/-- `strncpy(s, t, n)`: the bytes stored at `s`. -/
def strncpy : List UInt8 → Nat → List UInt8
  | _, 0 => []
  | t, n + 1 => if t.headD 0 = 0 then List.replicate (n + 1) 0 else t.headD 0 :: strncpy t.tail n

def namecmp (s t : List UInt8) : Int := strncmp s t DIRSIZ

/-- The characters before the first NUL, `n` at most. -/
def cstr (n : Nat) (s : List UInt8) : List UInt8 := (s.take n).takeWhile (· ≠ 0)

/-- **The part of a name that counts.** -/
abbrev cname (s : List UInt8) : List UInt8 := cstr DIRSIZ s

theorem cstr_succ (n : Nat) (s : List UInt8) :
    cstr (n + 1) s = if s.headD 0 = 0 then [] else s.headD 0 :: cstr n s.tail := by
  unfold cstr
  cases s with
  | nil => rfl
  | cons a s =>
    rw [List.take_succ_cons, List.headD_cons, List.tail_cons]
    by_cases h : a = 0
    · simp [h]
    · simp [h]

theorem strncmp_eq_zero (n : Nat) (p q : List UInt8) : strncmp p q n = 0 ↔ cstr n p = cstr n q := by
  induction n generalizing p q with
  | zero => simp [strncmp, cstr]
  | succ n ih =>
    rw [strncmp, cstr_succ, cstr_succ]
    by_cases h : p.headD 0 ≠ 0 ∧ p.headD 0 = q.headD 0
    · rw [if_pos h, ih, if_neg h.1, if_neg (h.2 ▸ h.1), h.2, List.cons_eq_cons]
      exact ⟨fun e => ⟨rfl, e⟩, fun e => e.2⟩
    · rw [if_neg h]
      have hsub : ((p.headD 0).toNat - (q.headD 0).toNat : Int) = 0 ↔ p.headD 0 = q.headD 0 := by
        rw [UInt8.toNat_inj.symm]
        omega
      rw [hsub]
      by_cases hp : p.headD 0 = 0
      · rw [if_pos hp, hp]
        by_cases hq : q.headD 0 = 0
        · rw [if_pos hq, hq]
          exact ⟨fun _ => rfl, fun _ => rfl⟩
        · rw [if_neg hq]
          exact ⟨fun e => absurd e.symm hq, fun e => by cases e⟩
      · rw [if_neg hp]
        have hne : p.headD 0 ≠ q.headD 0 := fun e => h ⟨hp, e⟩
        refine ⟨fun e => absurd e hne, fun e => ?_⟩
        split at e
        · cases e
        · exact absurd (List.cons.inj e).1 hne

/-- **Names are equal under `namecmp`** when they agree up to the first NUL, or in `DIRSIZ` bytes. -/
theorem namecmp_eq_zero {s t : List UInt8} : namecmp s t = 0 ↔ cname s = cname t :=
  strncmp_eq_zero DIRSIZ s t

@[simp] theorem length_strncpy (t : List UInt8) (n : Nat) : (strncpy t n).length = n := by
  induction n generalizing t with
  | zero => rfl
  | succ n ih =>
    rw [strncpy]
    split
    · exact List.length_replicate
    · rw [List.length_cons, ih]

/-! ## 2. Entries -/

/-- `struct dirent`. -/
structure Dirent where
  inum : UInt16
  /-- `char name[DIRSIZ]` -/
  name : List UInt8
  deriving DecidableEq, Repr

/-- An entry in use. -/
def Dirent.live (e : Dirent) : Bool := e.inum ≠ 0

def Dirent.bytes (e : Dirent) : List UInt8 := le 2 e.inum.toNat ++ e.name

def direntOf (bs : List UInt8) : Dirent := ⟨UInt16.ofNat (ofLE (bs.take 2)), bs.drop 2⟩

/-- `memset(&de, 0, sizeof(de))`. -/
def Dirent.zero : Dirent := ⟨0, List.replicate DIRSIZ 0⟩

theorem Dirent.length_bytes {e : Dirent} (h : e.name.length = DIRSIZ) : e.bytes.length = DIRENT_SIZE := by
  rw [Dirent.bytes, List.length_append, length_le, h]
  rfl

/-- **What is stored is what is read back.** -/
theorem direntOf_bytes (e : Dirent) : direntOf e.bytes = e := by
  have h2 : (le 2 e.inum.toNat).length = 2 := length_le ..
  have hlt : e.inum.toNat % 256 ^ 2 = e.inum.toNat := Nat.mod_eq_of_lt e.inum.toNat_lt
  unfold direntOf Dirent.bytes
  rw [List.take_left' h2, List.drop_left' h2, ofLE_le, hlt, UInt16.ofNat_toNat]

/-- Entry `k` of a file. -/
def direntAt (l : List UInt8) (k : Nat) : Dirent :=
  direntOf ((l.drop (DIRENT_SIZE * k)).take DIRENT_SIZE)

/-- **The entries of a file.** -/
def dirents (l : List UInt8) : List Dirent :=
  (List.range (l.length / DIRENT_SIZE)).map (direntAt l)

@[simp] theorem length_dirents (l : List UInt8) : (dirents l).length = l.length / DIRENT_SIZE := by
  simp [dirents]

theorem getElem?_dirents {l : List UInt8} {k : Nat} (h : k < l.length / DIRENT_SIZE) :
    (dirents l)[k]? = some (direntAt l k) := by
  rw [dirents, List.getElem?_map, List.getElem?_range h]
  rfl

/-- The file consists of entries. -/
def Aligned (l : List UInt8) : Prop := l.length % DIRENT_SIZE = 0

instance (l : List UInt8) : Decidable (Aligned l) := inferInstanceAs (Decidable (_ = _))

section Overwrite

variable {l : List UInt8} {e : Dirent} {k j : Nat}

theorem overwrite_bounds (ha : Aligned l) (he : e.name.length = DIRSIZ)
    (hk : k ≤ l.length / DIRENT_SIZE) :
    DIRENT_SIZE * k ≤ l.length ∧ (overwrite l (DIRENT_SIZE * k) e.bytes).length =
      DIRENT_SIZE * max (l.length / DIRENT_SIZE) (k + 1) := by
  unfold Aligned at ha
  have hle : DIRENT_SIZE * k ≤ l.length := by
    simp only [DIRENT_SIZE] at *
    omega
  refine ⟨hle, ?_⟩
  rw [length_overwrite hle, Dirent.length_bytes he]
  simp only [DIRENT_SIZE] at *
  omega

theorem Aligned.overwrite (ha : Aligned l) (he : e.name.length = DIRSIZ)
    (hk : k ≤ l.length / DIRENT_SIZE) : Aligned (overwrite l (DIRENT_SIZE * k) e.bytes) := by
  unfold Aligned
  rw [(overwrite_bounds ha he hk).2]
  exact Nat.mul_mod_right _ _

theorem direntAt_overwrite (ha : Aligned l) (he : e.name.length = DIRSIZ)
    (hk : k ≤ l.length / DIRENT_SIZE) :
    direntAt (Lib.overwrite l (DIRENT_SIZE * k) e.bytes) j = if j = k then e else direntAt l j := by
  have hle := (overwrite_bounds ha he hk).1
  have hlen := Dirent.length_bytes he
  unfold direntAt
  by_cases hj : j = k
  · subst hj
    rw [if_pos rfl]
    have hb : ((Lib.overwrite l (DIRENT_SIZE * j) e.bytes).drop (DIRENT_SIZE * j)).take DIRENT_SIZE =
        e.bytes := by
      have ht : (l.take (DIRENT_SIZE * j)).length = DIRENT_SIZE * j := by
        rw [List.length_take]
        exact Nat.min_eq_left hle
      rw [Lib.overwrite, List.drop_left' ht, List.take_left' hlen]
    rw [hb, direntOf_bytes]
  · rw [if_neg hj]
    congr 1
    apply List.ext_getElem?
    intro i
    rw [List.getElem?_take, List.getElem?_take, List.getElem?_drop, List.getElem?_drop,
      getElem?_overwrite hle, hlen]
    split
    · rename_i hi
      rw [if_neg]
      simp only [DIRENT_SIZE] at *
      omega
    · rfl

/-- **An entry is overwritten, or appended.** -/
theorem dirents_overwrite (ha : Aligned l) (he : e.name.length = DIRSIZ)
    (hk : k ≤ (dirents l).length) :
    dirents (Lib.overwrite l (DIRENT_SIZE * k) e.bytes) =
      if k < (dirents l).length then (dirents l).set k e else dirents l ++ [e] := by
  rw [length_dirents] at hk ⊢
  have hlen := (overwrite_bounds ha he hk).2
  have hcount : (Lib.overwrite l (DIRENT_SIZE * k) e.bytes).length / DIRENT_SIZE =
      max (l.length / DIRENT_SIZE) (k + 1) := by
    rw [hlen, Nat.mul_div_cancel_left _ (by decide)]
  apply List.ext_getElem?
  intro j
  have hat : ∀ j, j < max (l.length / DIRENT_SIZE) (k + 1) →
      (dirents (Lib.overwrite l (DIRENT_SIZE * k) e.bytes))[j]? =
        some (if j = k then e else direntAt l j) := fun j hj => by
    rw [getElem?_dirents (by rw [hcount]; exact hj), direntAt_overwrite ha he hk]
  have hout : ∀ j, max (l.length / DIRENT_SIZE) (k + 1) ≤ j →
      (dirents (Lib.overwrite l (DIRENT_SIZE * k) e.bytes))[j]? = none := fun j hj => by
    rw [List.getElem?_eq_none]
    rw [length_dirents, hcount]
    exact hj
  split
  · rename_i hlt
    have hmax : max (l.length / DIRENT_SIZE) (k + 1) = l.length / DIRENT_SIZE := by omega
    rw [hmax] at hat hout
    rw [List.getElem?_set]
    by_cases hj : j < l.length / DIRENT_SIZE
    · rw [hat j hj]
      by_cases hjk : j = k
      · subst hjk
        rw [if_pos rfl, if_pos rfl, if_pos (by rw [length_dirents]; exact hj)]
      · rw [if_neg hjk, if_neg fun h => hjk h.symm, getElem?_dirents hj]
    · rw [hout j (by omega), if_neg (by omega), List.getElem?_eq_none]
      rw [length_dirents]
      omega
  · rename_i hge
    have hkl : k = l.length / DIRENT_SIZE := by omega
    have hmax : max (l.length / DIRENT_SIZE) (k + 1) = k + 1 := by omega
    rw [hmax] at hat hout
    rw [List.getElem?_append, length_dirents, ← hkl]
    by_cases hj : j < k
    · rw [if_pos hj, hat j (by omega), if_neg (by omega), getElem?_dirents (by omega)]
    · rw [if_neg hj]
      by_cases hjk : j = k
      · subst hjk
        rw [hat j (by omega), if_pos rfl, Nat.sub_self]
        rfl
      · rw [hout j (by omega), List.getElem?_eq_none]
        rw [List.length_singleton]
        omega

end Overwrite

/-! ## 3. Looking up a name -/

/-- A live entry with this name. -/
def Dirent.hasName (name : List UInt8) (e : Dirent) : Bool := e.live && decide (namecmp name e.name = 0)

/-- The scan of the entries `l`, the first of which has number `k`. -/
def scanFrom (name : List UInt8) : Nat → List Dirent → Option (Nat × Nat)
  | _, [] => none
  | k, e :: l =>
    if e.hasName name then some (e.inum.toNat, DIRENT_SIZE * k) else scanFrom name (k + 1) l

/-- **The plain scan**: the inode number and the byte offset of the first live entry with the
    name. -/
def scan (name : List UInt8) (l : List Dirent) : Option (Nat × Nat) := scanFrom name 0 l

end HaiOS
