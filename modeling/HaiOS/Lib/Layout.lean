/-
  File:      HaiOS/Lib/Layout.lean
  Subject:   RECORDS IN MEMORY. Where the members of a C struct lie, and what a function that fills
             one depends on. Names nothing of the kernel.

  * `Shape`, `Shape.array`, `record`, `offset` -- sizes and offsets with natural alignment: each
    member at the next multiple of its alignment, the whole padded to a multiple of the largest.
  * `Agree n`, `Local n f` -- two stores agree on their first `n` bytes; `f` makes of stores that
    agree stores that agree. Storing constants, reading back below `n`, composing and looping are
    local; so what a local function leaves of a cleared record is the same whatever was there.
-/
import HaiOS.Lib.Bytes

namespace HaiOS.Lib

/-! ## 1. Layout -/

/-- Size and alignment of a type. -/
structure Shape where
  size : Nat
  align : Nat

/-- A number of `w` bytes. -/
def Shape.num (w : Nat) : Shape := ⟨w, w⟩

def Shape.array (t : Shape) (n : Nat) : Shape := ⟨t.size * n, t.align⟩

/-- The next multiple of `a`. -/
def alignUp (a x : Nat) : Nat := (x + a - 1) / a * a

/-- The offsets of the members from `x` on. -/
def offsets : Nat → List Shape → List Nat
  | _, [] => []
  | x, t :: ts => alignUp t.align x :: offsets (alignUp t.align x + t.size) ts

/-- Where the last member ends. -/
def extent : Nat → List Shape → Nat
  | x, [] => x
  | x, t :: ts => extent (alignUp t.align x + t.size) ts

/-- The struct of these members. -/
def record (ts : List Shape) : Shape :=
  let a := ts.foldr (fun t a => max t.align a) 1
  ⟨alignUp a (extent 0 ts), a⟩

/-- The offset of member `i`. -/
def offset (ts : List Shape) (i : Nat) : Nat := (offsets 0 ts).getD i 0

/-! ## 2. Functions that fill a record -/

/-- The first `n` bytes are the same. -/
def Agree (n : Nat) (m m' : Store) : Prop := ∀ x < n, m x = m' x

/-- What `f` leaves in the first `n` bytes depends on these only. -/
def Local (n : Nat) (f : Store → Store) : Prop := ∀ m m', Agree n m m' → Agree n (f m) (f m')

/-- `memset(p, 0, n)`. -/
def clear (n : Nat) (m : Store) : Store := fun x => if x < n then 0 else m x

variable {n a w : Nat} {m m' : Store} {f g : Store → Store}

theorem Agree.slice_eq (h : Agree n m m') (ha : a + w ≤ n) : slice m a w = slice m' a w :=
  slice_congr fun k hk => h (a + k) (by omega)

theorem putLE_out {x v : Nat} (h : x < a ∨ a + w ≤ x) : putLE w m a v x = m x :=
  patch_out (by rwa [length_le])

theorem agree_clear : Agree n (clear n m) (clear n m') := fun x hx => by
  rw [clear, clear, if_pos hx, if_pos hx]

theorem local_patch (a : Nat) (bs : List UInt8) : Local n fun m => patch m a bs := by
  intro m m' h x hx
  simp only [patch]
  split
  · rfl
  · exact h x hx

theorem local_putLE (w a v : Nat) : Local n fun m => putLE w m a v := local_patch a (le w v)

/-- A member is read, changed and stored back. -/
theorem local_modify (w a : Nat) (v : Nat → Nat) (ha : a + w ≤ n) :
    Local n fun m => putLE w m a (v (getLE w m a)) := by
  intro m m' h
  have e : getLE w m a = getLE w m' a := congrArg ofLE (h.slice_eq ha)
  dsimp only
  rw [e]
  exact local_putLE w a _ m m' h

theorem local_id : Local n id := fun _ _ h => h

theorem Local.comp (hg : Local n g) (hf : Local n f) : Local n fun m => g (f m) :=
  fun _ _ h => hg _ _ (hf _ _ h)

theorem Local.foldl {α : Type} {f : Store → α → Store} (h : ∀ x, Local n fun m => f m x)
    (l : List α) : Local n fun m => l.foldl f m := by
  induction l with
  | nil => exact local_id
  | cons x l ih => exact ih.comp (h x)

/-- **A record that is cleared and then filled does not depend on what was there before.** -/
theorem Local.after_clear (hf : Local n f) (m m' : Store) :
    slice (f (clear n m)) 0 n = slice (f (clear n m')) 0 n :=
  (hf _ _ agree_clear).slice_eq (by omega)

end HaiOS.Lib
