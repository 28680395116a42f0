/-
  File:      HaiOS/File/Table.lean
  Subject:   OPEN FILES (kernel/file.h: struct file; kernel/file.c: filealloc, filedup, fileclose;
             kernel/sysfile.c: fdalloc), as operations on the file table and on the descriptors of a
             process.

  Closing the last reference to a file leaves something to do elsewhere, for a pipe or an inode:
  `Closing` says what. The offset and the device number of a file are left out.
-/
import HaiOS.Param
import Mathlib.Data.List.FinRange
import Mathlib.Logic.Function.Basic

namespace HaiOS

open Function

/-- `enum { FD_NONE, FD_PIPE, FD_INODE, FD_DEVICE } type` -/
inductive FdType where
  | none
  | pipe
  | inode
  | device
  deriving DecidableEq, Repr

/-- `struct file`. -/
structure File where
  type : FdType
  ref : Nat
  readable : Bool
  writable : Bool
  pipe : Nat
  ip : Nat
  deriving DecidableEq, Repr

/-- `struct file file[NFILE]`. -/
abbrev Ftable : Type := Fin NFILE → File

/-- `struct file *ofile[NOFILE]`. -/
abbrev Ofile : Type := Fin NOFILE → Option (Fin NFILE)

/-! ## 1. The operations -/

/-- `filealloc`: the file, and the table. -/
def Ftable.filealloc (t : Ftable) : Option (Fin NFILE × Ftable) :=
  ((List.finRange NFILE).find? fun f => decide ((t f).ref = 0)).map fun f =>
    (f, update t f { t f with ref := 1 })

/-- `filedup`; `none` for the panic. -/
def Ftable.filedup (t : Ftable) (f : Fin NFILE) : Option Ftable :=
  if (t f).ref < 1 then none else some (update t f { t f with ref := (t f).ref + 1 })

/-- What is left to do when a file has been closed. -/
inductive Closing where
  | nothing
  | pipeclose (pi : Nat) (writable : Bool)
  | iput (ip : Nat)
  deriving DecidableEq, Repr

/-- What a file asks for when it goes. -/
def File.closing (f : File) : Closing :=
  match f.type with
  | .none => .nothing
  | .pipe => .pipeclose f.pipe f.writable
  | .inode => .iput f.ip
  | .device => .iput f.ip

/-- A file that has been closed. -/
def File.closed (f : File) : File := { f with ref := 0, type := .none }

/-- `fileclose` as far as the table goes; `none` for the panic. -/
def Ftable.fileclose (t : Ftable) (f : Fin NFILE) : Option (Closing × Ftable) :=
  if (t f).ref < 1 then none
  else if 0 < (t f).ref - 1 then
    some (.nothing, update t f { t f with ref := (t f).ref - 1 })
  else some ((t f).closing, update t f (t f).closed)

/-- `fdalloc`: the descriptor, and the descriptors. -/
def Ofile.fdalloc (o : Ofile) (f : Fin NFILE) : Option (Fin NOFILE × Ofile) :=
  ((List.finRange NOFILE).find? fun fd => decide (o fd = none)).map fun fd =>
    (fd, update o fd (some f))

/-! ## 2. What they do -/

/-- **The file tables there can be**: from the table of the boot on, files are taken, shared and
    closed, and the fields of a file are assigned only while somebody has it. -/
inductive Ftable.Reached : Ftable → Prop where
  | fileinit : Reached fun _ => ⟨.none, 0, false, false, 0, 0⟩
  | filealloc {t t' : Ftable} {f : Fin NFILE} (h : Reached t) (ha : t.filealloc = some (f, t')) :
      Reached t'
  | filedup {t t' : Ftable} {f : Fin NFILE} (h : Reached t) (hd : t.filedup f = some t') : Reached t'
  | fileclose {t t' : Ftable} {f : Fin NFILE} {c : Closing} (h : Reached t)
      (hc : t.fileclose f = some (c, t')) : Reached t'
  | assign {t : Ftable} {f : Fin NFILE} {x : File} (h : Reached t) (hr : 0 < (t f).ref)
      (hx : x.ref = (t f).ref) : Reached (update t f x)

/-- A free file has no type. -/
def Ftable.Quiet (t : Ftable) : Prop := ∀ f, (t f).ref = 0 → (t f).type = .none

section

variable {t t' : Ftable} {o o' : Ofile} {f : Fin NFILE} {fd : Fin NOFILE}

/-- The first index that passes a test. -/
theorem find_finRange {n : Nat} {p : Fin n → Bool} {k : Fin n}
    (h : (List.finRange n).find? p = some k) : p k = true ∧ ∀ j < k, p j = false := by
  refine ⟨List.find?_some h, fun j hj => ?_⟩
  obtain ⟨-, as, bs, hsplit, hbefore⟩ := List.find?_eq_some_iff_append.mp h
  have hmem : j ∈ as := by
    have hall : j ∈ as ++ k :: bs := hsplit ▸ List.mem_finRange j
    rcases List.mem_append.mp hall with hin | hin
    · exact hin
    · -- what follows `k` in the range is not below it
      have hsorted := List.pairwise_lt_finRange n
      rw [hsplit] at hsorted
      have hk := (List.pairwise_append.mp hsorted).2.1
      rcases List.mem_cons.mp hin with rfl | hin
      · exact absurd hj (Fin.lt_irrefl _)
      · exact absurd hj (Fin.lt_asymm ((List.pairwise_cons.mp hk).1 j hin))
  simpa using hbefore j hmem

theorem filealloc_some (h : t.filealloc = some (f, t')) :
    (t f).ref = 0 ∧ t' = update t f { t f with ref := 1 } := by
  obtain ⟨g, hg, e⟩ := Option.map_eq_some_iff.mp h
  cases e
  exact ⟨of_decide_eq_true (find_finRange hg).1, rfl⟩

/-- **The lowest free descriptor.** -/
theorem fdalloc_some (h : o.fdalloc f = some (fd, o')) :
    o fd = none ∧ (∀ d < fd, o d ≠ none) ∧ o' = update o fd (some f) := by
  obtain ⟨g, hg, e⟩ := Option.map_eq_some_iff.mp h
  cases e
  obtain ⟨hfree, hlow⟩ := find_finRange hg
  exact ⟨of_decide_eq_true hfree, fun d hd => of_decide_eq_false (hlow d hd), rfl⟩

/-- The last reference goes. -/
theorem fileclose_last (h : (t f).ref = 1) :
    t.fileclose f = some ((t f).closing, update t f (t f).closed) := by
  unfold Ftable.fileclose
  rw [if_neg (by omega), if_neg (by omega)]

theorem Ftable.Quiet.update (h : t.Quiet) {x : File} (hx : x.ref = 0 → x.type = .none) :
    Ftable.Quiet (update t f x) := by
  intro g hg
  by_cases e : g = f
  · subst e
    rw [update_self] at hg ⊢
    exact hx hg
  · rw [update_of_ne e] at hg ⊢
    exact h g hg

/-- **Free files have no type in every table that is reached.** -/
theorem Ftable.Reached.quiet (h : t.Reached) : t.Quiet := by
  induction h with
  | fileinit => exact fun _ _ => rfl
  | filealloc _ ha ih =>
    obtain ⟨-, rfl⟩ := filealloc_some ha
    exact ih.update fun h0 => absurd h0 Nat.one_ne_zero
  | @filedup t _ f _ hd ih =>
    unfold Ftable.filedup at hd
    split at hd
    · cases hd
    · cases hd
      exact ih.update fun h0 => absurd h0 (Nat.succ_ne_zero _)
  | @fileclose t _ f _ _ hc ih =>
    unfold Ftable.fileclose at hc
    split at hc
    · cases hc
    · split at hc
      · rename_i hpos
        cases hc
        exact ih.update fun h0 => absurd h0 (Nat.ne_of_gt hpos)
      · cases hc
        exact ih.update fun _ => rfl
  | assign _ hr hx ih => exact ih.update fun h0 => absurd (hx ▸ h0) (Nat.ne_of_gt hr)

end

end HaiOS
