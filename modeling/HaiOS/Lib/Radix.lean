/-
  File:      HaiOS/Lib/Radix.lean
  Subject:   RADIX TREES IN A HEAP OF NODES. A node has `w` entries, an entry may name a node, and
             a path is a list of indices. Names nothing of the kernel.

  * `follow` -- the node at the end of a path; `Apart` -- different paths, up to a depth, lead to
    different nodes, so that the nodes form a tree;
  * `follow_set`, `Apart.set` -- an entry of a node at full depth may be written freely: no path
    changes;
  * `follow_link`, `Apart.link` -- an entry above that may be given a fresh empty node: one path is
    added, none changes;
  * `lookup`, `lookup_set`, `lookup_link` -- the finite map that the entries at full depth are.
-/
import Mathlib.Data.List.Nodup
import Mathlib.Data.List.FinRange
import Mathlib.Data.List.Pairwise
import Mathlib.Logic.Function.Basic
import Mathlib.Tactic.Common

namespace HaiOS.Lib.Radix

variable {ν ω : Type} {w : Nat}

/-- The node at the end of the path, if every entry on the way names one. -/
def follow (child : ω → Option ν) (h : ν → Fin w → ω) : ν → List (Fin w) → Option ν
  | n, [] => some n
  | n, i :: p => (child (h n i)).bind fun c => follow child h c p

/-- **Different paths lead to different nodes**, up to depth `d` below `n`. -/
def Apart (child : ω → Option ν) (h : ν → Fin w → ω) (d : Nat) (n : ν) : Prop :=
  ∀ p q x, p.length ≤ d → q.length ≤ d → follow child h n p = some x →
    follow child h n q = some x → p = q

/-- The entry `i` of the node at the end of the path, `zero` if there is none. -/
def lookup (child : ω → Option ν) (zero : ω) (h : ν → Fin w → ω) (n : ν) (p : List (Fin w))
    (i : Fin w) : ω :=
  (follow child h n p).elim zero fun x => h x i

/-- The nodes to depth `d` below `n`, children before their parent. -/
def nodes (child : ω → Option ν) (h : ν → Fin w → ω) : Nat → ν → List ν
  | 0, n => [n]
  | d + 1, n => ((List.finRange w).flatMap fun i =>
    (child (h n i)).elim [] (nodes child h d)) ++ [n]

variable {child : ω → Option ν} {h h' : ν → Fin w → ω} {d : Nat} {n root x f : ν} {i : Fin w}
  {p q : List (Fin w)} {zero : ω}

/-! ## 1. Paths -/

theorem follow_append (n : ν) (p q : List (Fin w)) :
    follow child h n (p ++ q) = (follow child h n p).bind fun c => follow child h c q := by
  induction p generalizing n with
  | nil => rfl
  | cons i p ih =>
    show (child (h n i)).bind _ = ((child (h n i)).bind _).bind _
    rw [Option.bind_assoc]
    exact congrArg _ (funext fun c => ih c)

/-- A path depends on the entries it passes through only. -/
theorem follow_congr (hsame : ∀ p i r x, q = p ++ i :: r → follow child h n p = some x →
    h' x i = h x i) : follow child h' n q = follow child h n q := by
  induction q generalizing n with
  | nil => rfl
  | cons j q ih =>
    have hj : h' n j = h n j := hsame [] j q n rfl rfl
    show (child (h' n j)).bind _ = (child (h n j)).bind _
    rw [hj]
    cases hc : child (h n j) with
    | none => rfl
    | some c =>
      refine ih fun p i r x hq hp => hsame (j :: p) i r x (by rw [hq]; rfl) ?_
      show (child (h n j)).bind _ = some x
      rw [hc]
      exact hp

theorem lookup_of_follow (hx : follow child h n p = some x) (i : Fin w) :
    lookup child zero h n p i = h x i := by
  rw [lookup, hx]
  rfl

theorem lookup_of_none (hx : follow child h n p = none) (i : Fin w) :
    lookup child zero h n p i = zero := by
  rw [lookup, hx]
  rfl

theorem lookup_congr (hf : follow child h' n p = follow child h n p)
    (hsame : ∀ x, follow child h n p = some x → h' x i = h x i) :
    lookup child zero h' n p i = lookup child zero h n p i := by
  unfold lookup
  rw [hf]
  cases hx : follow child h n p with
  | none => rfl
  | some x => exact hsame x hx

/-! ## 2. Writing entries -/

section

variable (ha : Apart child h d root) (hp : p.length = d) (hx : follow child h root p = some x)
include ha hp hx

/-- **Below full depth is no path**: entries of a node at depth `d` may change. -/
theorem follow_set (hsame : ∀ y j, y ≠ x → h' y j = h y j)
    (hq : q.length ≤ d) : follow child h' root q = follow child h root q := by
  refine follow_congr fun p' j r y hqe hy => hsame y j ?_
  rintro rfl
  have hlen : p'.length < d := by
    rw [hqe, List.length_append, List.length_cons] at hq
    omega
  have := ha p' p y hlen.le hp.le hy hx
  rw [this] at hlen
  omega

theorem Apart.set (hsame : ∀ y j, y ≠ x → h' y j = h y j) : Apart child h' d root := by
  intro q r y hq hr hfq hfr
  rw [follow_set ha hp hx hsame hq] at hfq
  rw [follow_set ha hp hx hsame hr] at hfr
  exact ha q r y hq hr hfq hfr

/-- **Writing an entry at full depth writes the map at one place.** -/
theorem lookup_set (hother : ∀ y j, y ≠ x → h' y j = h y j)
    (hrest : ∀ j, j ≠ i → h' x j = h x j) (hq : q.length = d) (j : Fin w) :
    lookup child zero h' root q j =
      if q = p ∧ j = i then h' x i else lookup child zero h root q j := by
  unfold lookup
  rw [follow_set ha hp hx hother hq.le]
  split
  · rename_i hqj
    rw [hqj.1, hx, hqj.2]
    rfl
  · rename_i hne
    cases hy : follow child h root q with
    | none => rfl
    | some y =>
      by_cases hyx : y = x
      · subst hyx
        have hqp := ha q p y hq.le hp.le hy hx
        exact hrest j fun hj => hne ⟨hqp, hj⟩
      · exact hother y j hyx

end

/-- **A fresh node `f` with empty entries is hung into entry `i` of `n`**, which named none. -/
structure Link (child : ω → Option ν) (zero : ω) (h h' : ν → Fin w → ω) (n f : ν) (i : Fin w) :
    Prop where
  none : child zero = none
  empty : child (h n i) = .none
  named : child (h' n i) = some f
  bare : ∀ j, h' f j = zero
  same : ∀ y j, y ≠ f → (y = n → j ≠ i) → h' y j = h y j

section

variable (ha : Apart child h d root) (hp : p.length < d) (hn : follow child h root p = some n)
  (hfresh : ∀ q : List (Fin w), q.length ≤ d → follow child h root q ≠ some f)
  (hl : Link child zero h h' n f i)
include ha hp hn hfresh hl

/-- **The new node is at the end of one path, and all other paths are as before.** -/
theorem follow_link (hq : q.length ≤ d) :
    follow child h' root q = if q = p ++ [i] then some f else follow child h root q := by
  -- a path that does not pass through the entry is as before
  have hother : ∀ q, q.length ≤ d → (∀ r, q ≠ p ++ i :: r) →
      follow child h' root q = follow child h root q := by
    intro q hq hnot
    refine follow_congr fun p' j r y hqe hy => hl.same y j ?_ ?_
    · rintro rfl
      refine hfresh p' ?_ hy
      rw [hqe, List.length_append] at hq
      omega
    · rintro rfl rfl
      have hlen : p'.length ≤ d := by
        rw [hqe, List.length_append] at hq
        omega
      have := ha p' p y hlen hp.le hy hn
      exact hnot r (this ▸ hqe)
  by_cases hpre : ∃ r, q = p ++ i :: r
  · obtain ⟨r, rfl⟩ := hpre
    have hn' : follow child h' root p = some n := by
      rw [hother p hp.le fun r hr => ?_, hn]
      have := congrArg List.length hr
      rw [List.length_append, List.length_cons] at this
      omega
    rw [follow_append, hn', Option.bind_some, follow_append, hn, Option.bind_some]
    show (child (h' n i)).bind _ = if _ then _ else (child (h n i)).bind _
    rw [hl.named, hl.empty, Option.bind_some, Option.bind_none]
    cases r with
    | nil => rw [if_pos rfl]; rfl
    | cons j r =>
      have hne : p ++ i :: j :: r ≠ p ++ [i] := by simp
      rw [if_neg hne]
      show (child (h' f j)).bind _ = none
      rw [hl.bare j, hl.none, Option.bind_none]
  · have hne : q ≠ p ++ [i] := fun e => hpre ⟨[], e⟩
    rw [if_neg hne]
    exact hother q hq fun r e => hpre ⟨r, e⟩

theorem Apart.link : Apart child h' d root := by
  intro q r y hq hr hfq hfr
  rw [follow_link ha hp hn hfresh hl hq] at hfq
  rw [follow_link ha hp hn hfresh hl hr] at hfr
  split at hfq <;> split at hfr
  · rename_i e1 e2
    exact e1.trans e2.symm
  · cases hfq
    exact absurd hfr (hfresh r hr)
  · cases hfr
    exact absurd hfq (hfresh q hq)
  · exact ha q r y hq hr hfq hfr

/-- **A new node leaves the map as it is.** -/
theorem lookup_link (hq : q.length = d) (j : Fin w) :
    lookup child zero h' root q j = lookup child zero h root q j := by
  unfold lookup
  rw [follow_link ha hp hn hfresh hl hq.le]
  split
  · -- the new node is where the map had no entries
    rename_i hqe
    have hnone : follow child h root q = .none := by
      rw [hqe, follow_append, hn, Option.bind_some]
      show (child (h n i)).bind _ = .none
      rw [hl.empty, Option.bind_none]
    rw [hnone]
    exact hl.bare j
  · cases hy : follow child h root q with
    | none => rfl
    | some y =>
      refine hl.same y j (fun hyf => hfresh q hq.le (hyf ▸ hy)) fun hyn => ?_
      subst hyn
      have := ha q p y hq.le hp.le hy hn
      rw [this] at hq
      omega

end

/-! ## 3. The nodes of a tree -/

theorem mem_nodes : x ∈ nodes child h d n ↔ ∃ p : List (Fin w), p.length ≤ d ∧
    follow child h n p = some x := by
  induction d generalizing n with
  | zero =>
    refine ⟨fun hx => ⟨[], le_rfl, congrArg some (List.mem_singleton.mp hx).symm⟩, ?_⟩
    rintro ⟨p, hp, hx⟩
    obtain rfl := List.eq_nil_of_length_eq_zero (Nat.le_zero.mp hp)
    cases hx
    exact List.mem_singleton_self _
  | succ d ih =>
    rw [nodes, List.mem_append, List.mem_flatMap, List.mem_singleton]
    constructor
    · rintro (⟨i, -, hx⟩ | rfl)
      · cases hc : child (h n i) with
        | none =>
          rw [hc] at hx
          exact absurd hx List.not_mem_nil
        | some c =>
          rw [hc] at hx
          obtain ⟨p, hp, hf⟩ := ih.mp hx
          refine ⟨i :: p, Nat.succ_le_succ hp, ?_⟩
          show (child (h n i)).bind _ = some x
          rw [hc]
          exact hf
      · exact ⟨[], Nat.zero_le _, rfl⟩
    · rintro ⟨p, hp, hf⟩
      cases p with
      | nil =>
        cases hf
        exact Or.inr rfl
      | cons i p =>
        obtain ⟨c, hc, hf⟩ := Option.bind_eq_some_iff.mp hf
        refine Or.inl ⟨i, List.mem_finRange i, ?_⟩
        rw [hc]
        exact ih.mpr ⟨p, Nat.le_of_succ_le_succ hp, hf⟩

/-- The nodes depend on their own entries only. -/
theorem nodes_congr (hsame : ∀ x ∈ nodes child h d n, h' x = h x) :
    nodes child h' d n = nodes child h d n := by
  induction d generalizing n with
  | zero => rfl
  | succ d ih =>
    rw [nodes] at hsame ⊢
    have hn : h' n = h n :=
      hsame n (List.mem_append_right _ (List.mem_singleton_self n))
    rw [nodes, hn]
    congr 1
    refine List.flatMap_congr fun i hi => ?_
    cases hc : child (h n i) with
    | none => rfl
    | some c =>
      refine ih fun x hx => hsame x (List.mem_append_left _ ?_)
      exact List.mem_flatMap.mpr ⟨i, hi, by rw [hc]; exact hx⟩

/-- Below a child the paths lead to different nodes, too. -/
theorem Apart.below {c : ν} (ha : Apart child h (d + 1) n) (hc : child (h n i) = some c) :
    Apart child h d c := by
  intro p q x hp hq hfp hfq
  have hstep : ∀ r, follow child h c r = some x → follow child h n (i :: r) = some x := by
    intro r hr
    show (child (h n i)).bind _ = some x
    rw [hc]
    exact hr
  have := ha (i :: p) (i :: q) x (Nat.succ_le_succ hp) (Nat.succ_le_succ hq) (hstep p hfp)
    (hstep q hfq)
  exact List.tail_eq_of_cons_eq this

/-- **Every node is listed once.** -/
theorem Apart.nodup_nodes (ha : Apart child h d n) : (nodes child h d n).Nodup := by
  induction d generalizing n with
  | zero => exact List.nodup_singleton n
  | succ d ih =>
    have hbelow : ∀ i x, x ∈ (child (h n i)).elim [] (nodes child h d) →
        ∃ p : List (Fin w), (i :: p).length ≤ d + 1 ∧ follow child h n (i :: p) = some x := by
      intro i x hx
      cases hc : child (h n i) with
      | none =>
        rw [hc] at hx
        exact absurd hx List.not_mem_nil
      | some c =>
        rw [hc] at hx
        obtain ⟨p, hp, hf⟩ := mem_nodes.mp hx
        refine ⟨p, Nat.succ_le_succ hp, ?_⟩
        show (child (h n i)).bind _ = some x
        rw [hc]
        exact hf
    rw [nodes, List.nodup_append]
    refine ⟨List.nodup_flatMap.mpr ⟨fun i _ => ?_, ?_⟩, List.nodup_singleton n, ?_⟩
    · cases hc : child (h n i) with
      | none => exact List.nodup_nil
      | some c => exact ih (ha.below hc)
    · refine (List.nodup_finRange w).imp fun {i j} hij => ?_
      intro x hi hj
      obtain ⟨p, hp, hfp⟩ := hbelow i x hi
      obtain ⟨q, hq, hfq⟩ := hbelow j x hj
      exact hij (List.head_eq_of_cons_eq (ha _ _ x hp hq hfp hfq))
    · intro x hx y hy hxy
      rw [List.mem_singleton] at hy
      subst hxy hy
      obtain ⟨i, -, hi⟩ := List.mem_flatMap.mp hx
      obtain ⟨p, hp, hfp⟩ := hbelow i x hi
      have := ha (i :: p) [] x hp (Nat.zero_le _) hfp rfl
      cases this

end HaiOS.Lib.Radix
