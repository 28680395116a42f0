/-
  File:      HaiOS/Vm/Argv.lean
  Subject:   THE ARGUMENTS ARRIVE: what `kexec` leaves on the stack of the new image.

  * `room`, `need` -- the room of a string, and of all strings with the array of their addresses;
  * `Placed`, `pushArgs_placed` -- the strings one below the other, none over another;
  * `Loads` -- the program could be loaded, and there was memory for the stack;
  * `Delivered`, `exec_delivers` -- then `kexec` fails exactly when the arguments do not fit into the
    stack, and otherwise the process finds them there.
-/
import HaiOS.Vm.Strings

namespace HaiOS.Vm

open Lib Lib.Routine

/-! ## 1. Room on the stack -/

/-- What `n` bytes take on a stack whose pointer is kept a multiple of 16. -/
def room (n : Nat) : Nat := (n + 15) / 16 * 16

/-- What the strings take. -/
def stringsRoom (argv : List (List UInt8)) : Nat := (argv.map fun a => room (a.length + 1)).sum

/-- **What the arguments take**: the strings, and the array of their addresses with its null. -/
def need (argv : List (List UInt8)) : Nat := stringsRoom argv + room ((argv.length + 1) * 8)

/-- The stack pointer after `n` bytes, as `kexec` computes it. -/
def push (sp n : Nat) : Nat := (sp + 2 ^ 64 - n) % 2 ^ 64 - (sp + 2 ^ 64 - n) % 2 ^ 64 % 16

theorem push_eq {sp n : Nat} (h16 : sp % 16 = 0) (hn : n ≤ sp) (hsp : sp < 2 ^ 64) :
    push sp n + room n = sp := by
  unfold push room
  omega

theorem le_room (n : Nat) : n ≤ room n := by
  unfold room
  omega

theorem room_mod (n : Nat) : room n % 16 = 0 := Nat.mul_mod_left _ _

theorem stringsRoom_cons (a : List UInt8) (argv : List (List UInt8)) :
    stringsRoom (a :: argv) = room (a.length + 1) + stringsRoom argv := by
  rw [stringsRoom, List.map_cons, List.sum_cons]
  rfl

/-! ## 2. The strings -/

theorem stringsRoom_mod (argv : List (List UInt8)) : stringsRoom argv % 16 = 0 := by
  induction argv with
  | nil => rfl
  | cons a argv ih =>
    have := room_mod (a.length + 1)
    rw [stringsRoom_cons]
    omega

/-- One turn of the loop over the arguments. -/
theorem pushArgs_cons (stackbase : Nat) (arg : List UInt8) (argv : List (List UInt8)) (sp : Nat)
    (ustack : List Nat) (s : Space) :
    pushArgs stackbase (arg :: argv) sp ustack s =
      if MAXARG ≤ ustack.length then pure (none, s)
      else if push sp (arg.length + 1) < stackbase then pure (none, s)
      else (do
        let (ok, s) ← copyout s (push sp (arg.length + 1)) (arg ++ [0])
        if ok = false then pure (none, s)
        else
          pushArgs stackbase argv (push sp (arg.length + 1)) (ustack ++ [push sp (arg.length + 1)])
            s) := rfl

/-- **The strings stand one below the other**, between `low` and `top`. -/
inductive Placed (s : Priv) (low : Nat) : Nat → List (List UInt8) → List Nat → Prop
  | nil {top : Nat} (le : low ≤ top) : Placed s low top [] []
  | cons {top p : Nat} {a : List UInt8} {argv : List (List UInt8)} {ptrs : List Nat}
      (below : p + (a.length + 1) ≤ top) (read : s.Read p (a ++ [0]))
      (rest : Placed s low p argv ptrs) : Placed s low top (a :: argv) (p :: ptrs)

namespace Placed

variable {s : Priv} {low top : Nat} {argv : List (List UInt8)} {ptrs : List Nat}

variable (h : Placed s low top argv ptrs)
include h

theorem length_eq : ptrs.length = argv.length := by
  induction h with
  | nil => rfl
  | cons _ _ _ ih => rw [List.length_cons, List.length_cons, ih]

theorem low_le : low ≤ top := by
  induction h with
  | nil le => exact le
  | cons below _ _ ih => omega

/-- Every string is where its address says, inside the bounds. -/
theorem get {i p : Nat} {a : List UInt8} (ha : argv[i]? = some a)
    (hp : ptrs[i]? = some p) : low ≤ p ∧ p + (a.length + 1) ≤ top ∧ s.Read p (a ++ [0]) := by
  induction h generalizing i with
  | nil => cases ha
  | cons below read rest ih =>
    cases i with
    | zero =>
      cases ha
      cases hp
      exact ⟨rest.low_le, below, read⟩
    | succ i =>
      obtain ⟨h1, h2, h3⟩ := ih ha hp
      exact ⟨h1, by omega, h3⟩

/-- A later string ends below an earlier one. -/
theorem apart {i j p q : Nat} {b : List UInt8} (hij : i < j)
    (hp : ptrs[i]? = some p) (hb : argv[j]? = some b) (hq : ptrs[j]? = some q) :
    q + (b.length + 1) ≤ p := by
  induction h generalizing i j with
  | nil => cases hb
  | cons below read rest ih =>
    obtain ⟨j, rfl⟩ := Nat.exists_eq_succ_of_ne_zero (by omega : j ≠ 0)
    cases i with
    | zero =>
      cases hp
      exact (rest.get hb hq).2.1
    | succ i => exact ih (by omega) hp hb hq

end Placed

section

variable {m m' : Mem} {t : PageTable} {ts : List PageTable} {ks : List Nat}
  {trampoline frame sz lo hi : Nat}

variable {a sp szold : Nat} {bs path : List UInt8}

/-- In pages that are there bytes can be read. -/
theorem read_writable (hhi : hi ≤ USERVPN) (hall : t.Writable lo hi) (hlo : lo * PGSIZE ≤ a)
    (hend : a + bs.length ≤ hi * PGSIZE)
    (hb : ∀ i < bs.length, bs[i]? = (privOf m t sz).byte (a + i)) : (privOf m t sz).Read a bs := by
  refine ⟨hb, fun i hi' => ?_⟩
  have h1 : lo ≤ (a + i) / PGSIZE ∧ (a + i) / PGSIZE < hi := by
    simp only [PGSIZE] at *
    omega
  obtain ⟨e, he, hu, -⟩ := hall _ h1.1 h1.2
  exact ⟨_, Priv.seen_some (viewOf_some m.ram (by omega) he), hu⟩

/-- Bytes above `sp` stay, and what was read there is read again. -/
theorem Priv.Read.above (hhi : hi ≤ USERVPN) (hall : t.Writable lo hi)
    (h : (privOf m t sz).Read a bs) (hlo : lo * PGSIZE ≤ a) (hend : a + bs.length ≤ hi * PGSIZE)
    (hsp : sp ≤ a) (hsame : ∀ x, sp ≤ x → (privOf m' t sz).byte x = (privOf m t sz).byte x) :
    (privOf m' t sz).Read a bs :=
  read_writable hhi hall hlo hend fun i hi' => by rw [h.byte i hi', hsame _ (by omega)]

/-- **The strings go onto the stack**, or they do not fit. -/
theorem pushArgs_placed {told : PageTable} {szold : Nat} (hhi : hi ≤ USERVPN) (hlo : 0 < lo)
    (hall : t.Writable lo hi) (argv : List (List UInt8)) {sp : Nat} {ustack : List Nat}
    (hargs : ∀ a ∈ argv, a.length < PGSIZE) (hmax : ustack.length + argv.length < MAXARG)
    (h16 : sp % 16 = 0) (hsp : lo * PGSIZE ≤ sp) (htop : sp ≤ hi * PGSIZE)
    (h : Image m t ts ks trampoline frame sz) :
    (pushArgs (lo * PGSIZE) argv sp ustack ⟨told, szold, some t⟩ m).Returns
      fun r m' => r.2 = ⟨told, szold, some t⟩ ∧ Image m' t ts ks trampoline frame sz ∧
        m.Keeps (Live ts ks) m' ∧
        (∀ x, sp ≤ x → (privOf m' t sz).byte x = (privOf m t sz).byte x) ∧
        ((r.1 = none ∧ sp < lo * PGSIZE + stringsRoom argv) ∨
          ∃ sp' ptrs, r.1 = some (sp', ustack ++ ptrs) ∧ sp' + stringsRoom argv = sp ∧
            lo * PGSIZE ≤ sp' ∧ Placed (privOf m' t sz) sp' sp argv ptrs) := by
  induction argv generalizing m sp ustack with
  | nil =>
    refine ⟨rfl, h, Mem.Keeps.refl m, fun _ _ => rfl, Or.inr ⟨sp, [], ?_, rfl, hsp, .nil (Nat.le_refl _)⟩⟩
    rw [List.append_nil]
  | cons arg argv ih =>
    have harg : arg.length < 4096 := hargs arg List.mem_cons_self
    have hU := hhi
    rw [USERVPN_eq] at hU
    have hlen : arg.length + 1 ≤ sp := by
      simp only [PGSIZE] at hsp
      omega
    have hpush := push_eq h16 hlen (by simp only [PGSIZE] at htop; omega)
    have hroom := le_room (arg.length + 1)
    have hmod := room_mod (arg.length + 1)
    rw [List.length_cons] at hmax
    rw [pushArgs_cons, if_neg (by omega), stringsRoom_cons]
    generalize push sp (arg.length + 1) = sp1 at hpush
    by_cases hbase : sp1 < lo * PGSIZE
    · rw [if_pos hbase]
      exact ⟨rfl, h, Mem.Keeps.refl m, fun _ _ => rfl, Or.inl ⟨rfl, by omega⟩⟩
    rw [if_neg hbase]
    have hbase := Nat.le_of_not_lt hbase
    have hbytes : (arg ++ [0]).length = arg.length + 1 := by rw [List.length_append]; rfl
    have hend : sp1 + (arg ++ [0]).length ≤ hi * PGSIZE := by omega
    refine (copyoutLoop_image hhi hall _ hbase hend h).bind
      fun r m1 ⟨hr, himg, hk, hcopy⟩ => ?_
    subst hr
    have hwrote := Priv.copyoutLoop_wrote _ (Nat.le_refl _) hcopy
    have hread : (privOf m1 t sz).Read sp1 (arg ++ [0]) :=
      read_writable hhi hall hbase hend fun i hi' => by
        rw [hwrote.byte, if_pos ⟨Nat.le_add_right _ _, by omega⟩, Nat.add_sub_cancel_left]
    have hmax1 : (ustack ++ [sp1]).length + argv.length < MAXARG := by
      rw [List.length_append, List.length_singleton]
      omega
    refine (ih (fun a ha => hargs a (List.mem_cons_of_mem _ ha)) hmax1 (by omega) hbase (by omega)
      himg).imp fun r m2 ⟨hr, himg2, hk2, hsame, hres⟩ =>
        ⟨hr, himg2, hk.trans hk2, fun x hx => ?_, ?_⟩
    · rw [hsame x (by omega), hwrote.byte, if_neg (by omega)]
    · rcases hres with ⟨hn, hlt⟩ | ⟨sp', ptrs, hsome, hsum, hlow, hplaced⟩
      · exact Or.inl ⟨hn, by omega⟩
      · refine Or.inr ⟨sp', sp1 :: ptrs, ?_, by omega, hlow, .cons (by omega) ?_ hplaced⟩
        · rw [hsome, List.append_assoc, List.singleton_append]
        · exact hread.above hhi hall hbase hend (Nat.le_refl _) hsame

variable {argv : List (List UInt8)}

/-- Strings that stand above `low` stay when only bytes below `low` are written. -/
theorem Placed.above (hhi : hi ≤ USERVPN) (hall : t.Writable lo hi) {low top : Nat}
    {ptrs : List Nat} (hlo : lo * PGSIZE ≤ low)
    (hsame : ∀ x, low ≤ x → (privOf m' t sz).byte x = (privOf m t sz).byte x)
    (htop : top ≤ hi * PGSIZE) (h : Placed (privOf m t sz) low top argv ptrs) :
    Placed (privOf m' t sz) low top argv ptrs := by
  induction h with
  | nil le => exact .nil le
  | cons below read rest ih =>
    have hle := rest.low_le
    refine .cons below (read.above hhi hall (by omega) ?_ hle hsame) (ih (by omega))
    rw [List.length_append, List.length_singleton]
    omega

/-- The array of the addresses after the strings. -/
theorem pushStack_eq (stackbase : Nat) (argv : List (List UInt8)) (sp : Nat) (s : Space) :
    pushStack stackbase argv sp s = (do
      let (r, s) ← pushArgs stackbase argv sp [] s
      match r with
      | none => pure (none, s)
      | some (sp, ustack) =>
        if push sp ((ustack.length + 1) * 8) < stackbase then pure (none, s)
        else do
          let (ok, s) ← copyout s (push sp ((ustack.length + 1) * 8))
            ((ustack ++ [0]).flatMap (le 8))
          if ok = false then pure (none, s)
          else pure (some (push sp ((ustack.length + 1) * 8)), s)) := rfl

/-- **The strings and the array go onto the stack**, or they do not fit. -/
theorem pushStack_placed {told : PageTable} {szold : Nat} (hhi : hi ≤ USERVPN) (hlo : 0 < lo)
    (hle : lo ≤ hi) (hall : t.Writable lo hi) {argv : List (List UInt8)}
    (hargs : ∀ a ∈ argv, a.length < PGSIZE) (hmax : argv.length < MAXARG)
    (h : Image m t ts ks trampoline frame sz) :
    (pushStack (lo * PGSIZE) argv (hi * PGSIZE) ⟨told, szold, some t⟩ m).Returns
      fun r m' => r.2 = ⟨told, szold, some t⟩ ∧ Image m' t ts ks trampoline frame sz ∧
        m.Keeps (Live ts ks) m' ∧
        ((r.1 = none ∧ hi * PGSIZE < lo * PGSIZE + need argv) ∨
          ∃ a1 ptrs, r.1 = some a1 ∧ a1 + need argv = hi * PGSIZE ∧ lo * PGSIZE ≤ a1 ∧
            ptrs.length = argv.length ∧
            (privOf m' t sz).Read a1 ((ptrs ++ [0]).flatMap (le 8)) ∧
            ∃ low, a1 + (argv.length + 1) * 8 ≤ low ∧
              Placed (privOf m' t sz) low (hi * PGSIZE) argv ptrs) := by
  have h16 : hi * PGSIZE % 16 = 0 := by
    show hi * 4096 % 16 = 0
    omega
  have hU := hhi
  rw [USERVPN_eq] at hU
  rw [pushStack_eq]
  have hmax0 : ([] : List Nat).length + argv.length < MAXARG := by rwa [List.length_nil, Nat.zero_add]
  refine (pushArgs_placed hhi hlo hall argv hargs hmax0 h16
    (Nat.mul_le_mul_right _ hle) (Nat.le_refl _) h).bind fun r m1 ⟨hr, himg, hk, _, hres⟩ => ?_
  obtain ⟨o, s1⟩ := r
  cases hr
  unfold need
  rcases hres with ⟨hn, hlt⟩ | ⟨sp, ptrs, hsome, hsum, hsp, hplaced⟩
  · cases hn
    exact ⟨rfl, himg, hk, Or.inl ⟨rfl, by omega⟩⟩
  · cases hsome
    have hlen : ptrs.length = argv.length := hplaced.length_eq
    have hbound : argv.length < 32 := hmax
    have hsp' : lo * 4096 ≤ sp := hsp
    have hmods : stringsRoom argv % 16 = 0 := stringsRoom_mod argv
    have hroom := le_room ((argv.length + 1) * 8)
    have h16s : sp % 16 = 0 := by omega
    have hpush := push_eq (n := (argv.length + 1) * 8) h16s (by omega)
      (by simp only [PGSIZE] at hsum; omega)
    simp only [List.nil_append, hlen]
    generalize push sp ((argv.length + 1) * 8) = a1 at hpush
    by_cases hbase : a1 < lo * PGSIZE
    · rw [if_pos hbase]
      exact ⟨rfl, himg, hk, Or.inl ⟨rfl, by omega⟩⟩
    rw [if_neg hbase]
    have hbase := Nat.le_of_not_lt hbase
    have hbytes : ((ptrs ++ [0]).flatMap (le 8)).length = (argv.length + 1) * 8 := by
      rw [List.length_flatMap]
      simp [hlen]
      omega
    have hend : a1 + ((ptrs ++ [0]).flatMap (le 8)).length ≤ hi * PGSIZE := by omega
    refine (copyoutLoop_image hhi hall _ hbase hend himg).bind
      fun r m2 ⟨hr, himg2, hk2, hcopy⟩ => ?_
    subst hr
    have hwrote := Priv.copyoutLoop_wrote _ (Nat.le_refl _) hcopy
    refine ⟨rfl, himg2, hk.trans hk2, Or.inr ⟨a1, ptrs, rfl, by omega, hbase, hlen, ?_, sp, by omega,
      ?_⟩⟩
    · refine read_writable hhi hall hbase hend fun i hi' => ?_
      rw [hwrote.byte, if_pos ⟨Nat.le_add_right _ _, by omega⟩, Nat.add_sub_cancel_left]
    · refine Placed.above hhi hall hsp (fun x hx => ?_) (Nat.le_refl _) hplaced
      rw [hwrote.byte, if_neg (by omega)]

/-! ## 3. `kexec` -/

/-- **The arguments as the new image has them**: the array at `a1`, the strings where its entries say,
    everything between `base` and `top` and nothing over anything else. -/
structure Delivered (s : Priv) (base top : Nat) (argv : List (List UInt8)) (a1 : Nat)
    (ptrs : List Nat) : Prop where
  count : ptrs.length = argv.length
  array : ∀ (i : Nat) q, (ptrs ++ [0])[i]? = some q → s.Read (a1 + 8 * i) (le 8 q)
  string : ∀ (i : Nat) a p, argv[i]? = some a → ptrs[i]? = some p → s.StringAt p PGSIZE a
  inside : ∀ (i : Nat) a p, argv[i]? = some a → ptrs[i]? = some p →
    a1 + (argv.length + 1) * 8 ≤ p ∧ p + (a.length + 1) ≤ top
  apart : ∀ (i j : Nat) p b q, i < j → ptrs[i]? = some p → argv[j]? = some b → ptrs[j]? = some q →
    q + (b.length + 1) ≤ p
  low : base ≤ a1
  aligned : a1 % 16 = 0

/-- The entries of an array that was read. -/
theorem read_array {s : Priv} {l : List Nat} (h : s.Read a (l.flatMap (le 8))) {i q : Nat}
    (hq : l[i]? = some q) : s.Read (a + 8 * i) (le 8 q) := by
  induction l generalizing a i with
  | nil => cases hq
  | cons x l ih =>
    rw [List.flatMap_cons] at h
    cases i with
    | zero =>
      cases hq
      exact h.left
    | succ i =>
      have := ih h.right hq
      rwa [length_le, show a + 8 + 8 * i = a + 8 * (i + 1) by omega] at this

variable {p : Proc}

/-- **How `kexec` ends with the arguments `argv`**, once the image is loaded and ends at `sz`. -/
def ArgvEnd (argv : List (List UInt8)) (sz : Nat) (r : Int × Proc) (m' : Mem) : Prop :=
  (r.1 = -1 ↔ USERSTACK * PGSIZE < need argv) ∧
    (r.1 ≠ -1 → r.1 = argv.length ∧ r.2.sz = sz ∧ r.2.trapframe.sp = r.2.trapframe.a1 ∧
      (∃ e, r.2.pagetable.leaf (sz / PGSIZE - (USERSTACK + 1)) = some e ∧ e.flags.u = false) ∧
      ∃ ptrs, Delivered (privOf m' r.2.pagetable sz) (sz - USERSTACK * PGSIZE) sz argv
        r.2.trapframe.a1 ptrs)

/-- **The last part of `kexec`.** -/
theorem kexecCommit_argv {entry n : Nat} {path : List UInt8} {argv : List (List UInt8)}
    (h : Image m t (p.pagetable :: ts) ks trampoline p.frame ((n + 2) * PGSIZE))
    (hguard : ∃ g, t.leaf n = some ⟨g, Flags.W.user⟩)
    (hstack : ∃ g, t.leaf (n + 1) = some ⟨g, Flags.W.user⟩)
    (hp : p.Ok trampoline) (hargs : ∀ a ∈ argv, a.length < PGSIZE ∧ 0 ∉ a)
    (hmax : argv.length < MAXARG) :
    (kexecCommit p entry path argv t ((n + 2) * PGSIZE) m).Returns (ArgvEnd argv ((n + 2) * PGSIZE)) := by
  have hsp : (n + 2) * PGSIZE - USERSTACK * PGSIZE = (n + 1) * PGSIZE :=
    (Nat.sub_mul (n + 2) USERSTACK PGSIZE).symm
  have hroom : ∀ x, (n + 2) * PGSIZE < (n + 1) * PGSIZE + x ↔ USERSTACK * PGSIZE < x := by
    intro x
    show (n + 2) * 4096 < (n + 1) * 4096 + x ↔ 1 * 4096 < x
    omega
  unfold kexecCommit
  rw [hsp]
  refine (guardPage_sat h hguard hstack).bind fun t2 m2 hq2 => ?_
  obtain ⟨rfl, himg2, hU, hwr, guard, hgl⟩ := hq2
  refine (pushStack_placed hU (Nat.succ_pos _) (Nat.le_succ _) hwr
    (fun a ha => (hargs a ha).1) hmax himg2).bind fun r m3 ⟨hr, himg3, _, hres⟩ => ?_
  obtain ⟨o, s3⟩ := r
  cases hr
  rcases hres with ⟨hn, hlt⟩ | ⟨a1, ptrs, hsome, hsum, hlow, hcount, harray, low, hle, hplaced⟩
  · cases hn
    refine (procFreepagetable_sat himg3.inv himg3.fits).bind fun _ m4 _ => ?_
    exact ⟨⟨fun _ => (hroom _).mp hlt, fun _ => rfl⟩, fun hne => absurd rfl hne⟩
  · cases hsome
    have hswap : Inv m3 (p.pagetable :: t2 :: ts) ks :=
      himg3.inv.perm (List.Perm.swap _ _ _) (List.Perm.refl ks)
    refine (procFreepagetable_sat hswap hp).bind fun _ m4 ⟨hinv4, hk4⟩ => ?_
    have hview : privOf m4 t2 ((n + 2) * PGSIZE) = privOf m3 t2 ((n + 2) * PGSIZE) :=
      congrArg (Priv.mk _) (viewOf_keeps hk4 fun v hv e he => Seen.live (Or.inr ⟨v, hv, e, he, rfl⟩))
    have hfit : ¬ USERSTACK * PGSIZE < need argv := fun hlt => by
      have hlt' := (hroom _).mpr hlt
      have hlow' : (n + 1) * PGSIZE ≤ a1 := hlow
      omega
    have hneed : need argv % 16 = 0 := by
      have h1 := stringsRoom_mod argv
      have h2 := room_mod ((argv.length + 1) * 8)
      unfold need
      omega
    refine ⟨⟨fun e => ?_, fun hlt => absurd hlt hfit⟩, fun _ => ⟨rfl, rfl, rfl, ?_, ptrs, ?_⟩⟩
    · have e : (argv.length : Int) = -1 := e
      omega
    · refine ⟨⟨guard, { Flags.W.user with u := false }⟩, ?_, rfl⟩
      rw [Nat.mul_div_cancel _ (by decide)]
      exact hgl
    · show Delivered (privOf m4 t2 ((n + 2) * PGSIZE)) ((n + 2) * PGSIZE - USERSTACK * PGSIZE)
        ((n + 2) * PGSIZE) argv a1 ptrs
      rw [hview, hsp]
      refine ⟨hcount, fun i q hq => read_array harray hq, fun i a q ha hq => ?_, fun i a q ha hq => ?_,
        fun i j q b q' hij hq hb hq' => hplaced.apart hij hq hb hq', hlow, ?_⟩
      · have hmem := hargs a (List.mem_of_getElem? ha)
        exact ⟨hmem.1, hmem.2, (hplaced.get ha hq).2.2⟩
      · obtain ⟨h1, h2, -⟩ := hplaced.get ha hq
        exact ⟨by omega, h2⟩
      · simp only [PGSIZE] at hsum
        omega

/-- **The program can be loaded and there is memory for the stack**, which ends at `sz`. -/
def Loads (namei : List UInt8 → Option Exe) (trampoline : Nat) (p : Proc) (path : List UInt8)
    (m : Mem) (sz : Nat) : Prop :=
  ∃ f t0 m0 t1 sz1 m1 t m', namei path = some f ∧ f.noexec = false ∧
    (f.readi 0 ELFHDR_SIZE).length = ELFHDR_SIZE ∧
    (elfhdr (f.readi 0 ELFHDR_SIZE)).magic = ELF_MAGIC ∧
    procPagetable trampoline p.frame m = .ok (some t0) m0 ∧
    loadProgram f (elfhdr (f.readi 0 ELFHDR_SIZE)).phnum
      ((elfhdr (f.readi 0 ELFHDR_SIZE)).phoff % 2 ^ 32) t0 0 m0 = .ok (true, t1, sz1) m1 ∧
    uvmalloc t1 (pgroundup sz1) ((pgroundup sz1 + (USERSTACK + 1) * PGSIZE) % 2 ^ 64) Flags.W m1 =
      .ok (sz, t) m' ∧ sz ≠ 0

/-- **`kexec` with a program that can be loaded.** -/
theorem kexec_argv {namei : List UInt8 → Option Exe} (h : Inv m (p.pagetable :: ts) ks)
    (hfew : ts.length + 2 < 2 ^ 15) (hp : p.Ok trampoline)
    (hload : Loads namei trampoline p path m sz) (hargs : ∀ a ∈ argv, a.length < PGSIZE ∧ 0 ∉ a)
    (hmax : argv.length < MAXARG) :
    (∃ n, sz = (n + 2) * PGSIZE) ∧
      (kexec namei trampoline p path argv m).Returns (ArgvEnd argv sz) := by
  obtain ⟨f, t0, m0, t1, sz1, m1, t2, m2, hf, hexec, hlen, hmagic, hproc, hprog, hstack, hne⟩ :=
    hload
  obtain ⟨-, hinv0, hnew, -⟩ := (procPagetable_sat h hfew trampoline p.frame).of_ok hproc
  have himg0 : Image m0 t0 (p.pagetable :: ts) ks trampoline p.frame 0 := by
    refine ⟨hinv0, hnew.fits, fun v hv e he => ?_⟩
    rw [hnew.fits.above (by rw [pages_zero]; omega) hv] at he
    cases he
  have hempty : t0.Loaded (pages 0) := fun v hv => by
    rw [pages_zero] at hv
    omega
  obtain ⟨himg1, hld1, -⟩ := (loadProgram_sat _ himg0 hempty).of_ok hprog
  obtain ⟨-, hres⟩ := (stackPages_sat himg1 hld1).of_ok hstack
  unfold kexec
  rw [hf]
  simp only [hexec, hlen, hmagic, ne_eq, not_true_eq_false, if_false, Bool.false_eq_true]
  rw [bind_ok hproc]
  dsimp only
  rw [bind_ok hprog]
  simp only [if_neg (by simp : ¬ true = false)]
  unfold kexecStack
  rw [bind_ok hstack]
  dsimp only
  rw [if_neg hne]
  rcases hres with ⟨he, -⟩ | ⟨n, he, himg2, hguard, hst⟩
  · exact absurd he hne
  · have he : sz = (n + 2) * PGSIZE := he
    subst he
    exact ⟨⟨n, rfl⟩, kexecCommit_argv himg2 hguard hst hp hargs hmax⟩

/-! ## 4. From `sys_exec` -/

/-- The strings `copyinstr` finds have no zero in them. -/
theorem copyinstrLoop_clean (t : PageTable) (k srcva max : Nat) (dst : List UInt8) (m : Mem)
    (hdst : 0 ∉ dst) :
    (copyinstrLoop t k srcva max dst m).Returns fun o _ => ∀ s, o = some s → 0 ∉ s := by
  induction k generalizing srcva max dst with
  | zero => exact nofun
  | succ k ih =>
    unfold copyinstrLoop
    split
    · exact nofun
    · dsimp only
      cases t.walkaddr (pgrounddown srcva) with
      | none => exact nofun
      | some pa =>
        dsimp only
        rw [gets_bind]
        split
        · rintro _ ⟨⟩ hin
          rcases List.mem_append.mp hin with hin | hin
          · exact hdst hin
          · exact absurd (List.mem_takeWhile_imp hin) (by decide)
        · rename_i h0
          exact ih _ _ _ fun hin => (List.mem_append.mp hin).elim hdst h0

/-- The arguments `sys_exec` passes on are fewer than `MAXARG`, without zeros. -/
theorem fetchArgv_clean {uargv : Nat} (n : Nat) (p : Proc) (argv : List (List UInt8))
    (pages : List Nat) (m : Mem) (hargv : ∀ a ∈ argv, 0 ∉ a) :
    (fetchArgv uargv n p argv pages m).Sat
      (fun r _ => ∀ l, r.1 = some l → l.length < argv.length + n ∧ ∀ a ∈ l, 0 ∉ a)
      fun _ _ => True := by
  induction n generalizing p m argv pages with
  | zero => exact nofun
  | succ n ih =>
    refine (Outcome.sat_true _).bind fun r m1 _ => ?_
    obtain ⟨uarg, p1⟩ := r
    dsimp only
    split
    · exact nofun
    · rintro _ ⟨⟩
      exact ⟨by omega, hargv⟩
    · refine (Outcome.sat_true _).bind fun o m2 _ => ?_
      cases o with
      | none => exact nofun
      | some page =>
        refine ((copyinstrLoop_clean _ _ _ _ [] m2 List.not_mem_nil).mono
          (fun _ _ h => h) fun _ _ _ => trivial).bind fun o m3 hclean => ?_
        cases o with
        | none => exact nofun
        | some arg =>
          refine (Outcome.sat_true _).bind fun _ m4 _ => ?_
          refine (ih p1 (argv ++ [arg]) _ m4 fun a ha => ?_).imp fun r m5 hl l e => ?_
          · rcases List.mem_append.mp ha with ha | ha
            · exact hargv a ha
            · rw [List.mem_singleton.mp ha]
              exact hclean arg rfl
          · obtain ⟨hlen, hall⟩ := hl l e
            rw [List.length_append, List.length_singleton] at hlen
            exact ⟨by omega, hall⟩

end

/-- **No subtraction from the stack pointer goes below zero**, from `sp` on for the strings `argv` and
    then the array of `argc + 1` addresses: the loop goes on only above `base`. -/
def NoUnderflow (base argc : Nat) : Nat → List (List UInt8) → Prop
  | sp, [] => (argc + 1) * 8 ≤ sp
  | sp, a :: argv => a.length + 1 ≤ sp ∧
      (base ≤ push sp (a.length + 1) → NoUnderflow base argc (push sp (a.length + 1)) argv)

theorem noUnderflow {base argc : Nat} (hbase : PGSIZE ≤ base) (hargc : argc < MAXARG)
    (argv : List (List UInt8)) {sp : Nat} (hsp : base ≤ sp) (hargs : ∀ a ∈ argv, a.length < PGSIZE) :
    NoUnderflow base argc sp argv := by
  have hargc : argc < 32 := hargc
  induction argv generalizing sp with
  | nil =>
    show (argc + 1) * 8 ≤ sp
    simp only [PGSIZE] at hbase
    omega
  | cons a argv ih =>
    have := hargs a List.mem_cons_self
    exact ⟨by omega, fun h => ih h fun b hb => hargs b (List.mem_cons_of_mem _ hb)⟩

/-- **`exec` delivers the arguments.** For all that `sys_exec` accepts and a program that can be loaded,
    `kexec` returns, fails exactly when strings and array do not fit into the stack pages, and
    otherwise the process finds them there. -/
theorem exec_delivers {s : Sys} {i : Fin NPROC} {p p1 : Proc} {uargv sz : Nat}
    {argv : List (List UInt8)} {bufs : List Nat} {m : Mem} (h : Reached s) (hi : s.proc i = .used p)
    (hargv : fetchArgv uargv MAXARG p [] [] s.mem = .ok (some argv, bufs, p1) m)
    {namei : List UInt8 → Option Exe} {path : List UInt8}
    (hload : Loads namei s.trampoline p1 path m sz) :
    NoUnderflow (sz - USERSTACK * PGSIZE) argv.length sz argv ∧
      (kexec namei s.trampoline p1 path argv m).Sat (ArgvEnd argv sz) fun _ _ => False := by
  have hok := sysOk_reached h
  have hfront := hok.front (i := i) (p := p) (by rw [hi]; rfl)
  have hp := hok.ok i p (by rw [hi]; rfl)
  have hf := (fetchArgv_start hfront hp).of_ok hargv
  obtain ⟨hlen, hclean⟩ := (fetchArgv_clean MAXARG p [] [] s.mem
    fun a ha => absurd ha List.not_mem_nil).of_ok hargv argv rfl
  rw [List.length_nil, Nat.zero_add] at hlen
  have hshort := hf.short argv rfl
  obtain ⟨⟨n, rfl⟩, hend⟩ := kexec_argv hf.inv (few_without _ _) hf.ok hload
    (fun a ha => ⟨hshort a ha, hclean a ha⟩) hlen
  refine ⟨noUnderflow ?_ hlen argv (Nat.sub_le _ _) hshort, hend⟩
  show 4096 ≤ (n + 2) * 4096 - 1 * 4096
  omega

/-- A program without segments. -/
def emptyProgram : Exe := ⟨false, [0x7f, 0x45, 0x4c, 0x46] ++ List.replicate 60 0⟩

/-- The first process passes one argument of one byte to a program without segments. -/
theorem exec_delivers_small : ∃ s p p1 bufs m, Reached s ∧ s.proc small.initproc = .used p ∧
    fetchArgv 0 MAXARG p [] [] s.mem = .ok (some [[65]], bufs, p1) m ∧
    Loads (fun _ => some emptyProgram) s.trampoline p1 [] m 8192 ∧
    (kexec (fun _ => some emptyProgram) s.trampoline p1 [] [[65]] m).Sat (ArgvEnd [[65]] 8192)
      fun _ _ => False := by
  have hrun : ((after perform small [(small.initproc, .sbrk 4096 true),
      (small.initproc, .store 0 16), (small.initproc, .store 16 65)]).any fun s =>
      (s.proc small.initproc).test fun p =>
        (fetchArgv 0 MAXARG p [] [] s.mem).test fun r m => decide (r.1 = some [[65]]) &&
          (procPagetable s.trampoline r.2.2.frame m).test fun o m0 => o.any fun t0 =>
            (loadProgram emptyProgram 0 0 t0 0 m0).test fun x m1 =>
              decide (x.1 = true ∧ x.2.2 = 0) &&
                (uvmalloc x.2.1 0 8192 Flags.W m1).test fun y _ => decide (y.1 = 8192)) = true := by
    decide +kernel
  obtain ⟨s, p, hr, hp, hq⟩ := small_reaches hrun
  obtain ⟨⟨argv, bufs, p1⟩, m, hf, hq⟩ := Outcome.exists_of_test hq
  obtain ⟨hargv, hq⟩ := Bool.and_eq_true_iff.mp hq
  cases of_decide_eq_true hargv
  obtain ⟨o, m0, hproc, hq⟩ := Outcome.exists_of_test hq
  obtain ⟨t0, rfl, hload⟩ := (Option.any_eq_true _ _).mp hq
  obtain ⟨⟨ok, t1, sz⟩, m1, hprog, hq⟩ := Outcome.exists_of_test hload
  obtain ⟨hok, hq⟩ := Bool.and_eq_true_iff.mp hq
  obtain ⟨rfl, rfl⟩ := of_decide_eq_true hok
  obtain ⟨⟨top, t2⟩, m2, hstack, htop⟩ := Outcome.exists_of_test hq
  cases of_decide_eq_true htop
  have hload : Loads (fun _ => some emptyProgram) s.trampoline p1 [] m 8192 :=
    ⟨emptyProgram, t0, m0, t1, 0, m1, t2, m2, rfl, rfl, by decide, by decide, hproc, hprog,
      hstack, by decide⟩
  exact ⟨s, p, p1, bufs, m, hr, hp, hf, hload, (exec_delivers hr hp hf hload).2⟩

end HaiOS.Vm
