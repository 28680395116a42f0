/-
  File:      HaiOS/Vm/Strings.lean
  Subject:   copyinstr AGAINST THE MEMORY A PROCESS SEES.

  `copyin` and the process itself find zeros in a page below the break that is not there yet.
  `copyinstr` asks `walkaddr` alone, and finds no page.

  * `Priv.StringAt` -- the string that private memory has at an address;
  * `copyinstr_finds` -- `copyinstr` finds the string of a private memory in which no page is still
    to come;
  * `copyinstr_agrees_iff` -- so it agrees with what the process sees exactly when no such page is in
    its way; `copyinstr_lazy` -- a process for which one is.
-/
import HaiOS.Vm.Copies

namespace HaiOS.Vm

open Lib Lib.Routine

/-! ## 1. Strings in private memory -/

namespace Priv

variable {s : Priv} {srcva max : Nat} {xs bs : List UInt8}

/-- **The string at `srcva`**, its terminating zero among the first `max` bytes, in pages that user
    code may read. -/
def StringAt (s : Priv) (srcva max : Nat) (bs : List UInt8) : Prop :=
  bs.length < max ∧ 0 ∉ bs ∧ s.Read srcva (bs ++ [0])

theorem Read.left {ys : List UInt8} (h : s.Read srcva (xs ++ ys)) : s.Read srcva xs where
  byte := fun i hi => by
    rw [← List.getElem?_append_left hi]
    exact h.byte i (by rw [List.length_append]; omega)
  could := fun i hi => h.could i (by rw [List.length_append]; omega)

theorem Read.right {ys : List UInt8} (h : s.Read srcva (xs ++ ys)) :
    s.Read (srcva + xs.length) ys where
  byte := fun i hi => by
    have := h.byte (xs.length + i) (by rw [List.length_append]; omega)
    rwa [List.getElem?_append_right (Nat.le_add_right _ _), Nat.add_sub_cancel_left,
      ← Nat.add_assoc] at this
  could := fun i hi => by
    have := h.could (xs.length + i) (by rw [List.length_append]; omega)
    rwa [← Nat.add_assoc] at this

/-- Two readings of one place agree as far as both go. -/
theorem Read.agree (h : s.Read srcva xs) (h' : s.Read srcva bs) {i : Nat} (hi : i < xs.length)
    (hi' : i < bs.length) : xs[i]? = bs[i]? := by
  rw [h.byte i hi, h'.byte i hi']

theorem Read.prefix_of_le (h : s.Read srcva xs) (h' : s.Read srcva bs) (hle : xs.length ≤ bs.length) :
    xs <+: bs := by
  refine ( List.prefix_iff_eq_take).mpr (List.ext_getElem? fun i => ?_)
  by_cases hi : i < xs.length
  · rw [h.agree h' hi (by omega), List.getElem?_take_of_lt hi]
  · rw [List.getElem?_eq_none (by omega),
      List.getElem?_eq_none (by rw [List.length_take]; omega)]

/-- The same pages, the same bytes. -/
theorem Read.of_seen {s' : Priv} (h : s.Read srcva bs)
    (hs : ∀ i < bs.length, s'.seen ((srcva + i) / PGSIZE) = s.seen ((srcva + i) / PGSIZE)) :
    s'.Read srcva bs where
  byte := fun i hi => by rw [h.byte i hi, Priv.byte, Priv.byte, hs i hi]
  could := fun i hi => by
    rw [hs i hi]
    exact h.could i hi

/-- A string does not end before a stretch without zeros does. -/
theorem StringAt.length_le (h : s.StringAt srcva max bs) (hr : s.Read srcva xs) (h0 : 0 ∉ xs) :
    xs.length ≤ bs.length := by
  by_contra hlt
  have hat := h.2.2.agree hr (i := bs.length) (by simp) (by omega)
  rw [List.getElem?_append_right (Nat.le_refl _), Nat.sub_self] at hat
  exact h0 (List.mem_of_getElem? hat.symm)

theorem StringAt.unique (h : s.StringAt srcva max xs) (h' : s.StringAt srcva max bs) : xs = bs := by
  have hx := h'.length_le h.2.2.left h.2.1
  have hb := h.length_le h'.2.2.left h'.2.1
  exact (h.2.2.left.prefix_of_le h'.2.2.left hx).eq_of_length (by omega)

/-- **After a stretch without zeros the string goes on.** -/
theorem stringAt_append (hr : s.Read srcva xs) (h0 : 0 ∉ xs) (hlen : xs.length ≤ max) :
    s.StringAt srcva max bs ↔
      ∃ ys, bs = xs ++ ys ∧ s.StringAt (srcva + xs.length) (max - xs.length) ys := by
  constructor
  · intro h
    obtain ⟨ys, rfl⟩ := hr.prefix_of_le h.2.2.left (h.length_le hr h0)
    obtain ⟨hlt, hno, hread⟩ := h
    rw [List.length_append] at hlt
    rw [List.append_assoc] at hread
    exact ⟨ys, rfl, by omega, fun hin => hno (List.mem_append_right _ hin), hread.right⟩
  · rintro ⟨ys, rfl, hlt, hno, hread⟩
    refine ⟨by rw [List.length_append]; omega, fun hin => ?_, ?_⟩
    · exact (List.mem_append.mp hin).elim h0 hno
    · rw [List.append_assoc]
      exact hr.append hread

/-- **In a stretch with a zero the string ends.** -/
theorem stringAt_takeWhile (hr : s.Read srcva xs) (h0 : 0 ∈ xs) (hlen : xs.length ≤ max) :
    s.StringAt srcva max (xs.takeWhile (· ≠ 0)) := by
  have hlt := length_takeWhile_lt h0
  refine ⟨by omega, fun hin => absurd (List.mem_takeWhile_imp hin) (by decide), ?_⟩
  -- the zero is the first byte that is dropped
  obtain ⟨b, rest, hrest⟩ : ∃ b rest, xs.dropWhile (· ≠ 0) = b :: rest := by
    refine List.exists_cons_of_ne_nil fun hnil => ?_
    have hall := List.takeWhile_append_dropWhile (p := fun b : UInt8 => decide (b ≠ 0)) (l := xs)
    rw [hnil, List.append_nil] at hall
    rw [hall] at hlt
    exact Nat.lt_irrefl _ hlt
  have hb : b = 0 := by
    have hhead := List.head?_dropWhile_not (fun b : UInt8 => decide (b ≠ 0)) xs
    rw [hrest] at hhead
    simpa using hhead
  have hsplit : xs = xs.takeWhile (· ≠ 0) ++ [0] ++ rest := by
    rw [hb] at hrest
    rw [List.append_assoc, List.singleton_append, ← hrest, List.takeWhile_append_dropWhile]
  rw [hsplit] at hr
  exact hr.left

end Priv

/-! ## 2. What `copyinstr` finds -/

section

variable {m : Mem} {t : PageTable} {sz srcva max : Nat}

/-- In a private memory without a break no page is still to come. -/
theorem seen_zero (v : Nat) : (privOf m t 0).seen v = viewOf m.ram t.leaf v := by
  cases hp : viewOf m.ram t.leaf v with
  | some c => exact Priv.seen_some hp
  | none => exact (Priv.seen_none hp).trans (if_neg (Nat.not_lt_zero _))

/-- The bytes of one page, when `walkaddr` finds it. -/
theorem read_page {e : Pte} {n : Nat} (hv : srcva / PGSIZE < USERVPN)
    (hl : t.leaf (srcva / PGSIZE) = some e) (hu : e.flags.u = true)
    (hn : srcva % PGSIZE + n ≤ PGSIZE) :
    (privOf m t 0).Read srcva (slice (m.ram e.ppn) (srcva % PGSIZE) n) := by
  have hin : ∀ i < n, (srcva + i) / PGSIZE = srcva / PGSIZE ∧
      (srcva + i) % PGSIZE = srcva % PGSIZE + (srcva + i - srcva) := fun i hi =>
    Priv.same_page (n := n) (by omega) (by omega) (by omega)
  have hseen : (privOf m t 0).seen (srcva / PGSIZE) = some (e.cell m.ram) := by
    rw [seen_zero, viewOf_some m.ram hv hl]
  refine ⟨fun i hi => ?_, fun i hi => ?_⟩
  · have hi' : i < n := by rwa [length_slice] at hi
    rw [Priv.byte, (hin i hi').1, hseen, Option.map_some, (hin i hi').2,
      List.getElem?_eq_getElem hi, getElem_slice, Nat.add_sub_cancel_left]
    rfl
  · rw [length_slice] at hi
    rw [(hin i hi).1]
    exact ⟨_, hseen, hu⟩

/-- **`walkaddr` finds the pages user code may read.** -/
theorem walkaddr_cases (hwf : t.WF) (hf : t.Fenced) (va : Nat) :
    (t.walkaddr va = none ∧ ∀ c, viewOf m.ram t.leaf (va / PGSIZE) = some c → c.u = false) ∨
      ∃ e, t.walkaddr va = some e.ppn ∧ va / PGSIZE < USERVPN ∧ t.leaf (va / PGSIZE) = some e ∧
        e.flags.u = true := by
  unfold PageTable.walkaddr
  rw [hwf.pte_eq]
  cases hl : t.leaf (va / PGSIZE) with
  | none =>
    refine Or.inl ⟨rfl, fun c hc => ?_⟩
    unfold viewOf at hc
    rw [hl] at hc
    split at hc <;> cases hc
  | some e =>
    by_cases hu : e.flags.u = true
    · have hv : va / PGSIZE < USERVPN := by
        by_contra hge
        rw [(hf _ e (by omega) hl).1] at hu
        cases hu
      exact Or.inr ⟨e, if_pos hu, hv, rfl, hu⟩
    · refine Or.inl ⟨if_neg hu, fun c hc => ?_⟩
      unfold viewOf at hc
      rw [hl] at hc
      split at hc
      · cases hc
        exact Bool.eq_false_iff.mpr hu
      · cases hc

/-- The loop finds the string, or there is none. -/
theorem copyinstrLoop_finds (hwf : t.WF) (hf : t.Fenced) (k srcva max : Nat) (hk : max ≤ k)
    (dst : List UInt8) :
    (∃ bs, copyinstrLoop t k srcva max dst m = .ok (some (dst ++ bs)) m ∧
        (privOf m t 0).StringAt srcva max bs) ∨
      copyinstrLoop t k srcva max dst m = .ok none m ∧
        ∀ bs, ¬ (privOf m t 0).StringAt srcva max bs := by
  induction k generalizing srcva max dst with
  | zero =>
    obtain rfl := Nat.le_zero.mp hk
    exact Or.inr ⟨rfl, fun bs h => absurd h.1 (Nat.not_lt_zero _)⟩
  | succ k ih =>
    unfold copyinstrLoop
    by_cases hmax : max = 0
    · subst hmax
      exact Or.inr ⟨rfl, fun bs h => absurd h.1 (Nat.not_lt_zero _)⟩
    rw [if_neg hmax]
    have hoff : srcva % PGSIZE < PGSIZE := Nat.mod_lt _ (by decide)
    rcases walkaddr_cases (m := m) hwf hf (pgrounddown srcva) with ⟨hwalk, hno⟩ | ⟨e, hwalk, hv, hl, hu⟩
    · rw [hwalk]
      refine Or.inr ⟨rfl, fun bs h => ?_⟩
      obtain ⟨c, hc, hcu⟩ := h.2.2.could 0 (by simp)
      rw [Nat.add_zero, seen_zero, ← pgrounddown_div] at hc
      rw [hno c hc] at hcu
      cases hcu
    · rw [hwalk]
      dsimp only
      rw [gets_bind, sub_pgrounddown]
      rw [pgrounddown_div] at hv hl
      have hmin : min (PGSIZE - srcva % PGSIZE) max ≤ PGSIZE - srcva % PGSIZE ∧
          min (PGSIZE - srcva % PGSIZE) max ≤ max ∧ 0 < min (PGSIZE - srcva % PGSIZE) max ∧
          (min (PGSIZE - srcva % PGSIZE) max = PGSIZE - srcva % PGSIZE ∨
            max - min (PGSIZE - srcva % PGSIZE) max = 0) := by omega
      generalize min (PGSIZE - srcva % PGSIZE) max = n at hmin
      obtain ⟨hpg, hle, hpos, hend⟩ := hmin
      have hread := read_page (m := m) hv hl hu (n := n) (by omega)
      have hlen : (slice (m.ram e.ppn) (srcva % PGSIZE) n).length = n := length_slice ..
      generalize slice (m.ram e.ppn) (srcva % PGSIZE) n = bs at hread hlen
      by_cases h0 : 0 ∈ bs
      · rw [if_pos h0]
        exact Or.inl ⟨_, rfl, Priv.stringAt_takeWhile hread h0 (by omega)⟩
      · rw [if_neg h0]
        -- the rest of the string, in the next page or nowhere
        have hnext : ∀ ys, (privOf m t 0).StringAt (srcva + bs.length) (max - bs.length) ys ↔
            (privOf m t 0).StringAt (pgrounddown srcva + PGSIZE) (max - n) ys := by
          intro ys
          rw [hlen]
          rcases hend with hend | hend
          · have : srcva + n = pgrounddown srcva + PGSIZE := by
              rw [pgrounddown_eq, hend]
              simp only [PGSIZE] at *
              omega
            rw [this]
          · rw [hend]
            exact ⟨fun h => absurd h.1 (Nat.not_lt_zero _), fun h => absurd h.1 (Nat.not_lt_zero _)⟩
        rcases ih (pgrounddown srcva + PGSIZE) (max - n) (by omega) (dst ++ bs) with
          ⟨ys, hrun, hys⟩ | ⟨hrun, hno⟩
        · refine Or.inl ⟨bs ++ ys, by rw [hrun, List.append_assoc], ?_⟩
          exact (Priv.stringAt_append hread h0 (by omega)).mpr ⟨ys, rfl, (hnext ys).mpr hys⟩
        · refine Or.inr ⟨hrun, fun zs hzs => ?_⟩
          obtain ⟨ys, -, hys⟩ := (Priv.stringAt_append hread h0 (by omega)).mp hzs
          exact hno ys ((hnext ys).mp hys)

/-- **`copyinstr` finds the string of the pages that are there.** -/
theorem copyinstr_finds (hwf : t.WF) (hf : t.Fenced) (srcva max : Nat) :
    (∃ o, copyinstr t srcva max m = .ok o m) ∧
      ∀ bs, copyinstr t srcva max m = .ok (some bs) m ↔ (privOf m t 0).StringAt srcva max bs := by
  unfold copyinstr
  rcases copyinstrLoop_finds (m := m) hwf hf max srcva max (Nat.le_refl _) [] with
    ⟨xs, hrun, hxs⟩ | ⟨hrun, hno⟩
  · rw [hrun]
    refine ⟨⟨_, rfl⟩, fun bs => ⟨fun h => ?_, fun h => ?_⟩⟩
    · cases h
      exact hxs
    · rw [h.unique hxs, List.nil_append]
  · rw [hrun]
    exact ⟨⟨_, rfl⟩, fun bs => ⟨(fun h => by cases h), fun h => absurd h (hno bs)⟩⟩

/-! ## 3. What the process sees -/

/-- **No page that is still to come is in the way**: after any bytes other than zero at `srcva`, fewer
    than `max` of them, stands a page of the table or one above the break. -/
def PageTable.Settled (t : PageTable) (m : Mem) (sz srcva max : Nat) : Prop :=
  ∀ bs, bs.length < max → 0 ∉ bs → (privOf m t sz).Read srcva bs →
    t.leaf ((srcva + bs.length) / PGSIZE) = none → sz ≤ (srcva + bs.length) / PGSIZE * PGSIZE

theorem seen_of_leaf {v : Nat} (h : t.leaf v ≠ none) (hv : v < USERVPN) :
    (privOf m t sz).seen v = (privOf m t 0).seen v := by
  rw [seen_zero]
  have hne : viewOf m.ram t.leaf v ≠ none := fun hn => h ((viewOf_none m.ram hv).mp hn)
  obtain ⟨c, hc⟩ := Option.ne_none_iff_exists'.mp hne
  rw [hc]
  exact Priv.seen_some hc

/-- A page that is still to come is seen as zeros. -/
theorem seen_absent {v : Nat} (hs : sz ≤ TRAPFRAME) (hl : t.leaf v = none) (hlt : v * PGSIZE < sz) :
    (privOf m t sz).seen v = some Cell.zero ∧ (privOf m t 0).seen v = none := by
  have hv := vpn_lt hs hlt
  rw [Nat.mul_div_cancel v (by decide)] at hv
  have hpage := (viewOf_none m.ram hv).mpr hl
  refine ⟨?_, by rw [seen_zero, hpage]⟩
  unfold Priv.seen
  rw [show (privOf m t sz).page v = none from hpage]
  exact if_pos hlt

/-- Such a page, or no difference. -/
theorem seen_lazy {v : Nat} (hs : sz ≤ TRAPFRAME) :
    (privOf m t sz).seen v = (privOf m t 0).seen v ∨
      t.leaf v = none ∧ v * PGSIZE < sz ∧ (privOf m t sz).seen v = some Cell.zero ∧
        (privOf m t 0).seen v = none := by
  by_cases hlt : v * PGSIZE < sz
  · have hv : v < USERVPN := by
      have := vpn_lt hs hlt
      rwa [Nat.mul_div_cancel v (by decide)] at this
    by_cases hl : t.leaf v = none
    · exact Or.inr ⟨hl, hlt, seen_absent hs hl hlt⟩
    · exact Or.inl (seen_of_leaf hl hv)
  · refine Or.inl ?_
    rw [seen_zero]
    cases hp : viewOf m.ram t.leaf v with
    | some c => exact Priv.seen_some hp
    | none => exact (Priv.seen_none hp).trans (if_neg hlt)

variable {bs : List UInt8}

variable (hs : sz ≤ TRAPFRAME)
include hs

/-- Bytes other than zero are in pages that are there. -/
theorem read_there (h0 : 0 ∉ bs) (h : (privOf m t sz).Read srcva bs) :
    (privOf m t 0).Read srcva bs := by
  refine h.of_seen fun i hi => ?_
  rcases seen_lazy hs with hsame | ⟨-, -, hz, -⟩
  · exact hsame.symm
  · have hb := h.byte i hi
    rw [Priv.byte, hz] at hb
    exact absurd (List.mem_of_getElem? hb) h0

/-- What is read from pages that are there does not depend on the break. -/
theorem read_mono (h : (privOf m t 0).Read srcva bs) : (privOf m t sz).Read srcva bs := by
  refine h.of_seen fun i hi => ?_
  rcases seen_lazy hs with hsame | ⟨-, -, -, hn⟩
  · exact hsame
  · obtain ⟨c, hc, -⟩ := h.could i hi
    rw [hn] at hc
    cases hc

/-- A page that is still to come ends a string. -/
theorem stringAt_lazy (hmax : bs.length < max) (h0 : 0 ∉ bs)
    (hr : (privOf m t sz).Read srcva bs) (hl : t.leaf ((srcva + bs.length) / PGSIZE) = none)
    (hlt : (srcva + bs.length) / PGSIZE * PGSIZE < sz) :
    (privOf m t sz).StringAt srcva max bs ∧ ¬ (privOf m t 0).StringAt srcva max bs := by
  have hz := seen_absent (m := m) hs hl hlt
  refine ⟨⟨hmax, h0, hr.append ⟨fun i hi => ?_, fun i hi => ?_⟩⟩, fun h => ?_⟩
  · obtain rfl : i = 0 := Nat.lt_one_iff.mp hi
    rw [Nat.add_zero, Priv.byte, hz.1]
    rfl
  · obtain rfl : i = 0 := Nat.lt_one_iff.mp hi
    exact ⟨_, hz.1, rfl⟩
  · obtain ⟨c, hc, -⟩ := h.2.2.could bs.length (by simp)
    rw [hz.2] at hc
    cases hc

/-- **The two strings are the same** unless a page is still to come. -/
theorem stringAt_iff :
    (∀ bs, (privOf m t 0).StringAt srcva max bs ↔ (privOf m t sz).StringAt srcva max bs) ↔
      t.Settled m sz srcva max := by
  constructor
  · intro h bs hmax h0 hr hl
    by_contra hlt
    have hstr := stringAt_lazy hs hmax h0 hr hl (Nat.lt_of_not_le hlt)
    exact hstr.2 ((h bs).mpr hstr.1)
  · intro h bs
    refine ⟨fun ⟨hmax, h0, hr⟩ => ⟨hmax, h0, read_mono hs hr⟩, fun ⟨hmax, h0, hr⟩ =>
      ⟨hmax, h0, (read_there hs h0 hr.left).append (hr.right.of_seen fun i hi => ?_)⟩⟩
    obtain rfl : i = 0 := Nat.lt_one_iff.mp hi
    rw [Nat.add_zero]
    rcases seen_lazy hs with hsame | ⟨hl, hlt, -⟩
    · exact hsame.symm
    · have := h bs hmax h0 hr.left hl
      omega

end

/-- **`copyinstr` agrees with what the process sees**, the string at `srcva` or that there is none,
    exactly when no page that is still to come is in its way. -/
theorem copyinstr_agrees_iff {s : Sys} {i : Fin NPROC} {p : Proc} (h : Reached s)
    (hi : s.proc i = .used p) (srcva max : Nat) :
    (∃ o, copyinstr p.pagetable srcva max s.mem = .ok o s.mem ∧
      ∀ bs, o = some bs ↔ (privOf s.mem p.pagetable p.sz).StringAt srcva max bs) ↔
      p.pagetable.Settled s.mem p.sz srcva max := by
  have hok := sysOk_reached h
  have hp : (s.proc i).proc? = some p := by rw [hi]; rfl
  have hfit := hok.ok i p hp
  have hwf := (hok.front hp).wf _ List.mem_cons_self
  obtain ⟨⟨o, hrun⟩, hfinds⟩ := copyinstr_finds (m := s.mem) hwf hfit.fenced srcva max
  have hsome : ∀ bs, o = some bs ↔ (privOf s.mem p.pagetable 0).StringAt srcva max bs := by
    intro bs
    rw [← hfinds bs, hrun]
    exact ⟨fun e => by rw [e], fun e => (Outcome.ok.inj e).1⟩
  rw [← stringAt_iff hfit.size]
  constructor
  · rintro ⟨o', hrun', hagree⟩ bs
    obtain rfl : o = o' := (Outcome.ok.inj (hrun.symm.trans hrun')).1
    rw [← hsome, hagree]
  · intro hsame
    exact ⟨o, hrun, fun bs => (hsome bs).trans (hsame bs)⟩

/-- The break of the first process moved up by a page, lazily or at once. -/
theorem sbrk_small : (∃ s p, Reached s ∧ s.proc small.initproc = .used p ∧ 0 < p.sz ∧
      p.pagetable.leaf 0 = none) ∧
    ∃ s p, Reached s ∧ s.proc small.initproc = .used p ∧ 0 < p.sz ∧ p.pagetable.leaf 0 ≠ none := by
  have hrun : ∀ eager, ((after perform small [(small.initproc, .sbrk 4096 eager)]).any fun s =>
      (s.proc small.initproc).test fun p =>
        decide (0 < p.sz ∧ (p.pagetable.leaf 0).isSome = eager)) = true := by decide +kernel
  have hget : ∀ eager, ∃ s p, Reached s ∧ s.proc small.initproc = .used p ∧ 0 < p.sz ∧
      (p.pagetable.leaf 0).isSome = eager := by
    intro eager
    obtain ⟨s, p, hs, hp, hq⟩ := small_reaches (hrun eager)
    exact ⟨s, p, hs, hp, of_decide_eq_true hq⟩
  obtain ⟨s, p, hs, hp, hz, hl⟩ := hget false
  obtain ⟨s', p', hs', hp', hz', hl'⟩ := hget true
  refine ⟨⟨s, p, hs, hp, hz, ?_⟩, s', p', hs', hp', hz', ?_⟩
  · simpa using hl
  · exact Option.isSome_iff_ne_none.mp hl'

theorem copyinstr_agrees_iff_small : ∃ s p, Reached s ∧ s.proc small.initproc = .used p ∧
    ((∃ o, copyinstr p.pagetable 0 MAXPATH s.mem = .ok o s.mem ∧
      ∀ bs, o = some bs ↔ (privOf s.mem p.pagetable p.sz).StringAt 0 MAXPATH bs) ↔
      p.pagetable.Settled s.mem p.sz 0 MAXPATH) := by
  obtain ⟨s, p, hs, hp, -⟩ := sbrk_small.2
  exact ⟨s, p, hs, hp, copyinstr_agrees_iff hs hp 0 MAXPATH⟩

/-- **The empty string in a page that is still to come**: it is there for the process, and
    `copyinstr` returns -1. -/
theorem copyinstr_lazy : ∃ s p, Reached s ∧ s.proc small.initproc = .used p ∧
    (privOf s.mem p.pagetable p.sz).StringAt 0 MAXPATH [] ∧
    copyinstr p.pagetable 0 MAXPATH s.mem = .ok none s.mem := by
  obtain ⟨s, p, hs, hp, hz, hl⟩ := sbrk_small.1
  have hok := sysOk_reached hs
  have hpr : (s.proc small.initproc).proc? = some p := by rw [hp]; rfl
  have hfit := hok.ok _ p hpr
  have hstr : (privOf s.mem p.pagetable p.sz).StringAt 0 MAXPATH [] ∧
      ¬ (privOf s.mem p.pagetable 0).StringAt 0 MAXPATH [] :=
    stringAt_lazy hfit.size (by decide) List.not_mem_nil ⟨nofun, nofun⟩ hl hz
  obtain ⟨⟨o, hrun⟩, hfinds⟩ := copyinstr_finds (m := s.mem)
    ((hok.front hpr).wf _ List.mem_cons_self) hfit.fenced 0 MAXPATH
  refine ⟨s, p, hs, hp, hstr.1, ?_⟩
  cases o with
  | none => exact hrun
  | some bs =>
    -- another string would be one of the process, too
    have hbs := (hfinds bs).mp hrun
    have hmore : (privOf s.mem p.pagetable p.sz).StringAt 0 MAXPATH bs :=
      ⟨hbs.1, hbs.2.1, read_mono hfit.size hbs.2.2⟩
    rw [hmore.unique hstr.1] at hbs
    exact absurd hbs hstr.2

end HaiOS.Vm
