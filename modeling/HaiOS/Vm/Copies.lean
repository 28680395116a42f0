/-
  File:      HaiOS/Vm/Copies.lean
  Subject:   copyout AND copyin ARE EXACT, and inverse to each other.

  Vm/Faults has them as copies to and from private memory unless memory ran out at some time. Here a
  copy that returns 0 is one, whatever happened before it; and no copy, whatever it returns, gets at
  more than free pages and pages with `PTE_U`.

  * `Priv.seen`, `Priv.byte` -- private memory with the pages that are not there yet;
    `Priv.copyoutLoop_wrote`, `Priv.copyinLoop_read` -- what the copies do to it, byte by byte;
  * `Only S` -- a routine writes to the pages of `S` alone, from which the free list also comes;
  * `Got`, `Copied` -- what holds after any access of a copy, and after any copy;
  * `Spared`, `copies_exact` -- the copies of a process.
-/
import HaiOS.Vm.Reached

namespace HaiOS.Vm

open Lib Lib.Routine Function

/-! ## 1. Copies of private memory, byte by byte -/

namespace Priv

variable {s s' : Priv} {v va : Nat}

/-- The page `v`: one below the break that is not there yet has zeros. -/
def seen (s : Priv) (v : Nat) : Option Cell :=
  match s.page v with
  | some c => some c
  | none => if v * PGSIZE < s.sz then some Cell.zero else none

/-- The byte at `va`. -/
def byte (s : Priv) (va : Nat) : Option UInt8 :=
  (s.seen (va / PGSIZE)).map fun c => c.data (va % PGSIZE)

theorem seen_some {c : Cell} (h : s.page v = some c) : s.seen v = some c := by
  rw [seen, h]

theorem seen_none (h : s.page v = none) :
    s.seen v = if v * PGSIZE < s.sz then some Cell.zero else none := by
  rw [seen, h]

/-- After a fault the page is there. -/
theorem page_fault (s : Priv) (v : Nat) : (s.fault (v * PGSIZE)).page v = s.seen v := by
  have hdiv : v * PGSIZE / PGSIZE = v := Nat.mul_div_cancel v (by decide)
  rw [fault, hdiv, seen]
  cases hp : s.page v with
  | some c =>
    rw [if_neg (by simp)]
    exact hp
  | none =>
    by_cases hlt : v * PGSIZE < s.sz
    · rw [if_pos ⟨hlt, rfl⟩, if_pos hlt]
      exact update_self ..
    · rw [if_neg (fun h => hlt h.1), if_neg hlt]
      exact hp

theorem page_fault_ne {w : Nat} (hw : w ≠ v) : (s.fault (v * PGSIZE)).page w = s.page w := by
  have hdiv : v * PGSIZE / PGSIZE = v := Nat.mul_div_cancel v (by decide)
  rw [fault, hdiv]
  split
  · exact update_of_ne hw ..
  · rfl

theorem sz_fault (s : Priv) (va : Nat) : (s.fault va).sz = s.sz := by
  unfold fault
  split <;> rfl

/-- A fault changes nothing that can be seen. -/
theorem seen_fault (s : Priv) (v w : Nat) : (s.fault (v * PGSIZE)).seen w = s.seen w := by
  rcases eq_or_ne w v with rfl | hw
  · have hp := page_fault s w
    unfold seen at hp ⊢
    rw [hp, sz_fault]
    cases s.page w with
    | some c => rfl
    | none => by_cases hlt : w * PGSIZE < s.sz <;> simp [hlt]
  · unfold seen
    rw [page_fault_ne hw, sz_fault]

/-- What an access to page `v` finds. -/
theorem touch_page (s : Priv) (write : Bool) (v : Nat) : s.touch write (v * PGSIZE) =
    (match s.seen v with
      | none => none
      | some c => if c.u = true ∧ (write = true → c.w = true) then some c else none,
      s.fault (v * PGSIZE)) := by
  have hdiv : v * PGSIZE / PGSIZE = v := Nat.mul_div_cancel v (by decide)
  rewrite [touch, find, hdiv, page_fault]
  rfl

/-- Bytes put into page `v`. -/
theorem seen_put (s : Priv) (va : Nat) (c : Cell) (bs : List UInt8) (w : Nat) :
    (s.put va c bs).seen w =
      if w = va / PGSIZE then some { c with data := patch c.data (va % PGSIZE) bs }
      else s.seen w := by
  unfold seen put setPage
  dsimp only
  by_cases hw : w = va / PGSIZE
  · rw [hw, update_self, if_pos rfl]
  · rw [update_of_ne hw, if_neg hw]

/-- **What a copy to user memory has done.** -/
structure Wrote (s s' : Priv) (dstva : Nat) (src : List UInt8) : Prop where
  byte : ∀ va, s'.byte va =
    if dstva ≤ va ∧ va < dstva + src.length then src[va - dstva]? else s.byte va
  /-- every page of the range could be written -/
  could : ∀ va, dstva ≤ va → va < dstva + src.length →
    ∃ c, s.seen (va / PGSIZE) = some c ∧ c.u = true ∧ c.w = true
  /-- and is there now -/
  there : ∀ va, dstva ≤ va → va < dstva + src.length →
    ∃ c, s'.page (va / PGSIZE) = some c ∧ c.u = true
  keep : ∀ v c, s.page v = some c → ∃ c', s'.page v = some c' ∧ c'.u = c.u

theorem Wrote.nil (s : Priv) (dstva : Nat) : s.Wrote s dstva [] where
  byte := fun va => by rw [List.length_nil, if_neg (by omega)]
  could := fun va _ h2 => absurd h2 (by rw [List.length_nil]; omega)
  there := fun va _ h2 => absurd h2 (by rw [List.length_nil]; omega)
  keep := fun v c hc => ⟨c, hc, rfl⟩

variable {dstva : Nat} {xs ys bs : List UInt8}

/-- The bytes of one range, then those of the next. -/
theorem Wrote.append {s₁ s₂ : Priv} (h : s.Wrote s₁ dstva xs)
    (h' : s₁.Wrote s₂ (dstva + xs.length) ys)
    (hperm : ∀ v c, s₁.seen v = some c → ∃ c', s.seen v = some c' ∧ c'.u = c.u ∧ c'.w = c.w) :
    s.Wrote s₂ dstva (xs ++ ys) where
  byte := fun va => by
    rw [h'.byte, h.byte, List.length_append]
    by_cases hx : dstva ≤ va ∧ va < dstva + xs.length
    · rw [if_neg (by omega), if_pos hx, if_pos (by omega),
        List.getElem?_append_left (by omega)]
    · rw [if_neg hx]
      by_cases hy : dstva + xs.length ≤ va ∧ va < dstva + xs.length + ys.length
      · rw [if_pos hy, if_pos (by omega), List.getElem?_append_right (by omega),
          Nat.sub_sub]
      · rw [if_neg hy, if_neg (by omega)]
  could := fun va h1 h2 => by
    rw [List.length_append] at h2
    by_cases hx : va < dstva + xs.length
    · exact h.could va h1 hx
    · obtain ⟨c, hc, hu, hw⟩ := h'.could va (by omega) (by omega)
      obtain ⟨c', hc', hu', hw'⟩ := hperm _ c hc
      exact ⟨c', hc', hu'.trans hu, hw'.trans hw⟩
  there := fun va h1 h2 => by
    rw [List.length_append] at h2
    by_cases hx : va < dstva + xs.length
    · obtain ⟨c, hc, hu⟩ := h.there va h1 hx
      obtain ⟨c', hc', hu'⟩ := h'.keep _ c hc
      exact ⟨c', hc', hu'.trans hu⟩
    · exact h'.there va (by omega) (by omega)
  keep := fun v c hc => by
    obtain ⟨c₁, hc₁, hu₁⟩ := h.keep v c hc
    obtain ⟨c₂, hc₂, hu₂⟩ := h'.keep v c₁ hc₁
    exact ⟨c₂, hc₂, hu₂.trans hu₁⟩

theorem same_page {a n : Nat} (hn : a % PGSIZE + n ≤ PGSIZE) (h1 : a ≤ va) (h2 : va < a + n) :
    va / PGSIZE = a / PGSIZE ∧ va % PGSIZE = a % PGSIZE + (va - a) := by
  simp only [PGSIZE] at *
  omega

/-- An access that was let through. -/
theorem touch_some {write : Bool} {c : Cell} {s₁ : Priv}
    (h : s.touch write (v * PGSIZE) = (some c, s₁)) :
    s₁ = s.fault (v * PGSIZE) ∧ s.seen v = some c ∧ c.u = true ∧ (write = true → c.w = true) := by
  rw [touch_page] at h
  obtain ⟨hfind, rfl⟩ := Prod.mk.inj h
  refine ⟨rfl, ?_⟩
  split at hfind
  · cases hfind
  · rename_i c' hc
    split at hfind
    · rename_i hok
      cases hfind
      exact ⟨hc, hok⟩
    · cases hfind

/-- **One page of a copy.** -/
theorem wrote_page {c : Cell} (hseen : s.seen (dstva / PGSIZE) = some c) (hu : c.u = true)
    (hw : c.w = true) (hlen : dstva % PGSIZE + bs.length ≤ PGSIZE) :
    s.Wrote ((s.fault (dstva / PGSIZE * PGSIZE)).put dstva c bs) dstva bs where
  byte := fun va => by
    rw [byte, byte, seen_put, seen_fault]
    by_cases hin : dstva ≤ va ∧ va < dstva + bs.length
    · obtain ⟨hv, ho⟩ := same_page hlen hin.1 hin.2
      have hin' : dstva % PGSIZE + (va - dstva) - dstva % PGSIZE < bs.length := by omega
      rw [if_pos hin, if_pos hv, Option.map_some, ho]
      show some (patch c.data (dstva % PGSIZE) bs _) = _
      rw [patch_in (Nat.le_add_right _ _) hin', List.getElem?_eq_getElem (by omega)]
      simp only [Nat.add_sub_cancel_left]
    · rw [if_neg hin]
      by_cases hv : va / PGSIZE = dstva / PGSIZE
      · have hout : va % PGSIZE < dstva % PGSIZE ∨ dstva % PGSIZE + bs.length ≤ va % PGSIZE := by
          simp only [PGSIZE] at *
          omega
        rw [if_pos hv, hv, hseen, Option.map_some, Option.map_some]
        exact congrArg some (patch_out hout)
      · rw [if_neg hv]
  could := fun va h1 h2 => by
    rw [(same_page hlen h1 h2).1]
    exact ⟨c, hseen, hu, hw⟩
  there := fun va h1 h2 => by
    rw [(same_page hlen h1 h2).1]
    exact ⟨_, update_self .., hu⟩
  keep := fun w c' hc' => by
    by_cases hv : w = dstva / PGSIZE
    · subst hv
      rw [seen_some hc'] at hseen
      cases hseen
      exact ⟨_, update_self .., rfl⟩
    · refine ⟨c', ?_, rfl⟩
      rw [← hc', ← page_fault_ne (s := s) hv]
      exact update_of_ne hv ..

theorem copyoutLoop_wrote (k : Nat) {s : Priv} {src : List UInt8} (hk : src.length ≤ k)
    (h : copyoutLoop k s dstva src = (true, s')) :
    s.Wrote s' dstva src := by
  induction k generalizing s dstva src with
  | zero =>
    obtain rfl := List.length_eq_zero_iff.mp (Nat.le_zero.mp hk)
    cases h
    exact .nil _ _
  | succ k ih =>
    unfold copyoutLoop at h
    split at h
    · rename_i hsrc
      subst hsrc
      cases h
      exact .nil _ _
    rename_i hsrc
    have hpos : 0 < src.length := List.length_pos_iff.mpr hsrc
    have hoff : dstva % PGSIZE < PGSIZE := Nat.mod_lt _ (by decide)
    split at h
    · cases h
    rename_i c s₁ htouch
    obtain ⟨rfl, hseen, hu, hw⟩ := touch_some htouch
    dsimp only at h
    have hmin : min (PGSIZE - dstva % PGSIZE) src.length ≤ PGSIZE - dstva % PGSIZE ∧
        0 < min (PGSIZE - dstva % PGSIZE) src.length ∧
        (min (PGSIZE - dstva % PGSIZE) src.length = PGSIZE - dstva % PGSIZE ∨
          src.length ≤ min (PGSIZE - dstva % PGSIZE) src.length) := by omega
    generalize min (PGSIZE - dstva % PGSIZE) src.length = n at h hmin
    obtain ⟨hle, hn0, hend⟩ := hmin
    have htake : (src.take n).length ≤ n := by
      rw [List.length_take]
      omega
    have hfirst : s.Wrote ((s.fault (dstva / PGSIZE * PGSIZE)).put dstva c (src.take n)) dstva
        (src.take n) := wrote_page hseen hu (hw rfl) (by omega)
    have hperm : ∀ v c', ((s.fault (dstva / PGSIZE * PGSIZE)).put dstva c (src.take n)).seen v =
        some c' → ∃ c₀, s.seen v = some c₀ ∧ c₀.u = c'.u ∧ c₀.w = c'.w := by
      intro v c' hc'
      rw [seen_put, seen_fault] at hc'
      split at hc'
      · rename_i hv
        cases hc'
        exact ⟨c, hv ▸ hseen, rfl, rfl⟩
      · exact ⟨c', hc', rfl, rfl⟩
    have hrest := ih (by rw [List.length_drop]; omega) h
    rw [← List.take_append_drop n src]
    refine hfirst.append ?_ hperm
    -- the next page, if the bytes do not end here
    rcases hend with hend | hend
    · by_cases hlen : n ≤ src.length
      · have hnext : dstva + (src.take n).length = dstva / PGSIZE * PGSIZE + PGSIZE := by
          rw [List.length_take, Nat.min_eq_left hlen, hend]
          simp only [PGSIZE] at *
          omega
        rw [hnext]
        exact hrest
      · rw [List.drop_eq_nil_of_le (by omega)] at h ⊢
        cases k <;> (cases h; exact .nil _ _)
    · rw [List.drop_eq_nil_of_le hend] at h ⊢
      cases k <;> (cases h; exact .nil _ _)

/-- **What a copy from user memory has read**: the bytes, all of them in pages user code may read. -/
structure Read (s : Priv) (srcva : Nat) (bs : List UInt8) : Prop where
  byte : ∀ i < bs.length, bs[i]? = s.byte (srcva + i)
  could : ∀ i < bs.length, ∃ c, s.seen ((srcva + i) / PGSIZE) = some c ∧ c.u = true

theorem Read.append {srcva : Nat} (h : s.Read srcva xs) (h' : s.Read (srcva + xs.length) ys) :
    s.Read srcva (xs ++ ys) where
  byte := fun i hi => by
    rw [List.length_append] at hi
    by_cases hx : i < xs.length
    · rw [List.getElem?_append_left hx, h.byte i hx]
    · rw [List.getElem?_append_right (by omega), h'.byte _ (by omega)]
      congr 1
      omega
  could := fun i hi => by
    rw [List.length_append] at hi
    by_cases hx : i < xs.length
    · exact h.could i hx
    · have := h'.could (i - xs.length) (by omega)
      rwa [show srcva + xs.length + (i - xs.length) = srcva + i by omega] at this

theorem copyinLoop_read (k : Nat) (s : Priv) (srcva len : Nat) (dst : List UInt8) (hk : len ≤ k)
    (h : copyinLoop k s srcva len dst = (some bs, s')) :
    ∃ xs, bs = dst ++ xs ∧ xs.length = len ∧ s.Read srcva xs ∧ ∀ v, s'.seen v = s.seen v := by
  have hnil : ∀ {s : Priv} {srcva : Nat}, s.Read srcva [] := ⟨nofun, nofun⟩
  induction k generalizing s srcva len dst with
  | zero =>
    obtain rfl := Nat.le_zero.mp hk
    cases h
    exact ⟨[], (List.append_nil _).symm, rfl, hnil, fun _ => rfl⟩
  | succ k ih =>
    unfold copyinLoop at h
    split at h
    · rename_i hlen
      cases h
      exact ⟨[], (List.append_nil _).symm, hlen.symm, hnil, fun _ => rfl⟩
    rename_i hlen
    have hoff : srcva % PGSIZE < PGSIZE := Nat.mod_lt _ (by decide)
    split at h
    · cases h
    rename_i c s₁ htouch
    obtain ⟨rfl, hseen, hu, -⟩ := touch_some htouch
    dsimp only at h
    have hmin : min (PGSIZE - srcva % PGSIZE) len ≤ PGSIZE - srcva % PGSIZE ∧
        0 < min (PGSIZE - srcva % PGSIZE) len ∧ min (PGSIZE - srcva % PGSIZE) len ≤ len ∧
        (min (PGSIZE - srcva % PGSIZE) len = PGSIZE - srcva % PGSIZE ∨
          len - min (PGSIZE - srcva % PGSIZE) len = 0) := by omega
    generalize min (PGSIZE - srcva % PGSIZE) len = n at h hmin
    obtain ⟨hle, hn0, hnl, hend⟩ := hmin
    have hfirst : s.Read srcva (slice c.data (srcva % PGSIZE) n) := by
      have hin : ∀ i < n, (srcva + i) / PGSIZE = srcva / PGSIZE ∧
          (srcva + i) % PGSIZE = srcva % PGSIZE + (srcva + i - srcva) := fun i hi =>
        same_page (n := n) (by omega) (by omega) (by omega)
      refine ⟨fun i hi => ?_, fun i hi => ?_⟩ <;> rw [length_slice] at hi
      · rw [byte, (hin i hi).1, hseen, Option.map_some, (hin i hi).2,
          List.getElem?_eq_getElem (by rw [length_slice]; exact hi), getElem_slice,
          Nat.add_sub_cancel_left]
      · rw [(hin i hi).1]
        exact ⟨c, hseen, hu⟩
    obtain ⟨xs, rfl, hxs, hread, hsame⟩ := ih _ _ _ _ (by omega) h
    have hread' : s.Read (srcva / PGSIZE * PGSIZE + PGSIZE) xs := by
      refine ⟨fun i hi => ?_, fun i hi => ?_⟩
      · rw [hread.byte i hi, byte, byte, seen_fault]
      · have := hread.could i hi
        rwa [seen_fault] at this
    refine ⟨slice c.data (srcva % PGSIZE) n ++ xs, by rw [List.append_assoc], ?_, ?_, fun v => ?_⟩
    · rw [List.length_append, length_slice, hxs]
      omega
    · refine hfirst.append ?_
      rw [length_slice]
      rcases hend with hend | hend
      · rw [show srcva + n = srcva / PGSIZE * PGSIZE + PGSIZE by
          simp only [PGSIZE] at *; omega]
        exact hread'
      · obtain rfl := List.length_eq_zero_iff.mp (hxs.trans hend)
        exact hnil
    · rw [hsame, seen_fault]

end Priv

/-! ## 2. What the routines write to -/

/-- **Only pages of `S` are written**, and only they get on the free list. -/
structure Only (S : Nat → Prop) (m m' : Mem) : Prop where
  free : ∀ p ∈ m'.freelist, S p
  ram : ∀ p, ¬ S p → m'.ram p = m.ram p

/-- The pages user code can get at through the table are in `S`. -/
def UserIn (S : Nat → Prop) (t : PageTable) : Prop :=
  ∀ v e, t.leaf v = some e → e.flags.u = true → S e.ppn

section Writes

variable {S : Nat → Prop} {m m' m'' : Mem} {t : PageTable} {E : Panic → Mem → Prop}

theorem Only.refl (h : ∀ p ∈ m.freelist, S p) : Only S m m := ⟨h, fun _ _ => rfl⟩

theorem Only.trans (h : Only S m m') (h' : Only S m' m'') : Only S m m'' :=
  ⟨h'.free, fun p hp => (h'.ram p hp).trans (h.ram p hp)⟩

variable (h : ∀ q ∈ m.freelist, S q) (hu : UserIn S t)

include h in
/-- A page of `S` gets new bytes. -/
theorem only_update {p : Nat} (hp : S p) (x : Store) : Only S m { m with ram := update m.ram p x } :=
  ⟨h, fun q hq => update_of_ne (fun e : q = p => hq (e ▸ hp)) _ _⟩

theorem kalloc_only (h : ∀ p ∈ m.freelist, S p) :
    (kalloc m).Sat (fun o m' => Only S m m' ∧ ∀ p, o = some p → S p) E := by
  unfold kalloc
  cases hl : m.freelist with
  | nil => exact ⟨⟨fun q hq => absurd hq List.not_mem_nil, fun _ _ => rfl⟩, nofun⟩
  | cons p l =>
    have hp : S p := h p (by rw [hl]; exact List.mem_cons_self)
    obtain ⟨-, e2, -, e4⟩ := Mem.warn_eq
      { m with
        freelist := l
        refcnt := update m.refcnt p 1
        freePages := m.freePages - 1
        ram := update m.ram p fun _ => 5 }
    refine ⟨⟨fun q hq => ?_, fun q hq => ?_⟩, fun _ e => Option.some.inj e ▸ hp⟩
    · rw [e4] at hq
      exact h q (by rw [hl]; exact List.mem_cons_of_mem _ hq)
    · rw [e2]
      exact update_of_ne (fun e : q = p => hq (e ▸ hp)) _ _

include h in
theorem kfree_only {p : Nat} (hp : S p) :
    (kfree p m).Sat (fun _ m' => Only S m m') fun _ _ => True := by
  unfold kfree
  rw [read_bind]
  split
  · exact trivial
  split
  · exact trivial
  split
  · exact ⟨h, fun _ _ => rfl⟩
  · refine ⟨fun q hq => ?_, fun q hq => update_of_ne (fun e : q = p => hq (e ▸ hp)) _ _⟩
    rcases List.mem_cons.mp hq with rfl | hq
    · exact hp
    · exact h q hq

include h hu in
/-- A new table, if one is missing. -/
theorem walkStep_only {e : Option Nat} {add : Nat → PageTable} (hadd : ∀ p, UserIn S (add p)) :
    (walkStep t e add m).Sat (fun r m' => Only S m m' ∧ UserIn S r.2) fun _ _ => True := by
  cases e with
  | some _ => exact ⟨.refl h, hu⟩
  | none =>
    refine (kalloc_only h).bind fun o m1 ⟨ho, hS⟩ => ?_
    cases o with
    | none => exact ⟨ho, hu⟩
    | some p => exact ⟨ho.trans (only_update ho.free (hS p rfl) _), hadd p⟩

theorem userIn_addMid (hu : UserIn S t) (i p : Nat) : UserIn S (t.addMid i p) := hu

theorem userIn_addLow (hu : UserIn S t) (k p : Nat) : UserIn S (t.addLow k p) := by
  intro v e he
  unfold PageTable.addLow at he
  dsimp only at he
  split at he
  · cases he
  · exact hu v e he

theorem userIn_setLeaf (hu : UserIn S t) {e : Pte} (he : e.flags.u = true → S e.ppn) (v : Nat) :
    UserIn S (t.setLeaf v (some e)) := by
  intro w e' hw
  rw [PageTable.leaf_setLeaf] at hw
  split at hw
  · cases hw
    exact he
  · exact hu w e' hw

include h hu in
theorem walkAlloc_only (va : Nat) :
    (walkAlloc t va m).Sat (fun r m' => Only S m m' ∧ UserIn S r.2) fun _ _ => True := by
  unfold walkAlloc
  split
  · exact ⟨.refl h, hu⟩
  · refine (walkStep_only h hu fun p => userIn_addMid hu _ p).bind
      fun r m1 ⟨ho, hu1⟩ => ?_
    obtain ⟨ok, t1⟩ := r
    dsimp only
    split
    · exact ⟨ho, hu1⟩
    · exact (walkStep_only ho.free hu1 fun p => userIn_addLow hu1 _ p).imp
        fun r m2 ⟨ho2, hu2⟩ => ⟨ho.trans ho2, hu2⟩

theorem mappagesLoop_only {f : Flags} (n : Nat) {a p : Nat} (h : ∀ q ∈ m.freelist, S q)
    (hu : UserIn S t) (hp : ∀ i < n, S (p + i)) :
    (mappagesLoop f n t a p m).Sat (fun r m' => Only S m m' ∧ UserIn S r.2) fun _ _ => True := by
  induction n generalizing m t a p with
  | zero => exact ⟨.refl h, hu⟩
  | succ n ih =>
    refine (walkAlloc_only h hu a).bind ?_
    rintro ⟨ok, t1⟩ m1 ⟨ho, hu1⟩
    dsimp only
    split
    · exact ⟨ho, hu1⟩
    split
    · exact trivial
    · refine (ih ho.free (userIn_setLeaf hu1 (fun _ => hp 0 (Nat.succ_pos n)) _)
        fun i hi => ?_).imp fun r m2 h2 => ⟨ho.trans h2.1, h2.2⟩
      rw [Nat.add_assoc, Nat.add_comm 1]
      exact hp (i + 1) (Nat.succ_lt_succ hi)

include h hu in
theorem mappages_only {f : Flags} {va p : Nat} (hp : S p) :
    (mappages t va PGSIZE p f m).Sat (fun r m' => Only S m m' ∧ UserIn S r.2) fun _ _ => True := by
  unfold mappages
  split
  · exact trivial
  split
  · exact trivial
  split
  · exact trivial
  · refine mappagesLoop_only _ h hu fun i hi => ?_
    obtain rfl : i = 0 := Nat.lt_one_iff.mp hi
    exact hp

variable {sz va : Nat}

include h hu in
theorem vmfault_only :
    (vmfault ⟨t, sz, none⟩ va m).Sat
      (fun r m' => Only S m m' ∧ UserIn S r.2.pagetable ∧ ∀ p, r.1 = some p → S p)
      fun _ _ => True := by
  unfold vmfault
  split
  · exact ⟨.refl h, hu, nofun⟩
  split
  · exact ⟨.refl h, hu, nofun⟩
  refine (kalloc_only h).bind fun o m1 ⟨ho, hS⟩ => ?_
  cases o with
  | none => exact ⟨ho, hu, nofun⟩
  | some p =>
    have hp := hS p rfl
    have ho2 := ho.trans (only_update ho.free hp fun _ => 0)
    refine (memset_sat p 0 m1 _).bind fun _ m2 e => ?_
    subst e
    refine (mappages_only ho2.free hu hp).bind fun r m3 ⟨ho3, hu3⟩ => ?_
    obtain ⟨ok, t3⟩ := r
    have ho4 := ho2.trans ho3
    dsimp only
    split
    · exact (kfree_only ho3.free hp).bind fun _ m4 ho5 =>
        ⟨ho4.trans ho5, hu3, nofun⟩
    · exact ⟨ho4, hu3, fun _ e => Option.some.inj e ▸ hp⟩

include h hu in
/-- A copy-on-write fault writes to the old page only if that is in `S`, too. -/
theorem cowfault_only (hold : ∀ e, t.pte (pgrounddown va) = some e → S e.ppn) :
    (cowfault t va m).Sat (fun r m' => Only S m m' ∧ UserIn S r.2) fun _ _ => True := by
  unfold cowfault
  cases hp : t.pte (pgrounddown va) with
  | none => exact ⟨.refl h, hu⟩
  | some e =>
    dsimp only
    split
    · exact ⟨.refl h, hu⟩
    · refine (kalloc_only h).bind fun o m1 ⟨ho, hS⟩ => ?_
      cases o with
      | none => exact ⟨ho, hu⟩
      | some p =>
        have ho2 := ho.trans (only_update ho.free (hS p rfl) (m1.ram e.ppn))
        have hcopy : (copyPage p e.ppn m1).Sat (fun _ m' => m' =
            { m1 with ram := update m1.ram p (m1.ram e.ppn) }) fun _ _ => True := rfl
        refine hcopy.bind fun _ m2 e2 => ?_
        subst e2
        exact (kfree_only ho2.free (hold e hp)).bind fun _ m3 ho3 =>
          ⟨ho2.trans ho3, userIn_setLeaf hu (fun _ => hS p rfl) _⟩

end Writes

/-! ## 3. A page that the copy got -/

/-- **An access of a copy to the page of `va`** has ended, and may have failed. -/
structure Got (S : Nat → Prop) (m m' : Mem) (t t' : PageTable) (sz va : Nat) (o : Option Nat) :
    Prop where
  only : Only S m m'
  user : UserIn S t'
  /-- an entry without `PTE_U` stays -/
  kept : ∀ v e, t.leaf v = some e → e.flags.u = false → t'.leaf v = some e
  page : ∀ p, o = some p → S p
  view : o ≠ none → privOf m' t' sz = (privOf m t sz).fault va

section Pages

variable {S : Nat → Prop} {m m' : Mem} {t t' : PageTable} {ts : List PageTable} {ks : List Nat}
  {sz va : Nat}

theorem vmfault_got (h : Inv m (t :: ts) ks) (hs : sz ≤ TRAPFRAME) (hS : ∀ q ∈ m.freelist, S q)
    (hu : UserIn S t) (va : Nat) :
    (vmfault ⟨t, sz, none⟩ va m).Returns
      fun r m' => ∃ t', r.2 = ⟨t', sz, none⟩ ∧ Got S m m' t t' sz va r.1 := by
  refine ((vmfault_sat h hs va).and (vmfault_only hS hu)).imp
    fun r m' ⟨⟨t', hr, _, hk, hcase⟩, honly, huser, hpage⟩ => ⟨t', hr, honly, ?_, fun v e he hne => ?_,
      hpage, fun hne => ?_⟩
  · rw [hr] at huser
    exact huser
  · rcases hcase with ⟨p, -, -, hl, hl', -⟩ | ⟨-, hl', -⟩
    · rw [hl', update_of_ne (fun hv => ?_), he]
      rw [hv, hl] at he
      cases he
    · rw [hl', he]
  · rcases hcase with ⟨p, -, hva, hl, hl', hz⟩ | ⟨hn, -⟩
    · exact fault_new hs hva hl hl' hz hk
    · exact absurd hn hne

/-- A page of the table that user code may read is found, and nothing happens. -/
theorem addrOrFault_there (hwf : t.WF) {e : Pte} (hl : t.leaf (va / PGSIZE) = some e)
    (hu : e.flags.u = true) :
    addrOrFault ⟨t, sz, none⟩ va m = .ok (some e.ppn, ⟨t, sz, none⟩) m := by
  have hwalk : (⟨t, sz, none⟩ : Space).cur.walkaddr va = some e.ppn := by
    show t.walkaddr va = _
    unfold PageTable.walkaddr
    rw [hwf.pte_eq, hl]
    exact if_pos hu
  unfold addrOrFault
  rw [hwalk]
  rfl

theorem addrOrFault_got (h : Inv m (t :: ts) ks) (hs : sz ≤ TRAPFRAME)
    (hS : ∀ q ∈ m.freelist, S q) (hu : UserIn S t) (va : Nat) :
    (addrOrFault ⟨t, sz, none⟩ va m).Returns
      fun r m' => ∃ t', r.2 = ⟨t', sz, none⟩ ∧ Got S m m' t t' sz va r.1 := by
  have hwf := h.wf t List.mem_cons_self
  by_cases hex : ∃ e, t.leaf (va / PGSIZE) = some e ∧ e.flags.u = true
  · obtain ⟨e, hl, heu⟩ := hex
    rw [addrOrFault_there hwf hl heu]
    refine ⟨t, rfl, .refl hS, hu, fun _ _ he _ => he, fun p hp => ?_, fun _ => ?_⟩
    · cases hp
      exact hu _ e hl heu
    · rw [fault_same hs]
      rw [hl]
      simp
  · have hwalk : (⟨t, sz, none⟩ : Space).cur.walkaddr va = none := by
      show t.walkaddr va = _
      unfold PageTable.walkaddr
      rw [hwf.pte_eq]
      cases hl : t.leaf (va / PGSIZE) with
      | none => rfl
      | some e => exact if_neg fun heu => hex ⟨e, hl, heu⟩
    unfold addrOrFault
    rw [hwalk]
    exact vmfault_got h hs hS hu va

theorem copyoutPage_got (h : Inv m (t :: ts) ks) (hf : t.Fenced) (hs : sz ≤ TRAPFRAME)
    (hS : ∀ q ∈ m.freelist, S q) (hu : UserIn S t) (va : Nat) :
    (copyoutPage ⟨t, sz, none⟩ va m).Returns
      fun r m' => ∃ t', r.2 = ⟨t', sz, none⟩ ∧ Got S m m' t t' sz va r.1 := by
  unfold copyoutPage
  split
  · exact ⟨t, rfl, .refl hS, hu, fun _ _ he _ => he, nofun, fun hne => absurd rfl hne⟩
  refine ((addrOrFault_sat h hf hs va).and (addrOrFault_got h hs hS hu va)).bind
    fun r m1 ⟨⟨t1, hr, ht1⟩, t1', hr', hg1⟩ => ?_
  obtain ⟨pa0, s1⟩ := r
  cases hr
  cases hr'
  have hrefuse : Got S m m1 t t1 sz va none :=
    ⟨hg1.only, hg1.user, hg1.kept, nofun, fun hne => absurd rfl hne⟩
  have hwf1 := ht1.inv.wf t1 List.mem_cons_self
  have hcur : (⟨t1, sz, none⟩ : Space).cur = t1 := rfl
  simp only [hcur, hwf1.pte_eq]
  cases pa0 with
  | none => exact ⟨t1, rfl, hrefuse⟩
  | some p0 =>
    obtain ⟨hv, e, he, hp, heu, -⟩ := ht1.found p0 rfl
    rw [he]
    simp only
    split
    · exact ⟨t1, rfl, hg1⟩
    split
    · exact ⟨t1, rfl, hrefuse⟩
    have hold : ∀ e', t1.pte (pgrounddown va) = some e' → S e'.ppn := fun e' he' => by
      rw [hwf1.pte_eq, pgrounddown_div, he] at he'
      cases he'
      exact hg1.user _ e he heu
    refine ((cowfault_sat ht1.inv (ht1.fenced hf) va).and
        (cowfault_only hg1.only.free hg1.user hold)).bind
      fun r2 m2 ⟨⟨hinv2, _, hview2, hcase⟩, honly2, huser2⟩ => ?_
    obtain ⟨ok, t2⟩ := r2
    have honly := hg1.only.trans honly2
    rcases hcase with ⟨hok, -, e1, p1, he1, -, ht2⟩ | ⟨hok, ht2, -⟩
    · cases hok
      have het : t2 = t1.setLeaf (va / PGSIZE) (some ⟨p1, e1.flags.own⟩) := ht2
      rw [he] at he1
      cases he1
      have hat : t2.leaf (va / PGSIZE) = some ⟨p1, e.flags.own⟩ := by
        rw [het, PageTable.leaf_setLeaf, if_pos rfl]
      have hwalk : t2.walkaddr va = some p1 := by
        unfold PageTable.walkaddr
        rw [(hinv2.wf t2 List.mem_cons_self).pte_eq, hat]
        exact if_pos heu
      simp only [if_neg (by simp : ¬ true = false), hwalk, Option.getD_some]
      refine ⟨t2, rfl, honly, huser2, fun v e' hl' hu' => ?_, fun q hq => ?_, fun _ => ?_⟩
      · have hl1 := hg1.kept v e' hl' hu'
        rw [het, PageTable.leaf_setLeaf, if_neg fun hv' => ?_, hl1]
        rw [hv', he] at hl1
        cases hl1
        rw [heu] at hu'
        cases hu'
      · cases hq
        exact huser2 _ _ hat heu
      · rw [← hg1.view (Option.some_ne_none _)]
        exact congrArg (Priv.mk sz) hview2
    · cases hok
      have het : t2 = t1 := ht2
      subst het
      exact ⟨t2, rfl, honly, huser2, hg1.kept, nofun, fun hne => absurd rfl hne⟩

/-- **A copy that returns `good`** has done what `f` does; and none writes outside `S`. -/
structure Copied {α : Type} (S : Nat → Prop) (m m' : Mem) (t t' : PageTable) (sz : Nat)
    (f : Priv → α × Priv) (good : α → Prop) (a : α) : Prop where
  only : Only S m m'
  user : UserIn S t'
  kept : ∀ v e, t.leaf v = some e → e.flags.u = false → t'.leaf v = some e
  does : good a → f (privOf m t sz) = (a, privOf m' t' sz)

theorem copyinLoop_copied (k : Nat) (h : Inv m (t :: ts) ks) (hf : t.Fenced) (hs : sz ≤ TRAPFRAME)
    (hS : ∀ q ∈ m.freelist, S q) (hu : UserIn S t) (srcva len : Nat) (dst : List UInt8) :
    (copyinLoop k ⟨t, sz, none⟩ srcva len dst m).Returns
      fun r m' => ∃ t', r.2 = ⟨t', sz, none⟩ ∧
        Copied S m m' t t' sz (Priv.copyinLoop k · srcva len dst) (· ≠ none) r.1 := by
  induction k generalizing m t srcva len dst with
  | zero => exact ⟨t, rfl, .refl hS, hu, fun _ _ he _ => he, fun _ => rfl⟩
  | succ k ih =>
    unfold copyinLoop
    split
    · rename_i hlen
      refine ⟨t, rfl, .refl hS, hu, fun _ _ he _ => he, fun _ => ?_⟩
      show (if len = 0 then _ else _) = _
      rw [if_pos hlen]
    · rename_i hlen
      refine ((addrOrFault_sat h hf hs (pgrounddown srcva)).and
        (addrOrFault_got h hs hS hu (pgrounddown srcva))).bind ?_
      rintro ⟨o, s1⟩ m1 ⟨⟨t1, hr, ht⟩, t1', hr', hg⟩
      cases hr
      cases hr'
      cases o with
      | none => exact ⟨t1, rfl, hg.only, hg.user, hg.kept, fun hne => absurd rfl hne⟩
      | some p =>
        obtain ⟨hv, e, he, rfl, -⟩ := ht.found p rfl
        refine (ih ht.inv (ht.fenced hf) hg.only.free hg.user _ _ _).imp ?_
        rintro r m3 ⟨t3, hr3, hc⟩
        refine ⟨t3, hr3, hg.only.trans hc.only, hc.user,
          fun v e he hu => hc.kept v e (hg.kept v e he hu) hu, fun hgood => ?_⟩
        show (if len = 0 then _ else _) = _
        rw [if_neg hlen, ← pgrounddown_eq, ht.touch_got (hg.view (Option.some_ne_none _)),
          viewOf_some m1.ram hv he, ← hc.does hgood, sub_pgrounddown]
        rfl

theorem copyoutLoop_copied (k : Nat) (h : Inv m (t :: ts) ks) (hf : t.Fenced)
    (hs : sz ≤ TRAPFRAME) (hS : ∀ q ∈ m.freelist, S q) (hu : UserIn S t) (dstva : Nat)
    (src : List UInt8) :
    (copyoutLoop k ⟨t, sz, none⟩ dstva src m).Returns
      fun r m' => ∃ t', r.2 = ⟨t', sz, none⟩ ∧
        Copied S m m' t t' sz (Priv.copyoutLoop k · dstva src) (· = true) r.1 := by
  induction k generalizing m t dstva src with
  | zero => exact ⟨t, rfl, .refl hS, hu, fun _ _ he _ => he, fun _ => rfl⟩
  | succ k ih =>
    unfold copyoutLoop
    split
    · rename_i hsrc
      refine ⟨t, rfl, .refl hS, hu, fun _ _ he _ => he, fun _ => ?_⟩
      show (if src = [] then _ else _) = _
      rw [if_pos hsrc]
    · rename_i hsrc
      refine ((copyoutPage_sat h hf hs (pgrounddown dstva)).and
        (copyoutPage_got h hf hs hS hu (pgrounddown dstva))).bind ?_
      rintro ⟨o, s1⟩ m1 ⟨⟨t1, hr, ht⟩, t1', hr', hg⟩
      cases hr
      cases hr'
      cases o with
      | none => exact ⟨t1, rfl, hg.only, hg.user, hg.kept, fun h => by cases h⟩
      | some p =>
        obtain ⟨hv, e, he, rfl, -, hw⟩ := ht.found p rfl
        have honly : ∀ off bs, (poke e.ppn off bs m1).Returns fun _ m' => Only S m1 m' := fun off bs =>
          only_update hg.only.free (hg.page _ rfl) (patch (m1.ram e.ppn) off bs)
        refine ((poke_own ht.inv hv he (hw rfl) _ _ sz).and (honly _ _)).bind ?_
        rintro _ m2 ⟨⟨-, hmv2, hview2⟩, honly2⟩
        have honly12 := hg.only.trans honly2
        refine (ih hmv2.inv (ht.fenced hf) honly12.free hg.user _ _).imp ?_
        rintro r m3 ⟨t3, hr3, hc⟩
        refine ⟨t3, hr3, honly12.trans hc.only, hc.user,
          fun v e he hu => hc.kept v e (hg.kept v e he hu) hu, fun hgood => ?_⟩
        show (if src = [] then _ else _) = _
        rw [if_neg hsrc, ← pgrounddown_eq, ht.touch_got (hg.view (Option.some_ne_none _)),
          viewOf_some m1.ram hv he, ← hc.does hgood, hview2, sub_pgrounddown, pgrounddown_div]
        rfl

/-- **A copy from pages that are there** changes nothing. -/
theorem copyinLoop_there (k : Nat) (hwf : t.WF) (srcva len : Nat) (dst : List UInt8)
    (hp : ∀ i < len, ∃ e, t.leaf ((srcva + i) / PGSIZE) = some e ∧ e.flags.u = true) :
    ∃ bs, copyinLoop k ⟨t, sz, none⟩ srcva len dst m = .ok (some bs, ⟨t, sz, none⟩) m := by
  induction k generalizing srcva len dst with
  | zero => exact ⟨dst, rfl⟩
  | succ k ih =>
    unfold copyinLoop
    split
    · exact ⟨dst, rfl⟩
    · rename_i hlen
      obtain ⟨e, hl, heu⟩ := hp 0 (Nat.pos_of_ne_zero hlen)
      rw [Nat.add_zero, ← pgrounddown_div] at hl
      rw [bind_ok (addrOrFault_there hwf hl heu)]
      have hnext : pgrounddown srcva + PGSIZE = srcva + (PGSIZE - (srcva - pgrounddown srcva)) := by
        have hlt : srcva % PGSIZE < PGSIZE := Nat.mod_lt _ (by decide)
        rw [sub_pgrounddown, pgrounddown_eq]
        have := Nat.div_add_mod' srcva PGSIZE
        omega
      refine ih _ _ _ fun i hi => ?_
      rw [hnext, Nat.add_assoc]
      exact hp _ (by omega)

end Pages

/-! ## 4. The copies of a process -/

/-- The pages a copy may write to: those that are free, and those user code can get at. -/
def Within (m : Mem) (t : PageTable) (p : Nat) : Prop :=
  p ∈ m.freelist ∨ ∃ v e, t.leaf v = some e ∧ e.flags.u = true ∧ e.ppn = p

/-- **A page takes the bytes of a copy**: it is there, for user code, and writable or
    copy-on-write; or it is not there yet, and lies below the break. -/
def PageTable.Takes (t : PageTable) (sz v : Nat) : Prop :=
  (∃ e, t.leaf v = some e ∧ e.flags.u = true ∧ (e.flags.w = true ∨ e.flags.cow = true)) ∨
    t.leaf v = none ∧ v * PGSIZE < sz

/-- **What no copy touches**, when process `i` ends with the table `t'` and memory is `m'`. -/
structure Spared (s : Sys) (i : Fin NPROC) (p : Proc) (t' : PageTable) (m' : Mem) : Prop where
  others : ∀ j q, j ≠ i → (s.proc j).proc? = some q →
    viewOf m'.ram q.pagetable.leaf = viewOf s.mem.ram q.pagetable.leaf
  frames : ∀ j q, (s.proc j).proc? = some q → m'.ram q.frame = s.mem.ram q.frame
  trampoline : m'.ram s.trampoline = s.mem.ram s.trampoline
  /-- the guard page, and whatever else user code may not get at -/
  guarded : ∀ v e, p.pagetable.leaf v = some e → e.flags.u = false →
    t'.leaf v = some e ∧ m'.ram e.ppn = s.mem.ram e.ppn

section Process

variable {s : Sys} {i : Fin NPROC} {p : Proc} {m' : Mem} {t' : PageTable}

theorem live_of_mem {ts : List PageTable} {ks : List Nat} {q : Nat} (h : q ∈ ks) : Live ts ks q := by
  have := List.count_pos_iff.mpr h
  unfold Live refs kernRefs
  omega

theorem spared {α : Type} {f : Priv → α × Priv} {good : α → Prop} {a : α} (hok : SysOk s)
    (hi : s.proc i = .used p) (htr : s.trampoline < s.mem.first)
    (hmv : Moved s.mem m' p.pagetable t' (tables (without s.proc i))
      (s.pages i p) p.sz)
    (hc : Copied (Within s.mem p.pagetable) s.mem m' p.pagetable t' p.sz f good a) :
    Spared s i p t' m' := by
  have hp : (s.proc i).proc? = some p := by rw [hi]; rfl
  have hinv := hok.front hp
  have hfit := hok.ok i p hp
  have hfree : ∀ q ∈ s.mem.freelist, s.mem.first ≤ q ∧
      refs (p.pagetable :: tables (without s.proc i))
        (s.pages i p) q = 0 := fun q hq =>
    ⟨((hinv.exact.counted.free q).mp hq).1.1, hinv.exact.counted.refs_of_free hq⟩
  have huser : ∀ v e, p.pagetable.leaf v = some e → e.flags.u = true → v < USERVPN := by
    intro v e he hu
    by_contra hge
    rw [(hfit.fenced v e (by omega) he).1] at hu
    cases hu
  have hpage : ∀ v < USERVPN, ∀ e, p.pagetable.leaf v = some e →
      Live (p.pagetable :: tables (without s.proc i))
        (s.pages i p) e.ppn := fun v hv e he =>
    Seen.live (Or.inr ⟨v, hv, e, he, rfl⟩)
  have htramp : m'.ram s.trampoline = s.mem.ram s.trampoline := by
    refine hc.only.ram _ ?_
    rintro (hin | ⟨v, e, he, hu, hpp⟩)
    · have := (hfree _ hin).1
      omega
    · have := (hinv.exact.managed (hpage v (huser v e he hu) e he)).1
      omega
  refine ⟨fun j q hj hq => ?_, fun j q hq => ?_, htramp, fun v e he hu =>
    ⟨hc.kept v e he hu, ?_⟩⟩
  · refine viewOf_keeps hmv.keeps fun v hv e he => ?_
    have hmem : q.pagetable ∈ tables (without s.proc i) :=
      mem_gather.mpr ⟨j, by rw [without, update_of_ne hj, hq]; rfl⟩
    have hone : 0 < q.pagetable.users e.ppn := PageTable.users_pos.mpr ⟨v, hv, e, he, rfl⟩
    have hle := Inv.users_le hmem e.ppn
    unfold Live refs
    omega
  · refine hmv.keeps.ram _ (live_of_mem ?_)
    by_cases hj : j = i
    · subst hj
      rw [hp] at hq
      cases hq
      exact List.mem_cons_self
    · have hmem : q.frame ∈ frames (without s.proc i) :=
        mem_gather.mpr ⟨j, by rw [without, update_of_ne hj, hq]; rfl⟩
      exact List.mem_cons_of_mem _ (List.mem_append_left _ hmem)
  · have hlow := pages_le hfit.size
    rcases hfit.below v (by rw [he]; exact Option.some_ne_none e) with hlt | rfl | rfl
    · refine hc.only.ram _ ?_
      rintro (hin | ⟨v', e', he', hu', hpp⟩)
      · have := (hfree _ hin).2
        have := hpage v (by omega) e he
        unfold Live at this
        omega
      · have := (hinv.wf _ List.mem_cons_self).inj v v' e e' (by omega) (huser v' e' he' hu') he he'
          hpp.symm
        subst this
        rw [he] at he'
        cases he'
        rw [hu] at hu'
        cases hu'
    · rw [hfit.frame] at he
      cases he
      exact hmv.keeps.ram _ (live_of_mem List.mem_cons_self)
    · rw [hfit.trampoline] at he
      cases he
      exact htramp

/-- What the private memory lets a copy write to. -/
theorem takes_of_seen {m : Mem} {t : PageTable} {sz v : Nat} {c : Cell} (hs : sz ≤ TRAPFRAME)
    (h : (privOf m t sz).seen v = some c) (hu : c.u = true) (hw : c.w = true) : t.Takes sz v := by
  unfold Priv.seen at h
  split at h
  · rename_i c' hpage
    cases h
    have hview : viewOf m.ram t.leaf v = some c := hpage
    unfold viewOf at hview
    split at hview
    · obtain ⟨e, he, rfl⟩ := Option.map_eq_some_iff.mp hview
      exact Or.inl ⟨e, he, hu, by simpa [Pte.cell] using hw⟩
    · cases hview
  · rename_i hpage
    split at h
    · rename_i hlt
      have hlt : v * PGSIZE < sz := hlt
      have hv : v < USERVPN := by
        have := vpn_lt hs hlt
        rwa [Nat.mul_div_cancel v (by decide)] at this
      exact Or.inr ⟨(viewOf_none m.ram hv).mp hpage, hlt⟩
    · cases h

/-- A page of the private memory is one of the table. -/
theorem leaf_of_page {m : Mem} {t : PageTable} {sz v : Nat} {c : Cell}
    (h : (privOf m t sz).page v = some c) : ∃ e, t.leaf v = some e ∧ e.flags.u = c.u := by
  have hview : viewOf m.ram t.leaf v = some c := h
  unfold viewOf at hview
  split at hview
  · obtain ⟨e, he, rfl⟩ := Option.map_eq_some_iff.mp hview
    exact ⟨e, he, rfl⟩
  · cases hview

/-- **A copy that was written is read back**, and reading it changes nothing. -/
theorem copyin_written {m m' : Mem} {t t' : PageTable} {ts : List PageTable} {ks : List Nat}
    {sz dstva : Nat} {src : List UInt8} (hinv : Inv m' (t' :: ts) ks) (hf : t'.Fenced)
    (hs : sz ≤ TRAPFRAME) (h : (privOf m t sz).Wrote (privOf m' t' sz) dstva src) :
    copyin ⟨t', sz, none⟩ dstva src.length m' = .ok (some src, ⟨t', sz, none⟩) m' := by
  have hthere : ∀ i < src.length, ∃ e, t'.leaf ((dstva + i) / PGSIZE) = some e ∧
      e.flags.u = true := fun i hi => by
    obtain ⟨c, hc, hu⟩ := h.there (dstva + i) (Nat.le_add_right _ _) (by omega)
    obtain ⟨e, he, heu⟩ := leaf_of_page hc
    exact ⟨e, he, heu.trans hu⟩
  obtain ⟨bs, hrun⟩ : ∃ bs, copyinLoop src.length ⟨t', sz, none⟩ dstva src.length [] m' =
      .ok (some bs, ⟨t', sz, none⟩) m' :=
    copyinLoop_there src.length (hinv.wf t' List.mem_cons_self) dstva src.length [] hthere
  obtain ⟨t₂, ht₂, hc⟩ := (copyinLoop_copied (S := fun _ => True) src.length hinv hf hs
    (fun _ _ => trivial) (fun _ _ _ _ => trivial) dstva src.length []).of_ok hrun
  cases ht₂
  obtain ⟨xs, hxs, hlen, hread, -⟩ := Priv.copyinLoop_read src.length _ dstva src.length []
    (Nat.le_refl _) (hc.does (Option.some_ne_none _))
  rw [List.nil_append] at hxs
  subst hxs
  have hsame : bs = src := by
    refine List.ext_getElem? fun i => ?_
    by_cases hi : i < src.length
    · rw [hread.byte i (by omega), h.byte, if_pos ⟨Nat.le_add_right _ _, by omega⟩,
        Nat.add_sub_cancel_left]
    · rw [List.getElem?_eq_none (by omega), List.getElem?_eq_none (by omega)]
  rw [← hsame]
  rw [← hsame] at hrun
  exact hrun

/-- **`copyout` and `copyin` are exact and inverse**, for every process of a state that is reached,
    every address and every length. -/
theorem copies_exact (h : Reached s) (hi : s.proc i = .used p) (htr : s.trampoline < s.mem.first)
    (va : Nat) :
    (∀ src, (copyout ⟨p.pagetable, p.sz, none⟩ va src s.mem).Sat
      (fun r m' => ∃ t', r.2 = ⟨t', p.sz, none⟩ ∧ Spared s i p t' m' ∧ (r.1 = true →
        copyin ⟨t', p.sz, none⟩ va src.length m' = .ok (some src, ⟨t', p.sz, none⟩) m' ∧
        (∀ a, ¬ (va ≤ a ∧ a < va + src.length) →
          (privOf m' t' p.sz).byte a = (privOf s.mem p.pagetable p.sz).byte a) ∧
        ∀ a, va ≤ a → a < va + src.length → p.pagetable.Takes p.sz (a / PGSIZE)))
      fun _ _ => False) ∧
    ∀ len, (copyin ⟨p.pagetable, p.sz, none⟩ va len s.mem).Sat
      (fun r m' => ∃ t', r.2 = ⟨t', p.sz, none⟩ ∧ Spared s i p t' m' ∧ ∀ bs, r.1 = some bs →
        bs.length = len ∧ (privOf s.mem p.pagetable p.sz).Read va bs ∧
        ∀ a, (privOf m' t' p.sz).byte a = (privOf s.mem p.pagetable p.sz).byte a)
      fun _ _ => False := by
  have hok := sysOk_reached h
  have hp : (s.proc i).proc? = some p := by rw [hi]; rfl
  have hinv := hok.front hp
  have hfit := hok.ok i p hp
  have hS : ∀ q ∈ s.mem.freelist, Within s.mem p.pagetable q := fun q hq => Or.inl hq
  have hu : UserIn (Within s.mem p.pagetable) p.pagetable := fun v e he heu =>
    Or.inr ⟨v, e, he, heu, rfl⟩
  refine ⟨fun src => ?_, fun len => ?_⟩
  · refine ((copyout_sat hinv hfit.fenced hfit.size va src).and
      (copyoutLoop_copied src.length hinv hfit.fenced hfit.size hS hu va src)).imp
      fun r m' ⟨⟨t', hr, hmv, _⟩, t'', hr', hc⟩ => ?_
    obtain rfl : t' = t'' := congrArg Space.pagetable (hr.symm.trans hr')
    refine ⟨t', hr, spared hok hi htr hmv hc, fun hgood => ?_⟩
    have hrun := hc.does hgood
    rw [hgood] at hrun
    have hwrote := Priv.copyoutLoop_wrote src.length (Nat.le_refl _) hrun
    refine ⟨copyin_written hmv.inv (hmv.fenced hfit.fenced) hfit.size hwrote, fun a ha => ?_,
      fun a h1 h2 => ?_⟩
    · rw [hwrote.byte, if_neg ha]
    · obtain ⟨c, hc, hcu, hcw⟩ := hwrote.could a h1 h2
      exact takes_of_seen hfit.size hc hcu hcw
  · refine ((copyin_sat hinv hfit.fenced hfit.size va len).and
      (copyinLoop_copied len hinv hfit.fenced hfit.size hS hu va len [])).imp
      fun r m' ⟨⟨t', hr, hmv, _⟩, t'', hr', hc⟩ => ?_
    obtain rfl : t' = t'' := congrArg Space.pagetable (hr.symm.trans hr')
    refine ⟨t', hr, spared hok hi htr hmv hc, fun bs hbs => ?_⟩
    have hrun := hc.does (hbs ▸ Option.some_ne_none bs)
    rw [hbs] at hrun
    obtain ⟨xs, hxs, hlen, hread, hsame⟩ :=
      Priv.copyinLoop_read len _ va len [] (Nat.le_refl _) hrun
    rw [List.nil_append] at hxs
    subst hxs
    exact ⟨hlen, hread, fun a => by rw [Priv.byte, Priv.byte, hsame]⟩

end Process

/-- Four bytes across the border of two pages that are not there yet. -/
theorem copies_exact_small : ∃ s p, Reached s ∧ s.proc small.initproc = .used p ∧
    s.trampoline < s.mem.first ∧
    (copyout ⟨p.pagetable, p.sz, none⟩ 4094 [1, 2, 3, 4] s.mem).Sat
      (fun r m' => r.1 = true ∧ ∃ t', r.2 = ⟨t', p.sz, none⟩ ∧
        copyin ⟨t', p.sz, none⟩ 4094 4 m' = .ok (some [1, 2, 3, 4], ⟨t', p.sz, none⟩) m')
      fun _ _ => False := by
  have hrun : ((after perform small [(small.initproc, .sbrk 8192 false)]).any fun s =>
      (s.proc small.initproc).test fun p => decide (s.trampoline < s.mem.first) &&
        (copyout ⟨p.pagetable, p.sz, none⟩ 4094 [1, 2, 3, 4] s.mem).test fun r _ => r.1) = true := by
    decide +kernel
  obtain ⟨s, p, hr, hp, hq⟩ := small_reaches hrun
  obtain ⟨htr, hq⟩ := Bool.and_eq_true_iff.mp hq
  replace htr := of_decide_eq_true htr
  obtain ⟨r, m', hcopy, hok⟩ := Outcome.exists_of_test hq
  obtain ⟨t', ht', -, hgood⟩ := ((copies_exact hr hp htr 4094).1 [1, 2, 3, 4]).of_ok hcopy
  refine ⟨s, p, hr, hp, htr, ?_⟩
  rw [hcopy]
  exact ⟨hok, t', ht', (hgood hok).1⟩

end HaiOS.Vm
