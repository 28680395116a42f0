/-
  File:      HaiOS/Vm/Spaces.lean
  Subject:   THE ADDRESS SPACE OF A PROCESS is made, freed, grown and shrunk: `proc_pagetable`,
             `proc_freepagetable`, `freeproc`, `growproc`, `sys_sbrk` under the account.

  * `PageTable.Fits` -- the shape of a process's table: the break is at most `TRAPFRAME`, entries
    stand only below the break and at the trap frame and the trampoline;
  * `sysSbrk_sat` -- any `sbrk` keeps the shape, and implements `Priv.sbrk`.
-/
import HaiOS.Vm.Faults
import HaiOS.Vm.Proc

namespace HaiOS.Vm

open Lib Lib.Routine

/-- **The shape of a process's page table.** -/
structure PageTable.Fits (t : PageTable) (trampoline frame sz : Nat) : Prop where
  size : sz ≤ TRAPFRAME
  below : ∀ v, t.leaf v ≠ none → v < pages sz ∨ v = USERVPN ∨ v = USERVPN + 1
  frame : t.leaf USERVPN = some ⟨frame, Flags.W⟩
  trampoline : t.leaf (USERVPN + 1) = some ⟨trampoline, Flags.X⟩

section

variable {m m' : Mem} {t t' : PageTable} {ts : List PageTable} {ks : List Nat}
  {trampoline frame sz : Nat}

variable (h : t.Fits trampoline frame sz)

include h in
theorem PageTable.Fits.fenced : t.Fenced := by
  intro v e hv he
  have hlow := pages_le h.size
  rcases h.below v (by rw [he]; exact Option.some_ne_none e) with hlt | rfl | rfl
  · omega
  · rw [h.frame] at he
    cases he
    exact ⟨rfl, rfl⟩
  · rw [h.trampoline] at he
    cases he
    exact ⟨rfl, rfl⟩

include h in
/-- In the user range nothing is mapped from the break on. -/
theorem PageTable.Fits.above {v : Nat} (hv : pages sz ≤ v) (hU : v < USERVPN) : t.leaf v = none := by
  by_contra hne
  rcases h.below v hne with hlt | rfl | rfl
  · omega
  · omega
  · omega

include h in
/-- The trap frame and the trampoline stay, and entries appear only below the break. -/
theorem PageTable.Fits.of_moved (hm : Moved m m' t t' ts ks sz) : t'.Fits trampoline frame sz := by
  refine ⟨h.size, fun v hne => ?_, ?_, ?_⟩
  · rcases hm.grow v hne with hl | hlt
    · exact h.below v hl
    · exact Or.inl hlt
  · rw [hm.high USERVPN (Nat.le_refl _), h.frame]
  · rw [hm.high (USERVPN + 1) (by omega), h.trampoline]

theorem TRAMPOLINE_eq : TRAMPOLINE = (USERVPN + 1) * PGSIZE := by decide

theorem TRAPFRAME_eq : TRAPFRAME = USERVPN * PGSIZE := by decide

/-! ## 1. Making and freeing a table -/

/-- A table that maps nothing is given back. -/
theorem uvmfree_empty (h : Inv m (t :: ts) ks) (hl : ∀ v, t.leaf v = none) :
    (uvmfree t 0 m).Returns fun _ m' => Inv m' ts ks ∧ m.Keeps (Live ts ks) m' :=
  uvmfree_sat h (Nat.zero_le _) fun v _ => hl v

/-- **A new table** has the trap frame and the trampoline, and the two tables that lead there. -/
structure PageTable.New (t : PageTable) (trampoline frame : Nat) : Prop where
  fits : t.Fits trampoline frame 0
  mids : ∀ i, t.mid i = none ↔ i ≠ 255
  lows : ∀ k, t.low k = none ↔ k ≠ 131071

/-- **`proc_pagetable`** costs three pages; it fails, and takes nothing, when there are fewer. -/
theorem procPagetable_sat (h : Inv m ts ks) (hfew : ts.length + 1 < 2 ^ 15) (trampoline frame : Nat) :
    (procPagetable trampoline frame m).Returns
      fun o m' => m.Keeps (Live ts ks) m' ∧ match o with
        | none => Inv m' ts ks ∧ m.freelist.length < 3 ∧ m'.oomWarned = true
        | some t => Inv m' (t :: ts) ks ∧ t.New trampoline frame ∧
            m.freelist.length = m'.freelist.length + 3 ∧ m'.oomWarned = m.oomWarned := by
  refine (uvmcreate_sat h hfew).bind fun o m1 ⟨hk1, ho1, hcase⟩ => ?_
  cases o with
  | none =>
    obtain ⟨hnil, hinv⟩ := hcase
    refine ⟨hk1, hinv, ?_, by rw [ho1]; simp⟩
    rw [hnil]
    exact Nat.zero_lt_succ _
  | some t =>
    obtain ⟨⟨p, rfl⟩, hinv1, hlen1⟩ := hcase
    have hv : USERVPN + 1 < NVPN := by decide
    rw [TRAMPOLINE_eq, TRAPFRAME_eq]
    refine (mappages_sat hinv1 hv rfl trampoline Flags.X).bind
      fun r m2 ⟨t2, hw2, hr2⟩ => ?_
    have hk2 : m.Keeps (Live ts ks) m2 := hk1.trans (hw2.keeps.mono fun _ hq => live_cons hq)
    have hmiss : (PageTable.empty p).missing (USERVPN + 1) = 2 := rfl
    obtain ⟨ok, t2'⟩ := r
    cases ok with
    | false =>
      have e : t2' = t2 := hr2
      subst e
      have hshort := hw2.short rfl
      rw [hmiss] at hshort
      refine (uvmfree_empty hw2.inv fun v => by rw [hw2.leaf]; rfl).bind
        fun _ m3 ⟨hinv3, hk3⟩ => ⟨hk2.trans hk3, hinv3, by omega, hk3.oom ?_⟩
      rw [hw2.oom]
      simp
    | true =>
      have e : t2' = t2.setLeaf (USERVPN + 1) (some ⟨trampoline, Flags.X⟩) := hr2
      subst e
      have hpaid := hw2.paid rfl
      rw [hmiss] at hpaid
      have hmid2 := hw2.mids rfl
      have hlow2 := hw2.lows rfl
      have h255 : (USERVPN + 1) / 512 / 512 = 255 := by decide
      have h131 : (USERVPN + 1) / 512 = 131071 := by decide
      have h255' : USERVPN / 512 / 512 = 255 := by decide
      have h131' : USERVPN / 512 = 131071 := by decide
      rw [h255] at hmid2
      rw [h131] at hlow2
      have hlow : t2.low 131071 ≠ none := fun hn => ((hlow2 _).mp hn).2 rfl
      have hmid : t2.mid 255 ≠ none := fun hn => ((hmid2 _).mp hn).2 rfl
      have hinv2 : Inv m2 (t2.setLeaf (USERVPN + 1) (some ⟨trampoline, Flags.X⟩) :: ts) ks :=
        hw2.inv.mapHigh (Nat.le_succ _) fun _ => h131 ▸ hlow
      have hl2 : (t2.setLeaf (USERVPN + 1) (some ⟨trampoline, Flags.X⟩)).leaf USERVPN = none := by
        rw [PageTable.leaf_setLeaf, if_neg (by omega), hw2.leaf]
        rfl
      refine (mappages_sat hinv2 (by decide) hl2 frame Flags.W).bind
        fun r m3 ⟨t3, hw3, hr3⟩ => ?_
      have hmiss3 : (t2.setLeaf (USERVPN + 1) (some ⟨trampoline, Flags.X⟩)).missing USERVPN = 0 := by
        unfold PageTable.missing
        rw [h255', h131']
        show (if t2.mid 255 = none then 1 else 0) + (if t2.low 131071 = none then 1 else 0) = 0
        rw [if_neg hmid, if_neg hlow]
      obtain ⟨ok, t3'⟩ := r
      cases ok with
      | false =>
        have := hw3.short rfl
        omega
      | true =>
        have e : t3' = t3.setLeaf USERVPN (some ⟨frame, Flags.W⟩) := hr3
        subst e
        have hpaid3 := hw3.paid rfl
        have hleaf3 : ∀ v, (t3.setLeaf USERVPN (some ⟨frame, Flags.W⟩)).leaf v =
            if v = USERVPN then some ⟨frame, Flags.W⟩
            else if v = USERVPN + 1 then some ⟨trampoline, Flags.X⟩ else none := by
          intro v
          rw [PageTable.leaf_setLeaf, hw3.leaf, PageTable.leaf_setLeaf, hw2.leaf]
          rfl
        have hlow3 : t3.low 131071 ≠ none := fun hn => ((hw3.lows rfl _).mp hn).2 h131'.symm
        refine ⟨hk2.trans (hw3.keeps.mono fun _ hq => live_cons hq),
          hw3.inv.mapHigh (Nat.le_refl _) (fun _ => h131' ▸ hlow3),
          ⟨⟨Nat.zero_le _, fun v hne => ?_, ?_, ?_⟩, fun i => ?_, fun k => ?_⟩, by omega, ?_⟩
        · rw [hleaf3] at hne
          split at hne
          · exact Or.inr (Or.inl ‹_›)
          · split at hne
            · exact Or.inr (Or.inr ‹_›)
            · exact absurd rfl hne
        · rw [hleaf3, if_pos rfl]
        · rw [hleaf3, if_neg (by omega), if_pos rfl]
        · refine ((hw3.mids rfl i).trans (and_congr_left' (hmid2 i))).trans ?_
          rw [h255']
          exact ⟨fun hi => hi.2, fun hi => ⟨⟨rfl, hi⟩, hi⟩⟩
        · refine ((hw3.lows rfl k).trans (and_congr_left' (hlow2 k))).trans ?_
          rw [h131']
          exact ⟨fun hk => hk.2, fun hk => ⟨⟨rfl, hk⟩, hk⟩⟩
        · rw [hw3.oom, hw2.oom, ho1]
          simp

/-- **`proc_freepagetable`** of a process's table: everything it refers to is given back. -/
theorem procFreepagetable_sat (h : Inv m (t :: ts) ks) (hf : t.Fits trampoline frame sz) :
    (procFreepagetable t sz m).Returns fun _ m' => Inv m' ts ks ∧ m.Keeps (Live ts ks) m' := by
  obtain ⟨t1, hr1, hinv1, hl1⟩ := uvmunmap_high h (Nat.le_succ USERVPN)
  obtain ⟨t2, hr2, hinv2, hl2⟩ := uvmunmap_high hinv1 (Nat.le_refl USERVPN)
  unfold procFreepagetable
  rw [TRAMPOLINE_eq, TRAPFRAME_eq, bind_ok hr1, bind_ok hr2]
  refine uvmfree_sat hinv2 hf.size fun v hv => ?_
  rw [hl2, hl1, Function.update_apply, Function.update_apply]
  split
  · rfl
  · split
    · rfl
    · by_contra hne
      rcases hf.below v hne with hlt | he | he
      · omega
      · contradiction
      · contradiction

/-- A process whose page table has the right shape. -/
def Proc.Ok (trampoline : Nat) (p : Proc) : Prop := p.pagetable.Fits trampoline p.frame p.sz

/-- **`freeproc`.** -/
theorem freeproc_sat {p : Proc} (h : Inv m (p.pagetable :: ts) (p.frame :: ks))
    (hp : p.Ok trampoline) :
    (freeproc p m).Returns fun _ m' => Inv m' ts ks ∧ m.Keeps (Live ts ks) m' := by
  refine (kfree_inv h).bind fun _ m1 ⟨hinv1, hk1⟩ => ?_
  exact (procFreepagetable_sat hinv1 hp).imp fun _ m2 ⟨hinv2, hk2⟩ =>
    ⟨hinv2, (hk1.mono fun _ hq => live_cons hq).trans hk2⟩

/-! ## 2. Moving the break -/

theorem addInt_nonneg {x : Nat} {n : Int} (hx : x ≤ TRAPFRAME) (h0 : 0 ≤ n) (hn : n < 2 ^ 31) :
    addInt x n = x + n.toNat := by
  have : x ≤ 2 ^ 38 - 4096 - 4096 := hx
  unfold addInt
  omega

variable {newsz : Nat}

/-- New pages appear in the view, filled with zeros. -/
theorem privOf_grow (hn : newsz ≤ TRAPFRAME) (hle : sz ≤ newsz)
    (hk : m.Keeps (Seen t.leaf ts ks) m')
    (hg : Grew m' t t' ts ks (pages sz) (pages newsz - pages sz) Flags.W.user) :
    privOf m' t' newsz = (privOf m t sz).grow newsz := by
  have hU := pages_le hn
  have hmono := pages_mono hle
  unfold privOf Priv.grow
  congr 1
  funext v
  by_cases hin : pages sz ≤ v ∧ v < pages newsz
  · obtain ⟨p, hl, hz, -⟩ := hg.new v hin.1 (by omega)
    rw [if_pos hin, viewOf_some m'.ram (by omega) hl]
    unfold Pte.cell
    rw [hz]
    rfl
  · rw [if_neg hin]
    have hl := hg.old v (by omega)
    show viewOf m'.ram t'.leaf v = viewOf m.ram t.leaf v
    unfold viewOf
    split
    · rw [hl]
      cases he : t.leaf v with
      | none => rfl
      | some e =>
        show some (e.cell m'.ram) = some (e.cell m.ram)
        unfold Pte.cell
        rw [hk.ram e.ppn (Or.inr ⟨v, ‹_›, e, he, rfl⟩)]
    · rfl

/-- The pages above the new break go from the view. -/
theorem privOf_shrink (hs : sz ≤ TRAPFRAME) (hlt : newsz < sz)
    (hk : m.Keeps (Seen (t.shrink sz newsz).leaf ts ks) m') :
    privOf m' (t.shrink sz newsz) newsz = (privOf m t sz).shrink newsz := by
  have hU := pages_le hs
  have hmono := pages_mono hlt.le
  have hleaf : (t.shrink sz newsz).leaf = t.cut (pages newsz) (pages sz - pages newsz) := by
    unfold PageTable.shrink
    rw [if_pos hlt]
  unfold privOf Priv.shrink
  congr 1
  rw [viewOf_keeps hk fun v hv e he => Or.inr ⟨v, hv, e, he, rfl⟩, hleaf]
  funext v
  unfold viewOf PageTable.cut
  by_cases hin : pages newsz ≤ v ∧ v < pages sz
  · rw [if_pos (by omega : v < USERVPN), if_pos (by omega), if_pos hin]
    rfl
  · rw [if_neg (by omega : ¬ (pages newsz ≤ v ∧ v < pages newsz + (pages sz - pages newsz))),
      if_neg hin]

/-- A break that would rise moves nothing. -/
theorem privOf_stay (hlt : ¬ newsz < sz) (hk : m.Keeps (Seen (t.shrink sz newsz).leaf ts ks) m') :
    privOf m' (t.shrink sz newsz) sz = privOf m t sz := by
  have ht : t.shrink sz newsz = t := if_neg hlt
  rw [ht] at hk ⊢
  exact congrArg (Priv.mk sz) (viewOf_keeps hk fun v hv e he => Or.inr ⟨v, hv, e, he, rfl⟩)

include h in
theorem Fits.same_leaf (hl : t'.leaf = t.leaf) : t'.Fits trampoline frame sz :=
  ⟨h.size, fun v hne => h.below v (hl ▸ hne), hl ▸ h.frame, hl ▸ h.trampoline⟩

include h in
theorem Fits.grown {f : Flags} (hle : sz ≤ newsz)
    (hT : newsz ≤ TRAPFRAME) (hg : Grew m' t t' ts ks (pages sz) (pages newsz - pages sz) f) :
    t'.Fits trampoline frame newsz := by
  have hU := pages_le hT
  have hmono := pages_mono hle
  refine ⟨hT, fun v hne => ?_, ?_, ?_⟩
  · by_cases hin : pages sz ≤ v ∧ v < pages sz + (pages newsz - pages sz)
    · exact Or.inl (by omega)
    · rw [hg.old v hin] at hne
      rcases h.below v hne with hlt | hhigh
      · exact Or.inl (by omega)
      · exact Or.inr hhigh
  · rw [hg.old USERVPN (by omega), h.frame]
  · rw [hg.old (USERVPN + 1) (by omega), h.trampoline]

include h in
theorem Fits.shrunk (newsz : Nat) : (t.shrink sz newsz).Fits trampoline frame (min sz newsz) := by
  unfold PageTable.shrink
  split
  · rename_i hlt
    have hU := pages_le h.size
    have hmono := pages_mono hlt.le
    rw [Nat.min_eq_right hlt.le]
    have hout : ∀ v, USERVPN ≤ v → t.cut (pages newsz) (pages sz - pages newsz) v = t.leaf v :=
      fun v hv => if_neg (by omega)
    refine ⟨hlt.le.trans h.size, fun v hne => ?_, ?_, ?_⟩
    · cases hc : t.cut (pages newsz) (pages sz - pages newsz) v with
      | none => exact absurd hc hne
      | some e =>
        obtain ⟨hl, hnin⟩ := cut_some hc
        rcases h.below v (by rw [hl]; exact Option.some_ne_none e) with hlt' | hhigh
        · exact Or.inl (by omega)
        · exact Or.inr hhigh
    · exact (hout USERVPN (Nat.le_refl _)).trans h.frame
    · exact (hout (USERVPN + 1) (by omega)).trans h.trampoline
  · rename_i hlt
    rw [Nat.min_eq_left (by omega)]
    exact h

/-- **What `sbrk` does to a process**: another table and another break, the rest is the same. -/
structure Resized (m m' : Mem) (p p' : Proc) (ts : List PageTable) (ks : List Nat)
    (trampoline : Nat) : Prop where
  same : p' = { p with pagetable := p'.pagetable, sz := p'.sz }
  inv : Inv m' (p'.pagetable :: ts) ks
  keeps : m.Keeps (Live ts ks) m'
  ok : p'.Ok trampoline

/-- **`growproc`** by any `int`. -/
theorem growproc_sat {p : Proc} (h : Inv m (p.pagetable :: ts) ks) (hp : p.Ok trampoline) {n : Int}
    (hlo : -2 ^ 31 ≤ n) (hhi : n < 2 ^ 31) :
    (growproc p n m).Returns
      fun r m' => Resized m m' p r.2 ts ks trampoline ∧
        (m'.oomWarned = false → (privOf m p.pagetable p.sz).sbrk n true =
          (if r.1 = true then some p.sz else none, privOf m' r.2.pagetable r.2.sz)) := by
  have hs := hp.size
  have hs' : p.sz ≤ 2 ^ 38 - 4096 - 4096 := hs
  have hstay : Resized m m p p ts ks trampoline := ⟨rfl, h, Mem.Keeps.refl m, hp⟩
  unfold growproc
  by_cases h0 : 0 < n
  · have hadd := addInt_nonneg hs h0.le hhi
    rw [if_pos h0]
    by_cases hT : TRAPFRAME < addInt p.sz n
    · rw [if_pos hT]
      exact ⟨hstay, fun _ => Priv.sbrk_refused h0.le hT⟩
    · rw [if_neg hT]
      have hle : p.sz ≤ addInt p.sz n := by omega
      refine (uvmalloc_sat h hs (fun v hv hU => hp.above hv hU)
        (Or.inl (Nat.le_of_not_lt hT)) Flags.W).bind fun r m1 ⟨hinv, hk, hres⟩ => ?_
      obtain ⟨sz1, t1⟩ := r
      have hkl : m.Keeps (Live ts ks) m1 := hk.mono fun q hq => Or.inl hq
      rcases hres with ⟨hlt, -⟩ | ⟨-, he, hg, hT1, -⟩ | ⟨-, he, hl, hoom⟩
      · omega
      · have he : sz1 = addInt p.sz n := he
        subst he
        show ((if addInt p.sz n = 0 then _ else _ : VmM (Bool × Proc)) m1).Sat _ _
        rw [if_neg (by omega)]
        exact ⟨⟨rfl, hinv, hkl, Fits.grown hp hle hT1 hg⟩, fun _ =>
          (Priv.sbrk_rise h0.le hT1).trans (congrArg (Prod.mk _) (privOf_grow hT1 hle hk hg).symm)⟩
      · have he : sz1 = 0 := he
        subst he
        show ((if 0 = 0 then _ else _ : VmM (Bool × Proc)) m1).Sat _ _
        rw [if_pos rfl]
        refine ⟨⟨rfl, hinv, hkl, Fits.same_leaf hp hl⟩, fun ho => ?_⟩
        rw [hoom] at ho
        cases ho
  · rw [if_neg h0]
    by_cases hneg : n < 0
    · rw [if_pos hneg]
      refine (uvmdealloc_sat h hs (addInt p.sz n)).bind fun r m1 ⟨hr, hinv, hk⟩ => ?_
      subst hr
      have hkl : m.Keeps (Live ts ks) m1 := hk.mono fun q hq => Or.inl hq
      refine ⟨⟨rfl, hinv, hkl, Fits.shrunk hp (addInt p.sz n)⟩, fun _ => ?_⟩
      rw [Priv.sbrk_fall hneg]
      refine congrArg (Prod.mk _) ?_
      show (if addInt p.sz n < p.sz then _ else _) = privOf m1 _ (min p.sz (addInt p.sz n))
      by_cases hlt : addInt p.sz n < p.sz
      · rw [if_pos hlt, Nat.min_eq_right hlt.le]
        exact (privOf_shrink hs hlt hk).symm
      · rw [if_neg hlt, Nat.min_eq_left (by omega)]
        exact (privOf_stay hlt hk).symm
    · rw [if_neg hneg]
      have hz : n = 0 := by omega
      subst hz
      refine ⟨hstay, fun _ => ?_⟩
      have hadd : addInt p.sz 0 = p.sz := addInt_nonneg hs (Int.le_refl 0) hhi
      have hT : addInt p.sz 0 ≤ TRAPFRAME := hadd.le.trans hs
      refine (Priv.sbrk_rise (Int.le_refl 0) hT).trans (congrArg (Prod.mk _) ?_)
      show (privOf m p.pagetable p.sz).grow (addInt p.sz 0) = _
      rw [hadd]
      exact Priv.grow_self _

theorem Int32.toInt_bounds (n : Int32) : -2 ^ 31 ≤ n.toInt ∧ n.toInt < 2 ^ 31 :=
  ⟨n.le_toInt, n.toInt_lt⟩

/-- **`sys_sbrk`**, eager or lazy, by any `int`: it keeps the shape, and implements the `sbrk` of
    private memory. -/
theorem sysSbrk_sat {p : Proc} (h : Inv m (p.pagetable :: ts) ks) (hp : p.Ok trampoline) (n : Int32)
    (eager : Bool) :
    (sysSbrk p n eager m).Returns
      fun r m' => Resized m m' p r.2 ts ks trampoline ∧
        (m'.oomWarned = false → (privOf m p.pagetable p.sz).sbrk n.toInt eager =
          (r.1, privOf m' r.2.pagetable r.2.sz)) := by
  have hs := hp.size
  obtain ⟨hlo, hhi⟩ := Int32.toInt_bounds n
  have hstay : Resized m m p p ts ks trampoline := ⟨rfl, h, Mem.Keeps.refl m, hp⟩
  unfold sysSbrk
  by_cases he : eager = true ∨ n.toInt < 0
  · rw [if_pos he]
    refine (growproc_sat h hp hlo hhi).bind fun r m1 ⟨hres, hview⟩ => ?_
    have hsame : (privOf m p.pagetable p.sz).sbrk n.toInt eager =
        (privOf m p.pagetable p.sz).sbrk n.toInt true := by
      rcases he with rfl | hneg
      · rfl
      · rw [Priv.sbrk_fall hneg, Priv.sbrk_fall hneg]
    rw [hsame]
    obtain ⟨ok, p1⟩ := r
    cases ok with
    | false => exact ⟨hres, hview⟩
    | true => exact ⟨hres, hview⟩
  · have h0 : 0 ≤ n.toInt := by omega
    have hf : eager = false := by simpa using fun h => he (Or.inl h)
    subst hf
    have hadd := addInt_nonneg hs h0 hhi
    rw [if_neg he, if_neg (by omega)]
    by_cases hT : TRAPFRAME < addInt p.sz n.toInt
    · rw [if_pos hT]
      exact ⟨hstay, fun _ => Priv.sbrk_refused h0 hT⟩
    · rw [if_neg hT]
      have hT' := Nat.le_of_not_lt hT
      have hmono : pages p.sz ≤ pages (addInt p.sz n.toInt) := pages_mono (by omega)
      refine ⟨⟨rfl, h, Mem.Keeps.refl m, hT', fun v hne => ?_, hp.frame, hp.trampoline⟩,
        fun _ => Priv.sbrk_rise h0 hT'⟩
      rcases hp.below v hne with hlt | hhigh
      · exact Or.inl (Nat.lt_of_lt_of_le hlt hmono)
      · exact Or.inr hhigh

end

end HaiOS.Vm
