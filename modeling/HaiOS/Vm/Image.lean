/-
  File:      HaiOS/Vm/Image.lean
  Subject:   THE IMAGE THAT `kexec` BUILDS, beside the address space the process still has.

  * `Image` -- the table under construction: it has the shape of a process's table, and every user
    page it maps is its own;
  * `kexec_sat` -- all or nothing: the old address space with every page of the new one given back,
    or the new one with every page of the old one given back.
-/
import HaiOS.Vm.Spaces
import HaiOS.Vm.Exec

namespace HaiOS.Vm

open Lib Lib.Routine

/-- **The table under construction**, with the break `sz`. -/
structure Image (m : Mem) (t : PageTable) (ts : List PageTable) (ks : List Nat)
    (trampoline frame sz : Nat) : Prop where
  inv : Inv m (t :: ts) ks
  fits : t.Fits trampoline frame sz
  own : ∀ v < USERVPN, ∀ e, t.leaf v = some e → ¬ Live ts ks e.ppn

/-- The pages below `n` are there, for user code. -/
def PageTable.Loaded (t : PageTable) (n : Nat) : Prop :=
  ∀ v < n, ∃ e, t.leaf v = some e ∧ e.flags.u = true

section

variable {m m' : Mem} {t t' : PageTable} {ts : List PageTable} {ks : List Nat}
  {trampoline frame sz newsz : Nat} {f : Flags}

variable {n v va offset len off szold lo hi sp entry : Nat}

theorem PageTable.Loaded.dense (h : t.Loaded n) : t.Dense n := by
  intro v hv hn
  obtain ⟨e, he, -⟩ := h v hv
  rw [hn] at he
  cases he

variable (h : Image m t ts ks trampoline frame sz)

include h in
theorem Image.same_leaf (hinv : Inv m' (t' :: ts) ks)
    (hl : t'.leaf = t.leaf) : Image m' t' ts ks trampoline frame sz :=
  ⟨hinv, Fits.same_leaf h.fits hl, fun v hv e he => h.own v hv e (hl ▸ he)⟩

include h in
/-- `uvmalloc` added pages. -/
theorem Image.grown (hinv : Inv m' (t' :: ts) ks) (hle : sz ≤ newsz) (hT : newsz ≤ TRAPFRAME)
    (hg : Grew m' t t' ts ks (pages sz) (pages newsz - pages sz) f) :
    Image m' t' ts ks trampoline frame newsz := by
  refine ⟨hinv, Fits.grown h.fits hle hT hg, fun v hv e he => ?_⟩
  by_cases hin : pages sz ≤ v ∧ v < pages sz + (pages newsz - pages sz)
  · obtain ⟨p, hl, -, hown⟩ := hg.new v hin.1 hin.2
    rw [hl] at he
    cases he
    exact hown
  · rw [hg.old v hin] at he
    exact h.own v hv e he

theorem PageTable.Loaded.grown (h : t.Loaded (pages sz)) (hf : f.u = true)
    (hg : Grew m' t t' ts ks (pages sz) (pages newsz - pages sz) f) : t'.Loaded (pages newsz) := by
  intro v hv
  by_cases hin : pages sz ≤ v
  · obtain ⟨p, hl, -⟩ := hg.new v hin (by omega)
    exact ⟨_, hl, hf⟩
  · rw [hg.old v (by omega)]
    exact h v (by omega)

/-! ## 1. Loading -/

/-- Bytes written to a page of the image. -/
theorem Image.poke (h : Image m t ts ks trampoline frame sz) {e : Pte} (hv : v < USERVPN)
    (hl : t.leaf v = some e) (off : Nat) (bs : List UInt8) :
    (poke e.ppn off bs m).Returns
      fun _ m' => Image m' t ts ks trampoline frame sz ∧ m.Keeps (Live ts ks) m' ∧
        m'.oomWarned = m.oomWarned := by
  refine ⟨⟨h.inv.setRam _, h.fits, h.own⟩, ⟨rfl, fun q hq => Function.update_of_ne ?_ _ _, id⟩, rfl⟩
  rintro rfl
  exact h.own v hv e hl hq

variable {x : Exe}

/-- The loop of `loadseg`: the segment lies inside the image, so every address exists. -/
theorem loadsegLoop_sat (hlen : va + len ≤ sz) (hld : t.Loaded (pages sz)) (k : Nat) {i : Nat}
    (hi : k = 0 ∨ i + (k - 1) * PGSIZE < len) (h : Image m t ts ks trampoline frame sz) :
    (loadsegLoop x t va offset len k i m).Returns
      fun _ m' => Image m' t ts ks trampoline frame sz ∧ m.Keeps (Live ts ks) m' := by
  induction k generalizing m i with
  | zero => exact ⟨h, Mem.Keeps.refl m⟩
  | succ k ih =>
    have hs : sz ≤ 2 ^ 38 - 4096 - 4096 := h.fits.size
    have hlt : i + k * 4096 < len := by
      rcases hi with hi | hi
      · omega
      · exact hi
    have hv : (va + i) / PGSIZE < pages sz := by
      rw [pages_eq]
      show (va + i) / 4096 < _
      omega
    obtain ⟨e, he, hu⟩ := hld _ hv
    have hwalk : t.walkaddr ((va + i) % 2 ^ 64) = some e.ppn := by
      rw [Nat.mod_eq_of_lt (by omega)]
      unfold PageTable.walkaddr
      rw [(h.inv.wf t List.mem_cons_self).pte_eq, he]
      exact if_pos hu
    have hvU : (va + i) / PGSIZE < USERVPN := Nat.lt_of_lt_of_le hv (pages_le h.fits.size)
    unfold loadsegLoop
    rw [hwalk]
    simp only
    generalize (if len - i < PGSIZE then len - i else PGSIZE) = n
    refine (h.poke hvU he 0 _).bind fun _ m1 ⟨himg, hk, _⟩ => ?_
    split
    · exact ⟨himg, hk⟩
    · refine (ih ?_ himg).imp fun _ m2 ⟨himg2, hk2⟩ => ⟨himg2, hk.trans hk2⟩
      by_cases hk0 : k = 0
      · exact Or.inl hk0
      · refine Or.inr ?_
        show i + 4096 + (k - 1) * 4096 < len
        omega

/-- **`loadseg`** of a segment inside the image. -/
theorem loadseg_sat (hlen : va + len ≤ sz) (hld : t.Loaded (pages sz))
    (h : Image m t ts ks trampoline frame sz) :
    (loadseg x t va offset len m).Returns
      fun _ m' => Image m' t ts ks trampoline frame sz ∧ m.Keeps (Live ts ks) m' := by
  refine loadsegLoop_sat hlen hld _ ?_ h
  show (len + 4095) / 4096 = 0 ∨ 0 + ((len + 4095) / 4096 - 1) * 4096 < len
  omega

theorem field_lt (bs : List UInt8) (o w : Nat) : field bs o w < 256 ^ w := by
  refine Nat.lt_of_lt_of_le (ofLE_lt _) (Nat.pow_le_pow_right (by decide) ?_)
  rw [List.length_take]
  exact Nat.min_le_left _ _

/-- One segment that `uvmalloc` has made room for. -/
theorem loadSegment_sat {x : Exe} {k off : Nat} {ph : Proghdr}
    (ih : ∀ {m : Mem} {t : PageTable} {off sz : Nat}, Image m t ts ks trampoline frame sz →
      t.Loaded (pages sz) → (loadProgram x k off t sz m).Returns
        fun r m' => Image m' r.2.1 ts ks trampoline frame r.2.2 ∧ r.2.1.Loaded (pages r.2.2) ∧
          m.Keeps (Live ts ks) m')
    (hlen : ph.vaddr + ph.filesz % 2 ^ 32 ≤ sz)
    (h : Image m t ts ks trampoline frame sz) (hld : t.Loaded (pages sz)) :
    ((do
        let ok ← loadseg x t ph.vaddr (ph.off % 2 ^ 32) (ph.filesz % 2 ^ 32)
        if ok = false then pure (false, t, sz) else loadProgram x k off t sz :
        VmM (Bool × PageTable × Nat)) m).Returns
      fun r m' => Image m' r.2.1 ts ks trampoline frame r.2.2 ∧ r.2.1.Loaded (pages r.2.2) ∧
        m.Keeps (Live ts ks) m' := by
  refine (loadseg_sat hlen hld h).bind fun ok m1 ⟨himg, hk⟩ => ?_
  cases ok with
  | false => exact ⟨himg, hld, hk⟩
  | true => exact (ih himg hld).imp fun r m2 ⟨himg2, hld2, hk2⟩ => ⟨himg2, hld2, hk.trans hk2⟩

/-- **The program headers**: whatever the file says, the loop ends in an image whose pages below the
    break are all there. -/
theorem loadProgram_sat (k : Nat) (h : Image m t ts ks trampoline frame sz)
    (hld : t.Loaded (pages sz)) :
    (loadProgram x k off t sz m).Returns
      fun r m' => Image m' r.2.1 ts ks trampoline frame r.2.2 ∧ r.2.1.Loaded (pages r.2.2) ∧
        m.Keeps (Live ts ks) m' := by
  induction k generalizing m t off sz with
  | zero => exact ⟨h, hld, Mem.Keeps.refl m⟩
  | succ k ih =>
    have hstop : ((pure (false, t, sz) : VmM (Bool × PageTable × Nat)) m).Returns
        fun r m' => Image m' r.2.1 ts ks trampoline frame r.2.2 ∧ r.2.1.Loaded (pages r.2.2) ∧
          m.Keeps (Live ts ks) m' := ⟨h, hld, Mem.Keeps.refl m⟩
    unfold loadProgram
    simp only
    generalize x.readi off PROGHDR_SIZE = bs
    have hv64 : (proghdr bs).vaddr < 2 ^ 64 := field_lt bs 16 8
    have hm64 : (proghdr bs).memsz < 2 ^ 64 := field_lt bs 40 8
    generalize proghdr bs = ph at hv64 hm64 ⊢
    split
    · exact hstop
    split
    · exact ih h hld
    split
    · exact hstop
    split
    · exact hstop
    split
    · exact hstop
    rename_i hfile hwrap _
    generalize hend : (ph.vaddr + ph.memsz) % 2 ^ 64 = newsz at hwrap ⊢
    have hfit : ph.vaddr + ph.filesz % 2 ^ 32 ≤ newsz := by
      omega
    refine (uvmalloc_sat h.inv h.fits.size (fun v hv hU => h.fits.above hv hU)
      (Or.inr hld.dense) (flags2perm ph.flags)).bind fun r m1 ⟨hinv, hk, hres⟩ => ?_
    obtain ⟨sz1, t1⟩ := r
    have hkl : m.Keeps (Live ts ks) m1 := hk.mono fun q hq => Or.inl hq
    rcases hres with ⟨hlt, he, rfl⟩ | ⟨hle, he, hg, hT, -⟩ | ⟨hle, he, hl, -⟩
    · cases he
      simp only
      rw [if_neg (by omega : ¬ sz = 0)]
      exact loadSegment_sat ih (by omega) h hld
    · have he : sz1 = newsz := he
      subst he
      have himg : Image m1 t1 ts ks trampoline frame sz1 := h.grown hinv hle hT hg
      have hld1 : t1.Loaded (pages sz1) := hld.grown rfl hg
      simp only
      by_cases h0 : sz1 = 0
      · have e : sz = sz1 := by omega
        rw [if_pos h0, e]
        exact ⟨himg, hld1, hkl⟩
      · rw [if_neg h0]
        exact (loadSegment_sat ih hfit himg hld1).imp
          fun r m2 ⟨himg2, hld2, hk2⟩ => ⟨himg2, hld2, hkl.trans hk2⟩
    · have he : sz1 = 0 := he
      subst he
      refine ⟨h.same_leaf hinv hl, fun v hv => ?_, hkl⟩
      rw [hl]
      exact hld v hv

/-! ## 2. The stack -/

/-- The pages from `lo` up to `hi` are there and user code may write them. -/
def PageTable.Writable (t : PageTable) (lo hi : Nat) : Prop :=
  ∀ v, lo ≤ v → v < hi → ∃ e, t.leaf v = some e ∧ e.flags.u = true ∧ e.flags.w = true

/-- What is left to copy after a page still ends where it should. -/
theorem next_end {d n e : Nat} (h : d + n ≤ e) (hd : ¬ n ≤ 4096 - d % 4096) :
    d / 4096 * 4096 + 4096 + (n - min (4096 - d % 4096) n) ≤ e := by
  omega

/-- A page that is there and writable lets an access through as it is. -/
theorem touch_there {e : Pte} (hs : sz ≤ TRAPFRAME) (hv : v < USERVPN) (hl : t.leaf v = some e)
    (hu : e.flags.u = true) (hw : e.flags.w = true) :
    (privOf m t sz).touch true (v * PGSIZE) = (some (e.cell m.ram), privOf m t sz) := by
  have hdiv : v * PGSIZE / PGSIZE = v := Nat.mul_div_cancel v (by decide)
  have hfault : (privOf m t sz).fault (v * PGSIZE) = privOf m t sz := by
    refine fault_same hs fun hc => ?_
    rw [hdiv, hl] at hc
    cases hc.2
  unfold Priv.touch
  rw [hfault]
  rw [← hdiv] at hv hl
  rw [find_there hv hl hu fun _ => hw]

variable {told : PageTable}

/-- **`copyout` into the image**, where every page is there and writable: it succeeds, neither table
    changes, and the bytes are in the image. -/
theorem copyoutLoop_image (hhi : hi ≤ USERVPN) (hall : t.Writable lo hi) (k : Nat) {dstva : Nat}
    {src : List UInt8} (hlo : lo * PGSIZE ≤ dstva) (hend : dstva + src.length ≤ hi * PGSIZE)
    (h : Image m t ts ks trampoline frame sz) :
    (copyoutLoop k ⟨told, szold, some t⟩ dstva src m).Returns
      fun r m' => r = (true, ⟨told, szold, some t⟩) ∧ Image m' t ts ks trampoline frame sz ∧
        m.Keeps (Live ts ks) m' ∧
        Priv.copyoutLoop k (privOf m t sz) dstva src = (true, privOf m' t sz) := by
  induction k generalizing m dstva src with
  | zero => exact ⟨rfl, h, Mem.Keeps.refl m, rfl⟩
  | succ k ih =>
    unfold copyoutLoop
    split
    · rename_i hsrc
      refine ⟨rfl, h, Mem.Keeps.refl m, ?_⟩
      show (if src = [] then _ else _) = _
      rw [if_pos hsrc]
    · rename_i hne
      have hpos : 0 < src.length := List.length_pos_iff.mpr hne
      have hlo' : lo * 4096 ≤ dstva := hlo
      have hend' : dstva + src.length ≤ hi * 4096 := hend
      have h1 : lo ≤ dstva / PGSIZE := by
        show lo ≤ dstva / 4096
        omega
      have h2 : dstva / PGSIZE < hi := by
        show dstva / 4096 < hi
        omega
      obtain ⟨e, he, hu, hw⟩ := hall _ h1 h2
      have hvU : dstva / PGSIZE < USERVPN := by omega
      have hwf := h.inv.wf t List.mem_cons_self
      have hpte : t.pte (pgrounddown dstva) = some e := by
        rw [hwf.pte_eq, pgrounddown_div, he]
      have hpage : copyoutPage ⟨told, szold, some t⟩ (pgrounddown dstva) m =
          .ok (some e.ppn, ⟨told, szold, some t⟩) m := by
        have hva : ¬ MAXVA ≤ pgrounddown dstva := by
          show ¬ 2 ^ 38 ≤ dstva / 4096 * 4096
          rw [USERVPN_eq] at hvU
          have : dstva / 4096 < 67108862 := hvU
          omega
        have hcur : (⟨told, szold, some t⟩ : Space).cur = t := rfl
        unfold copyoutPage addrOrFault PageTable.walkaddr
        rw [if_neg hva, hcur, hpte]
        simp only [if_pos hu]
        rw [pure_bind]
        simp only [hcur, hpte, if_pos hw]
        rfl
      rw [bind_ok hpage]
      refine ((h.poke hvU he _ _).and (poke_own h.inv hvU he hw _ _ sz)).bind ?_
      rintro _ m1 ⟨⟨himg, hk, -⟩, -, -, hview⟩
      -- the copy of private memory takes the same step
      have hstep : ∀ o, Priv.copyoutLoop k (privOf m1 t sz) (pgrounddown dstva + PGSIZE)
          (src.drop (min (PGSIZE - (dstva - pgrounddown dstva)) src.length)) = o →
          Priv.copyoutLoop (k + 1) (privOf m t sz) dstva src = o := by
        rintro _ rfl
        show (if src = [] then _ else _) = _
        rw [if_neg hne, touch_there h.fits.size hvU he hu hw, hview, sub_pgrounddown]
        rfl
      by_cases hdone : src.length ≤ PGSIZE - (dstva - pgrounddown dstva)
      · -- the last page: nothing is left to copy
        have hnil : src.drop (min (PGSIZE - (dstva - pgrounddown dstva)) src.length) = [] := by
          rw [Nat.min_eq_right hdone, List.drop_length]
        rw [hnil] at hstep ⊢
        cases k with
        | zero => exact ⟨rfl, himg, hk, hstep _ rfl⟩
        | succ k => exact ⟨rfl, himg, hk, hstep _ rfl⟩
      · refine (ih ?_ ?_ himg).imp ?_
        · show lo * 4096 ≤ dstva / 4096 * 4096 + 4096
          omega
        · rw [sub_pgrounddown] at hdone ⊢
          have hdone' : ¬ src.length ≤ 4096 - dstva % 4096 := hdone
          rw [List.length_drop]
          exact next_end hend' hdone'
        · rintro r m2 ⟨hr, himg2, hk2, hcopy⟩
          exact ⟨hr, himg2, hk.trans hk2, hstep _ hcopy⟩

/-- The strings go onto the stack. -/
theorem pushArgs_sat {told : PageTable} {szold lo hi : Nat} (hhi : hi ≤ USERVPN) (hlo : 0 < lo)
    (hall : t.Writable lo hi) (argv : List (List UInt8)) {sp : Nat} {ustack : List Nat}
    (hargs : ∀ a ∈ argv, a.length < PGSIZE) (hsp : lo * PGSIZE ≤ sp) (htop : sp ≤ hi * PGSIZE)
    (h : Image m t ts ks trampoline frame sz) :
    (pushArgs (lo * PGSIZE) argv sp ustack ⟨told, szold, some t⟩ m).Returns
      fun r m' => r.2 = ⟨told, szold, some t⟩ ∧ Image m' t ts ks trampoline frame sz ∧
        m.Keeps (Live ts ks) m' ∧ ∀ x, r.1 = some x → lo * PGSIZE ≤ x.1 ∧ x.1 ≤ hi * PGSIZE ∧
          x.2.length = ustack.length + argv.length ∧ (x.2.length ≤ MAXARG ∨ x.2 = ustack) := by
  induction argv generalizing m sp ustack with
  | nil =>
    refine ⟨rfl, h, Mem.Keeps.refl m, ?_⟩
    rintro _ ⟨⟩
    exact ⟨hsp, htop, rfl, Or.inr rfl⟩
  | cons arg argv ih =>
    have hstop : ((pure (none, ⟨told, szold, some t⟩) :
        VmM (Option (Nat × List Nat) × Space)) m).Returns
        fun r m' => r.2 = ⟨told, szold, some t⟩ ∧ Image m' t ts ks trampoline frame sz ∧
          m.Keeps (Live ts ks) m' ∧ ∀ x, r.1 = some x → lo * PGSIZE ≤ x.1 ∧ x.1 ≤ hi * PGSIZE ∧
            x.2.length = ustack.length + (arg :: argv).length ∧
              (x.2.length ≤ MAXARG ∨ x.2 = ustack) :=
      ⟨rfl, h, Mem.Keeps.refl m, fun _ hx => nomatch hx⟩
    have harg : arg.length < 4096 := hargs arg List.mem_cons_self
    have hsp' : lo * 4096 ≤ sp := hsp
    have htop' : sp ≤ hi * 4096 := htop
    have hU := hhi
    rw [USERVPN_eq] at hU
    unfold pushArgs
    split
    · exact hstop
    rename_i hmax
    have hsub : (sp + 2 ^ 64 - (arg.length + 1)) % 2 ^ 64 = sp - (arg.length + 1) := by omega
    simp only [hsub]
    generalize hnew : sp - (arg.length + 1) - (sp - (arg.length + 1)) % 16 = sp1
    split
    · exact hstop
    rename_i hbase
    have hbase' : ¬ sp1 < lo * 4096 := hbase
    have hlen : sp1 + (arg ++ [0]).length ≤ hi * PGSIZE := by
      rw [List.length_append]
      show sp1 + (arg.length + 1) ≤ hi * 4096
      omega
    refine (copyoutLoop_image hhi hall _ (Nat.le_of_not_lt hbase) hlen h).bind
      fun r m1 ⟨hr, himg, hk, _⟩ => ?_
    subst hr
    refine (ih (fun a ha => hargs a (List.mem_cons_of_mem _ ha)) (Nat.le_of_not_lt hbase)
      (by omega) himg).imp fun r m2 ⟨hr, himg2, hk2, hx⟩ => ⟨hr, himg2, hk.trans hk2, fun x hxx => ?_⟩
    obtain ⟨h1, h2, h3, h4⟩ := hx x hxx
    rw [List.length_append, List.length_singleton] at h3
    refine ⟨h1, h2, by rw [h3, List.length_cons]; omega, Or.inl ?_⟩
    rcases h4 with h4 | h4
    · exact h4
    · rw [h4, List.length_append, List.length_singleton]
      omega

variable {argv : List (List UInt8)}

/-- **The strings and their addresses go onto the stack**, or there is no room; both tables stay. -/
theorem pushStack_sat (hhi : hi ≤ USERVPN) (hlo : 0 < lo) (hall : t.Writable lo hi)
    (hargs : ∀ a ∈ argv, a.length < PGSIZE) (hsp : lo * PGSIZE ≤ sp) (htop : sp ≤ hi * PGSIZE)
    (h : Image m t ts ks trampoline frame sz) :
    (pushStack (lo * PGSIZE) argv sp ⟨told, szold, some t⟩ m).Returns
      fun r m' => r.2 = ⟨told, szold, some t⟩ ∧ Image m' t ts ks trampoline frame sz ∧
        m.Keeps (Live ts ks) m' := by
  refine (pushArgs_sat hhi hlo hall argv hargs hsp htop h).bind
    fun r m1 ⟨hr, himg, hk, hx⟩ => ?_
  obtain ⟨o, s1⟩ := r
  cases hr
  cases o with
  | none => exact ⟨rfl, himg, hk⟩
  | some x =>
    obtain ⟨sp1, ustack⟩ := x
    obtain ⟨h1, h2, -, h4⟩ := hx _ rfl
    have h1' : lo * 4096 ≤ sp1 := h1
    have h2' : sp1 ≤ hi * 4096 := h2
    have hlen : ustack.length ≤ 32 := by
      rcases h4 with h4 | h4
      · exact h4
      · have h4 : ustack = [] := h4
        rw [h4]
        exact Nat.zero_le _
    have hU := hhi
    rw [USERVPN_eq] at hU
    have hsub : (sp1 + 2 ^ 64 - (ustack.length + 1) * 8) % 2 ^ 64 =
        sp1 - (ustack.length + 1) * 8 := by omega
    simp only [hsub]
    generalize hnew : sp1 - (ustack.length + 1) * 8 - (sp1 - (ustack.length + 1) * 8) % 16 = sp2
    split
    · exact ⟨rfl, himg, hk⟩
    · rename_i hbase
      have hbytes : ((ustack ++ [0]).flatMap (le 8)).length = (ustack.length + 1) * 8 := by
        rw [List.length_flatMap]
        simp
        omega
      have hend : sp2 + ((ustack ++ [0]).flatMap (le 8)).length ≤ hi * PGSIZE := by
        rw [hbytes]
        omega
      refine (copyoutLoop_image hhi hall _ (Nat.le_of_not_lt hbase) hend himg).bind
        fun r m2 ⟨hr, himg2, hk2, _⟩ => ?_
      subst hr
      exact ⟨rfl, himg2, hk.trans hk2⟩

/-! ## 3. `kexec` -/

/-- The pages that a table refers to, itself or for user code. -/
def PageTable.Refers (t : PageTable) (q : Nat) : Prop := 0 < t.tables q + t.users q

include h in
/-- Everything the image refers to is its own. -/
theorem Image.fresh {q : Nat} (hq : t.Refers q) : refs ts ks q = 0 := by
  unfold PageTable.Refers at hq
  by_cases hk : 0 < t.tables q
  · have h1 := h.inv.held q (by rw [kernRefs_cons]; omega)
    rw [refs_cons] at h1
    omega
  · obtain ⟨v, hv, e, he, rfl⟩ := PageTable.users_pos.mp (by omega : 0 < t.users q)
    have := h.own v hv e he
    unfold Live at this
    omega

/-- **How `kexec` ends**: the process as it was, with the memory accounted for as before; or the
    process with a new address space, nothing of which was in use before. -/
inductive KexecEnd (m m' : Mem) (p : Proc) (ts : List PageTable) (ks : List Nat) (trampoline : Nat) :
    Int × Proc → Prop
  | failed (inv : Inv m' (p.pagetable :: ts) ks)
      (keeps : m.Keeps (Live (p.pagetable :: ts) ks) m') : KexecEnd m m' p ts ks trampoline (-1, p)
  | done {n : Nat} {p' : Proc} (inv : Inv m' (p'.pagetable :: ts) ks) (keeps : m.Keeps (Live ts ks) m')
      (ok : p'.Ok trampoline)
      (same : p' = { p with
        pagetable := p'.pagetable, sz := p'.sz, name := p'.name, trapframe := p'.trapframe })
      (fresh : ∀ q, p'.pagetable.Refers q → refs (p.pagetable :: ts) ks q = 0)
      (stack : ∃ v < USERVPN, ∃ e, p'.pagetable.leaf v = some e ∧ e.flags.w = true) :
      KexecEnd m m' p ts ks trampoline (n, p')

variable {p : Proc}

/-- `goto bad`: the image is given back. -/
theorem bad_sat {m0 : Mem} (h : Image m t (p.pagetable :: ts) ks trampoline p.frame sz)
    (hk : m0.Keeps (Live (p.pagetable :: ts) ks) m) :
    (bad p t sz m).Returns fun r m' => KexecEnd m0 m' p ts ks trampoline r := by
  exact (procFreepagetable_sat h.inv h.fits).bind fun _ m1 ⟨hinv, hk1⟩ =>
    KexecEnd.failed hinv (hk.trans hk1)

/-- The break rounded up maps the same pages. -/
theorem Fits.rounded (h : t.Fits trampoline frame sz) :
    t.Fits trampoline frame (pages sz * PGSIZE) ∧ pages (pages sz * PGSIZE) = pages sz := by
  have hs : sz ≤ 2 ^ 38 - 4096 - 4096 := h.size
  have hp : pages (pages sz * PGSIZE) = pages sz := by
    rw [pages_eq (pages sz * PGSIZE)]
    show (pages sz * 4096 + 4095) / 4096 = pages sz
    omega
  refine ⟨⟨?_, fun v hne => ?_, h.frame, h.trampoline⟩, hp⟩
  · rw [pages_eq]
    show (sz + 4095) / 4096 * 4096 ≤ 2 ^ 38 - 4096 - 4096
    omega
  · rw [hp]
    exact h.below v hne

include h in
/-- The guard page is taken from user code. -/
theorem Image.guard {e : Pte} (hv : v < pages sz)
    (hl : t.leaf v = some e) (f : Flags) (hinv : Inv m (t.setLeaf v (some ⟨e.ppn, f⟩) :: ts) ks) :
    Image m (t.setLeaf v (some ⟨e.ppn, f⟩)) ts ks trampoline frame sz := by
  have hU := pages_le h.fits.size
  refine ⟨hinv, ⟨h.fits.size, fun v' hne => ?_, ?_, ?_⟩, fun v' hv' e' he' => ?_⟩
  · rw [PageTable.leaf_setLeaf] at hne
    split at hne
    · exact Or.inl (by omega)
    · exact h.fits.below v' hne
  · rw [PageTable.leaf_setLeaf, if_neg (by omega), h.fits.frame]
  · rw [PageTable.leaf_setLeaf, if_neg (by omega), h.fits.trampoline]
  · rcases Inv.leaf_cases he' with ⟨-, ⟨⟩⟩ | ⟨-, he'⟩
    · exact h.own v (by omega) e hl
    · exact h.own v' hv' e' he'

variable {path : List UInt8}

/-- The lower one of two new pages at the top of the image becomes the guard page; the stack is the
    other one. -/
theorem guardPage_sat (h : Image m t ts ks trampoline frame ((n + 2) * PGSIZE))
    (hguard : ∃ g, t.leaf n = some ⟨g, Flags.W.user⟩)
    (hstack : ∃ g, t.leaf (n + 1) = some ⟨g, Flags.W.user⟩) :
    (uvmclear t ((n + 2) * PGSIZE - (USERSTACK + 1) * PGSIZE) m).Returns
      fun t' m' => m' = m ∧ Image m t' ts ks trampoline frame ((n + 2) * PGSIZE) ∧
        n + 2 ≤ USERVPN ∧ t'.Writable (n + 1) (n + 2) ∧
        ∃ g, t'.leaf n = some ⟨g, { Flags.W.user with u := false }⟩ := by
  obtain ⟨guard, hgl⟩ := hguard
  obtain ⟨stack, hsl⟩ := hstack
  have hT : (n + 2) * 4096 ≤ 2 ^ 38 - 4096 - 4096 := h.fits.size
  have hU : n + 2 ≤ USERVPN := by
    rw [USERVPN_eq]
    omega
  have hpg : n < pages ((n + 2) * PGSIZE) := by
    rw [pages_eq]
    show n < ((n + 2) * 4096 + 4095) / 4096
    omega
  have hbase : (n + 2) * PGSIZE - (USERSTACK + 1) * PGSIZE = n * PGSIZE :=
    (Nat.sub_mul (n + 2) (USERSTACK + 1) PGSIZE).symm
  rw [hbase]
  refine (uvmclear_sat h.inv (by omega) hgl).imp fun t' m' hq => ?_
  obtain ⟨rfl, rfl, hinv⟩ := hq
  refine ⟨rfl, h.guard hpg hgl _ hinv, hU, fun v h1 h2 => ?_, guard, ?_⟩
  · obtain rfl : v = n + 1 := by omega
    refine ⟨⟨stack, Flags.W.user⟩, ?_, rfl, rfl⟩
    rw [PageTable.leaf_setLeaf, if_neg (by omega), hsl]
  · rw [PageTable.leaf_setLeaf, if_pos rfl]

/-- **The last part of `kexec`**, with two new pages at the top of the image. -/
theorem kexecCommit_sat {m0 : Mem}
    (h : Image m t (p.pagetable :: ts) ks trampoline p.frame ((n + 2) * PGSIZE))
    (hguard : ∃ g, t.leaf n = some ⟨g, Flags.W.user⟩)
    (hstack : ∃ g, t.leaf (n + 1) = some ⟨g, Flags.W.user⟩) (hp : p.Ok trampoline)
    (hargs : ∀ a ∈ argv, a.length < PGSIZE) (hk : m0.Keeps (Live (p.pagetable :: ts) ks) m) :
    (kexecCommit p entry path argv t ((n + 2) * PGSIZE) m).Returns
      fun r m' => KexecEnd m0 m' p ts ks trampoline r := by
  have hsp : (n + 2) * PGSIZE - USERSTACK * PGSIZE = (n + 1) * PGSIZE :=
    (Nat.sub_mul (n + 2) USERSTACK PGSIZE).symm
  unfold kexecCommit
  rw [hsp]
  refine (guardPage_sat h hguard hstack).bind fun t2 m2 hq2 => ?_
  obtain ⟨rfl, himg2, hU, hwr, -⟩ := hq2
  refine (pushStack_sat hU (Nat.succ_pos _) hwr hargs
    (Nat.mul_le_mul_right _ (by omega)) (Nat.le_refl _) himg2).bind fun r m3 ⟨hr, himg3, hk3⟩ => ?_
  obtain ⟨o, s3⟩ := r
  cases hr
  have hk3 := hk.trans hk3
  cases o with
  | none => exact bad_sat himg3 hk3
  | some sp =>
    have hswap : Inv m3 (p.pagetable :: t2 :: ts) ks :=
      himg3.inv.perm (List.Perm.swap _ _ _) (List.Perm.refl ks)
    refine (procFreepagetable_sat hswap hp).bind fun _ m4 ⟨hinv4, hk4⟩ => ?_
    obtain ⟨e, he, -, hew⟩ := hwr (n + 1) (Nat.le_refl _) (Nat.lt_succ_self _)
    refine KexecEnd.done hinv4 ?_ himg3.fits rfl (fun q hq => himg3.fresh hq)
      ⟨n + 1, by omega, e, he, hew⟩
    exact (hk3.mono fun q hq => live_cons hq).trans (hk4.mono fun q hq => live_cons hq)

include h in
/-- **The two pages at the top of the image**, the guard page and the stack, or no memory for them. -/
theorem stackPages_sat (hld : t.Loaded (pages sz)) :
    (uvmalloc t (pgroundup sz) ((pgroundup sz + (USERSTACK + 1) * PGSIZE) % 2 ^ 64) Flags.W m).Returns
      fun r m' => m.Keeps (Live ts ks) m' ∧
        (r.1 = 0 ∧ Image m' r.2 ts ks trampoline frame (pgroundup sz) ∨
          ∃ n, r.1 = (n + 2) * PGSIZE ∧ Image m' r.2 ts ks trampoline frame ((n + 2) * PGSIZE) ∧
            (∃ g, r.2.leaf n = some ⟨g, Flags.W.user⟩) ∧
            ∃ g, r.2.leaf (n + 1) = some ⟨g, Flags.W.user⟩) := by
  obtain ⟨hfit, hpg⟩ := Fits.rounded h.fits
  have hdense := hld.dense
  rw [pgroundup_eq h.fits.size]
  generalize pages sz = n at hfit hpg hdense ⊢
  have himg0 : Image m t ts ks trampoline frame (n * PGSIZE) := ⟨h.inv, hfit, h.own⟩
  have hT : n * 4096 ≤ 2 ^ 38 - 4096 - 4096 := hfit.size
  have hnew : (n * PGSIZE + (USERSTACK + 1) * PGSIZE) % 2 ^ 64 = (n + 2) * PGSIZE := by
    show (n * 4096 + (1 + 1) * 4096) % 2 ^ 64 = (n + 2) * 4096
    omega
  have hpg2 : pages ((n + 2) * PGSIZE) = n + 2 := by
    rw [pages_eq]
    show ((n + 2) * 4096 + 4095) / 4096 = n + 2
    omega
  rw [hnew]
  refine (uvmalloc_sat h.inv hfit.size (fun v hv hU => hfit.above hv hU)
    (Or.inr (hpg.symm ▸ hdense)) Flags.W).imp fun r m1 ⟨hinv, hkk, hres⟩ =>
      ⟨hkk.mono fun q hq => Or.inl hq, ?_⟩
  rcases hres with ⟨hlt, -⟩ | ⟨hle, he, hg, hT1, -⟩ | ⟨-, he, hl, -⟩
  · have : (n + 2) * 4096 < n * 4096 := hlt
    omega
  · refine Or.inr ⟨n, he, himg0.grown hinv hle hT1 hg, ?_⟩
    rw [hpg, hpg2] at hg
    have hpage : ∀ v, n ≤ v → v < n + 2 → ∃ g, r.2.leaf v = some ⟨g, Flags.W.user⟩ := by
      intro v h1 h2
      obtain ⟨g, hl, -⟩ := hg.new v h1 (by omega)
      exact ⟨g, hl⟩
    exact ⟨hpage n (Nat.le_refl n) (by omega), hpage (n + 1) (Nat.le_succ n) (by omega)⟩
  · exact Or.inl ⟨he, himg0.same_leaf hinv hl⟩

/-- **The second half of `kexec`.** -/
theorem kexecStack_sat {m0 : Mem} (h : Image m t (p.pagetable :: ts) ks trampoline p.frame sz)
    (hld : t.Loaded (pages sz)) (hp : p.Ok trampoline) (hargs : ∀ a ∈ argv, a.length < PGSIZE)
    (hk : m0.Keeps (Live (p.pagetable :: ts) ks) m) :
    (kexecStack p entry path argv t sz m).Returns fun r m' => KexecEnd m0 m' p ts ks trampoline r := by
  refine (stackPages_sat h hld).bind fun r m1 ⟨hk1, hres⟩ => ?_
  obtain ⟨sz1, t1⟩ := r
  rcases hres with ⟨he, himg⟩ | ⟨n, he, himg, hguard, hstack⟩
  · cases he
    exact bad_sat himg (hk.trans hk1)
  · have hsz : sz1 = (n + 2) * PGSIZE := he
    subst hsz
    have hpos : ¬ (n + 2) * PGSIZE = 0 := Nat.mul_ne_zero (Nat.succ_ne_zero _) (by decide)
    simp only
    rw [if_neg hpos]
    exact kexecCommit_sat himg hguard hstack hp hargs (hk.trans hk1)

/-- **`kexec` is all or nothing**, for every file, every argument vector of `sys_exec` and however
    much memory there is; and it does not panic. -/
theorem kexec_sat {namei : List UInt8 → Option Exe} (h : Inv m (p.pagetable :: ts) ks)
    (hfew : ts.length + 2 < 2 ^ 15) (hp : p.Ok trampoline) (hargs : ∀ a ∈ argv, a.length < PGSIZE) :
    (kexec namei trampoline p path argv m).Returns fun r m' => KexecEnd m m' p ts ks trampoline r := by
  have hstop : ((pure (-1, p) : VmM (Int × Proc)) m).Returns
      fun r m' => KexecEnd m m' p ts ks trampoline r :=
    KexecEnd.failed h (Mem.Keeps.refl m)
  unfold kexec
  cases namei path with
  | none => exact hstop
  | some x =>
    simp only
    split
    · exact hstop
    split
    · exact hstop
    split
    · exact hstop
    refine (procPagetable_sat h hfew trampoline p.frame).bind
      fun o m1 ⟨hk1, hcase⟩ => ?_
    cases o with
    | none => exact KexecEnd.failed hcase.1 hk1
    | some t =>
      obtain ⟨hinv1, hnew, -⟩ := hcase
      have himg : Image m1 t (p.pagetable :: ts) ks trampoline p.frame 0 := by
        refine ⟨hinv1, hnew.fits, fun v hv e he => ?_⟩
        rw [hnew.fits.above (by rw [pages_zero]; omega) hv] at he
        cases he
      have hempty : t.Loaded (pages 0) := fun v hv => by
        rw [pages_zero] at hv
        omega
      refine (loadProgram_sat _ himg hempty).bind fun r m2 ⟨himg2, hld2, hk2⟩ => ?_
      obtain ⟨ok, t2, sz2⟩ := r
      cases ok with
      | false => exact bad_sat himg2 (hk1.trans hk2)
      | true => exact kexecStack_sat himg2 hld2 hp hargs (hk1.trans hk2)

end

end HaiOS.Vm
