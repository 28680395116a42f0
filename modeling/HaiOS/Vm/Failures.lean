/-
  File:      HaiOS/Vm/Failures.lean
  Subject:   WHAT A FAILED EXEC AND A FAILED FORK LEAVE BEHIND, in any state that is reached.

  * `exec_all_or_nothing` -- `kexec` does not panic; when it fails nothing has changed, when it
    succeeds the old address space is given back;
  * `failed_fork_restores_iff` -- a fork that fails puts the parent back as it was exactly when there
    was no slot for a child or memory ran out before the first writable page was shared;
    `failed_fork_downgrades` -- a machine on which it does not.
-/
import HaiOS.Vm.Reached

namespace HaiOS.Vm

open Lib Lib.Routine

/-! ## 1. `kexec` -/

section

variable {m m' : Mem} {ts : List PageTable} {ks : List Nat}

/-- The same owners, hence the same counts and the same free pages. -/
theorem Inv.same_free (h : Inv m ts ks) (h' : Inv m' ts ks) (hfirst : m'.first = m.first) :
    (∀ q, m'.refcnt q = m.refcnt q) ∧ m'.freelist.Perm m.freelist := by
  have hc := h.exact.counted
  have hc' := h'.exact.counted
  refine ⟨fun q => by rw [hc'.count, hc.count], ?_⟩
  refine (List.perm_ext_iff_of_nodup hc'.nodup hc.nodup).mpr fun q => ?_
  rw [hc'.free, hc.free, Mem.Managed, Mem.Managed, hfirst]

/-- A table refers to a page once. -/
theorem Inv.refers_once {t : PageTable} (h : Inv m (t :: ts) ks) {q : Nat} (hq : t.Refers q) :
    t.tables q + t.users q = 1 := by
  unfold PageTable.Refers at hq
  have hle := (h.wf t List.mem_cons_self).users_le_one q
  by_cases hk : 0 < t.tables q
  · have h1 := h.held q (by rw [kernRefs_cons]; omega)
    rw [refs_cons] at h1
    omega
  · omega

end

/-- **`kexec` is all or nothing**, with the arguments that `sys_exec` fetched, for every file and
    however much memory there is. -/
theorem exec_all_or_nothing {s : Sys} {i : Fin NPROC} {p p1 : Proc} {uargv : Nat}
    {argv : List (List UInt8)} {bufs : List Nat} {m : Mem} (h : Reached s) (hi : s.proc i = .used p)
    (hargv : fetchArgv uargv MAXARG p [] [] s.mem = .ok (some argv, bufs, p1) m)
    (namei : List UInt8 → Option Exe) (path : List UInt8) :
    ∃ r p' m', kexec namei s.trampoline p1 path argv m = .ok (r, p') m' ∧
      (r = -1 → p' = p1 ∧ (∀ q, m'.refcnt q = m.refcnt q) ∧ m'.freelist.Perm m.freelist) ∧
      (r ≠ -1 → ∀ q, p1.pagetable.Refers q → m'.refcnt q + 1 = m.refcnt q) := by
  have hok := sysOk_reached h
  have hfront := hok.front (i := i) (p := p) (by rw [hi]; rfl)
  have hp := hok.ok i p (by rw [hi]; rfl)
  have hf := (fetchArgv_start hfront hp).of_ok hargv
  have hinv : Inv m (p1.pagetable :: tables (without s.proc i)) (bufs ++ s.pages i p) := hf.inv
  obtain ⟨⟨r, p'⟩, m', hrun, hend⟩ : ∃ r m', kexec namei s.trampoline p1 path argv m = .ok r m' ∧
      KexecEnd m m' p1 _ _ s.trampoline r :=
    (kexec_sat hinv (few_without _ _) hf.ok (hf.short argv rfl)).exists_ok
  refine ⟨r, p', m', hrun, ?_⟩
  cases hend with
  | failed inv keeps =>
    exact ⟨fun _ => ⟨rfl, hinv.same_free inv keeps.first⟩, fun hne => absurd rfl hne⟩
  | done inv keeps ok same fresh stack =>
    refine ⟨fun e => by omega, fun _ q hq => ?_⟩
    have hnew : ¬ p'.pagetable.Refers q := fun hr => by
      have h0 := fresh q hr
      unfold PageTable.Refers at hq
      rw [refs_cons] at h0
      omega
    have hone := hinv.refers_once hq
    have hc := hinv.exact.counted.count q
    have hc' := inv.exact.counted.count q
    rw [refs_cons] at hc hc'
    unfold PageTable.Refers at hnew
    omega

/-- The first process with one page, all zero. -/
theorem fetched_small : ∃ s p p1 m, Reached s ∧ s.proc small.initproc = .used p ∧
    fetchArgv 0 MAXARG p [] [] s.mem = .ok (some [], [], p1) m := by
  have hrun : ((after perform small [(small.initproc, .sbrk 4096 true)]).any fun s =>
      (s.proc small.initproc).test fun p => (fetchArgv 0 MAXARG p [] [] s.mem).test fun r _ =>
        decide (r.1 = some [] ∧ r.2.1 = [])) = true := by decide +kernel
  obtain ⟨s, p, hs, hp, hq⟩ := small_reaches hrun
  obtain ⟨⟨argv, bufs, p1⟩, m, hf, hq⟩ := Outcome.exists_of_test hq
  obtain ⟨rfl, rfl⟩ := of_decide_eq_true hq
  exact ⟨s, p, p1, m, hs, hp, hf⟩

theorem exec_all_or_nothing_small : ∃ s p p1 m, Reached s ∧ s.proc small.initproc = .used p ∧
    fetchArgv 0 MAXARG p [] [] s.mem = .ok (some [], [], p1) m ∧ ∀ namei path,
      ∃ r p' m', kexec namei s.trampoline p1 path [] m = .ok (r, p') m' ∧
        (r = -1 → p' = p1 ∧ (∀ q, m'.refcnt q = m.refcnt q) ∧ m'.freelist.Perm m.freelist) ∧
        (r ≠ -1 → ∀ q, p1.pagetable.Refers q → m'.refcnt q + 1 = m.refcnt q) := by
  obtain ⟨s, p, p1, m, hs, hp, hf⟩ := fetched_small
  exact ⟨s, p, p1, m, hs, hp, hf, exec_all_or_nothing hs hp hf⟩

/-! ## 2. `kfork` -/

section

variable {s s' : Sys} {i : Fin NPROC} {p : Proc}

variable {u v : Nat}

theorem forkTables_mono (old : PageTable) (h : u ≤ v) : forkTables old u ≤ forkTables old v := by
  refine Nat.add_le_add (Finset.card_le_card fun k hk => ?_) (Finset.card_le_card fun k hk => ?_)
  · obtain ⟨hk, hn, v', hv', hl⟩ := Finset.mem_filter.mp hk
    exact Finset.mem_filter.mpr ⟨hk, hn, v', Nat.lt_of_lt_of_le hv' h, hl⟩
  · obtain ⟨hk, hn, v', hv', hl⟩ := Finset.mem_filter.mp hk
    exact Finset.mem_filter.mpr ⟨hk, hn, v', Nat.lt_of_lt_of_le hv' h, hl⟩

/-- An entry that is shared is as before unless it was writable. -/
theorem share_eq_iff (e : Pte) : e.share = e ↔ e.flags.w = false := by
  unfold Pte.share Flags.share
  constructor
  · intro h
    have hf : (if e.flags.w = true then _ else e.flags) = e.flags := congrArg Pte.flags h
    by_contra hw
    rw [if_pos (by simpa using hw)] at hf
    exact hw (congrArg Flags.w hf).symm
  · intro h
    rw [if_neg (by rw [h]; exact Bool.false_ne_true)]

/-- **The parent is as it was**: the entries of its user range, and the counts of all pages. -/
def Restored (s s' : Sys) (i : Fin NPROC) : Prop :=
  ∃ p p', s.proc i = .used p ∧ s'.proc i = .used p' ∧
    (∀ v < USERVPN, p'.pagetable.leaf v = p.pagetable.leaf v) ∧ ∀ q, s'.mem.refcnt q = s.mem.refcnt q

variable {t : PageTable}

theorem shared_some {e : Pte} (h : t.leaf v = some e) (u : Nat) :
    t.shared u v = some (if v < u then e.share else e) := by
  unfold PageTable.shared
  rw [h]
  split <;> rfl

/-- Sharing entries leaves the counts. -/
theorem users_share (h : t.WF) (h' : (t.share u).WF) (q : Nat) :
    (t.share u).users q = t.users q := by
  have hiff : 0 < (t.share u).users q ↔ 0 < t.users q := by
    rw [PageTable.users_pos, PageTable.users_pos]
    constructor
    · rintro ⟨v, hv, e, he, hq⟩
      obtain ⟨e0, he0, hp⟩ := PageTable.shared_ppn he
      exact ⟨v, hv, e0, he0, hp.trans hq⟩
    · rintro ⟨v, hv, e, he, hq⟩
      refine ⟨v, hv, _, shared_some he u, ?_⟩
      rw [← hq]
      split <;> rfl
  have h1 := h.users_le_one q
  have h2 := h'.users_le_one q
  omega

theorem tables_share (t : PageTable) (u q : Nat) : (t.share u).tables q = t.tables q := by
  unfold PageTable.tables
  rfl

/-- Whatever was shared, every page has as many references as before. -/
theorem refcnt_share {m m' : Mem} {ts : List PageTable} {ks : List Nat} (h : Inv m (t :: ts) ks)
    (h' : Inv m' (t.share u :: ts) ks) (q : Nat) :
    m'.refcnt q = m.refcnt q := by
  rw [h'.exact.counted.count, h.exact.counted.count, refs_cons, refs_cons, tables_share,
    users_share (h.wf _ List.mem_cons_self) (h'.wf _ List.mem_cons_self)]

/-- The answer of a fork is that of `kfork`. -/
theorem kfork_of_perform {r : Int} (hi : s.proc i = .used p)
    (h : perform (i, .fork) s = .ok (.int r) s') : kfork i p s = .ok r s' := by
  have h1 : (kfork i p >>= fun a => pure (Ans.int a) : SysM Ans) s = .ok (.int r) s' := by
    have e : perform (i, .fork) s = (kfork i p >>= fun a => pure (Ans.int a) : SysM Ans) s := by
      show (gets Sys.proc >>= fun proc => _ : SysM Ans) s = _
      rw [gets_bind, hi]
    rw [← e]
    exact h
  rw [bind_run] at h1
  cases hk : kfork i p s with
  | ok a s1 =>
    rw [hk] at h1
    cases h1
    rfl
  | fail e s1 =>
    rw [hk] at h1
    cases h1

/-- **When a fork that answers -1 leaves the parent as it was**: there was no slot for a child, or
    memory does not suffice for the tables of the child up to any page that the parent may write; and
    where -1 is the next pid, there is no child of that pid. -/
theorem failed_fork_restores_iff (h : Reached s) (hi : s.proc i = .used p)
    (hf : perform (i, .fork) s = .ok (.int (-1)) s') :
    Restored s s' i ↔ firstUnused s.proc = none ∨
      (∀ v < pages p.sz, ∀ e, p.pagetable.leaf v = some e → e.flags.w = true →
        s.mem.freelist.length < 4 + forkTables p.pagetable (v + 1)) ∧
      (s.nextpid = -1 → s.mem.freelist.length < 4 + forkTables p.pagetable (pages p.sz)) := by
  have hok := sysOk_reached h
  obtain ⟨hok', hend, hk⟩ := (kfork_sat hok hi).of_ok (kfork_of_perform hi hf)
  have hle := pages_le (hok.ok i p (by rw [hi]; rfl)).size
  generalize hr : (-1 : Int) = r at hend
  cases hend with
  | full slot eq =>
    refine ⟨fun _ => Or.inl slot, fun _ => ?_⟩
    rw [eq]
    exact ⟨p, p, hi, hi, fun _ _ => rfl, fun _ => rfl⟩
  | poor slot short oom eq =>
    refine ⟨fun _ => Or.inr ⟨fun v _ _ _ _ => by omega, fun _ => by omega⟩,
      fun _ => ⟨p, p, hi, ?_, fun _ _ => rfl, fun q => ?_⟩⟩
    · rw [eq]
      exact hi
    · have hc := hok'.inv.exact.counted.count q
      rw [hc, hok.inv.exact.counted.count, eq]
      rfl
  | @broke j u slot below mapped enough short oom eq =>
    have hi' : s'.proc i = .used { p with pagetable := p.pagetable.share u } := by
      rw [eq]
      exact Function.update_self ..
    have hsame : ∀ v e, v < u → p.pagetable.leaf v = some e →
        ((p.pagetable.share u).leaf v = p.pagetable.leaf v ↔ e.flags.w = false) := by
      intro v e hv he
      show p.pagetable.shared u v = _ ↔ _
      rw [shared_some he, if_pos hv, he, Option.some.injEq]
      exact share_eq_iff e
    constructor
    · rintro ⟨p0, p', hp0, hp', hleaf, -⟩
      rw [hi] at hp0
      rw [hi'] at hp'
      cases hp0
      cases hp'
      have htop := forkTables_mono p.pagetable (by omega : u + 1 ≤ pages p.sz)
      refine Or.inr ⟨fun v hv e he hw => ?_, fun _ => by omega⟩
      by_cases hvu : v < u
      · -- the entry was shared, so it changed
        have h0 := (hsame v e hvu he).mp (hleaf v (by omega))
        rw [hw] at h0
        cases h0
      · have := forkTables_mono p.pagetable (by omega : u + 1 ≤ v + 1)
        omega
    · rintro (hnone | ⟨hall, -⟩)
      · rw [slot] at hnone
        cases hnone
      · refine ⟨p, _, hi, hi', fun v _ => ?_, fun q => ?_⟩
        · cases he : p.pagetable.leaf v with
          | none => exact (PageTable.shared_none _ u v).mpr he
          | some e =>
            by_cases hvu : v < u
            · rw [← he]
              refine (hsame v e hvu he).mpr (Bool.eq_false_iff.mpr fun hw => ?_)
              have h1 := hall v (by omega) e he hw
              have h2 := forkTables_mono p.pagetable (by omega : v + 1 ≤ u)
              omega
            · exact (shared_some he u).trans (by rw [if_neg hvu])
        · have hfront := hok.front (i := i) (p := p) (by rw [hi]; rfl)
          have hfront' := hok'.front (i := i) (by rw [hi']; rfl)
          have hw : without s'.proc i = without s.proc i := by
            rw [eq]
            exact Function.update_idem ..
          have hh : s'.held = s.held := by
            rw [eq]
            rfl
          rw [Sys.pages, hw, hh] at hfront'
          exact refcnt_share hfront hfront' q
  | done slot paid leaf oom eq =>
    -- the child has the pid -1; its pages were free before
    have hpid : s.nextpid = -1 := Int32.toInt_inj.mp hr.symm
    constructor
    · rintro ⟨_, _, -, -, -, href⟩
      have hperm : s'.mem.freelist.Perm s.mem.freelist :=
        (List.perm_ext_iff_of_nodup hok'.inv.exact.counted.nodup hok.inv.exact.counted.nodup).mpr
          fun q => by
            rw [hok'.inv.exact.counted.free, hok.inv.exact.counted.free, Mem.Managed, Mem.Managed, hk.first,
              ← hok'.inv.exact.counted.count, ← hok.inv.exact.counted.count, href]
      have := hperm.length_eq
      omega
    · rintro (hnone | ⟨-, hlt⟩)
      · rw [slot] at hnone
        cases hnone
      · have := hlt hpid
        omega

end

/-- Whether the entry of page `v` is writable. -/
def Slot.writable (x : Slot) (v : Nat) : Option Bool :=
  match x with
  | .used p => (p.pagetable.leaf v).map (·.flags.w)
  | _ => none

/-- On the small machine the first process takes a page at 0 and one at 2 MB; then memory suffices for
    the child's tables for the first, not for the second. -/
theorem fork_fails_small : ∃ s s' p, Reached s ∧ s.proc small.initproc = .used p ∧
    perform (small.initproc, .fork) s = .ok (.int (-1)) s' ∧
    (s.proc small.initproc).writable 0 = some true ∧
    (s'.proc small.initproc).writable 0 = some false := by
  have hrun : ((after perform small
      [(small.initproc, .sbrk 2101248 false), (small.initproc, .store 0 7),
        (small.initproc, .store 2097152 7)]).any fun s => (s.proc small.initproc).test fun _ =>
      (perform (small.initproc, .fork) s).test fun r s' => decide (r = .int (-1) ∧
        (s.proc small.initproc).writable 0 = some true ∧
        (s'.proc small.initproc).writable 0 = some false)) = true := by decide +kernel
  obtain ⟨s, p, hs, hp, hq⟩ := small_reaches hrun
  obtain ⟨r, s', hf, hq⟩ := Outcome.exists_of_test hq
  obtain ⟨rfl, hw⟩ := of_decide_eq_true hq
  exact ⟨s, s', p, hs, hp, hf, hw⟩

theorem failed_fork_restores_iff_small : ∃ s s' p, Reached s ∧ s.proc small.initproc = .used p ∧
    perform (small.initproc, .fork) s = .ok (.int (-1)) s' ∧
    (Restored s s' small.initproc ↔ firstUnused s.proc = none ∨
      (∀ v < pages p.sz, ∀ e, p.pagetable.leaf v = some e → e.flags.w = true →
        s.mem.freelist.length < 4 + forkTables p.pagetable (v + 1)) ∧
      (s.nextpid = -1 → s.mem.freelist.length < 4 + forkTables p.pagetable (pages p.sz))) := by
  obtain ⟨s, s', p, hs, hp, hf, -⟩ := fork_fails_small
  exact ⟨s, s', p, hs, hp, hf, failed_fork_restores_iff hs hp hf⟩

/-- **The parent of a fork that failed may have lost the right to write a page**: it needs memory for
    the next store, which it did not need before. -/
theorem failed_fork_downgrades : ∃ s s', Reached s ∧
    perform (small.initproc, .fork) s = .ok (.int (-1)) s' ∧ ¬ Restored s s' small.initproc := by
  obtain ⟨s, s', p, hs, hp, hf, hw, hw'⟩ := fork_fails_small
  refine ⟨s, s', hs, hf, fun ⟨p0, p', hp0, hp', hleaf, _⟩ => ?_⟩
  have h0 := hleaf 0 (by decide)
  rw [hp0] at hw
  rw [hp'] at hw'
  unfold Slot.writable at hw hw'
  dsimp only at hw hw'
  rw [h0, hw] at hw'
  cases hw'

end HaiOS.Vm
