/-
  File:      HaiOS/Vm/System.lean
  Subject:   THE MEMORY OF THE WHOLE SYSTEM IS ACCOUNTED FOR, after every call of every process.

  * `tables`, `frames`, `held` -- the page tables, the trap frames and the other pages of the kernel;
  * `SysOk` -- the allocator's records are exact for them, and every page table has the shape its
    process's size asks for;
  * `SysOk.front`, `SysOk.put` -- the process at work stands at the head, the others are its frame.
-/
import HaiOS.Vm.Calls
import HaiOS.Vm.Image
import HaiOS.Lib.Gather
import Mathlib.Data.List.TakeWhile

namespace HaiOS.Vm

open Lib Lib.Routine Function

/-! ## 1. The process table as a list of page tables -/

/-- The page tables of the processes. -/
def tables (proc : Fin NPROC → Slot) : List PageTable :=
  gather (fun x : Slot => x.proc?.map (·.pagetable)) proc

/-- The trap frames of the processes. -/
def frames (proc : Fin NPROC → Slot) : List Nat :=
  gather (fun x : Slot => x.proc?.map (·.frame)) proc

/-- The table without slot `i`. -/
def without (proc : Fin NPROC → Slot) (i : Fin NPROC) : Fin NPROC → Slot :=
  update proc i .unused

/-- The other pages of the kernel: pipes, and what it took at boot. -/
def Sys.held (s : Sys) : List Nat := s.pipes.map (·.page) ++ s.kernel

/-- The pages of the kernel, that of the process in slot `i` first. -/
abbrev Sys.pages (s : Sys) (i : Fin NPROC) (p : Proc) : List Nat :=
  p.frame :: (frames (without s.proc i) ++ s.held)

/-- **The memory of the system is in order.** -/
structure SysOk (s : Sys) : Prop where
  inv : Inv s.mem (tables s.proc) (frames s.proc ++ s.held)
  ok : ∀ i p, (s.proc i).proc? = some p → p.Ok s.trampoline

section

variable {s : Sys} {proc : Fin NPROC → Slot} {i j : Fin NPROC} {p q : Proc} {x : Slot} {m m' : Mem}

theorem tables_update (hx : x.proc? = some p) :
    (tables (update proc i x)).Perm (p.pagetable :: tables (without proc i)) :=
  gather_update (by rw [hx]; rfl) rfl

theorem frames_update (hx : x.proc? = some p) :
    (frames (update proc i x)).Perm (p.frame :: frames (without proc i)) :=
  gather_update (by rw [hx]; rfl) rfl

theorem tables_front (h : (proc i).proc? = some p) :
    (tables proc).Perm (p.pagetable :: tables (without proc i)) :=
  gather_head (by rw [h]; rfl) rfl

theorem frames_front (h : (proc i).proc? = some p) :
    (frames proc).Perm (p.frame :: frames (without proc i)) :=
  gather_head (by rw [h]; rfl) rfl

theorem without_of_unused (h : (proc i).proc? = none) :
    tables (without proc i) = tables proc ∧ frames (without proc i) = frames proc :=
  ⟨gather_update_none (by rw [h]; rfl) rfl, gather_update_none (by rw [h]; rfl) rfl⟩

theorem length_tables (proc : Fin NPROC → Slot) : (tables proc).length ≤ 128 :=
  length_gather_le _ proc

/-- **The process at work at the head**, the others behind it. -/
theorem SysOk.front (h : SysOk s) (hi : (s.proc i).proc? = some p) :
    Inv s.mem (p.pagetable :: tables (without s.proc i)) (s.pages i p) :=
  h.inv.perm (tables_front hi) ((frames_front hi).append_right s.held)

/-- **And back**: the account with the process at the head is the account of the table. -/
theorem inv_put (hx : x.proc? = some q)
    (hinv : Inv m (q.pagetable :: tables (without proc i))
      (q.frame :: (frames (without proc i) ++ s.held))) :
    Inv m (tables (update proc i x)) (frames (update proc i x) ++ s.held) :=
  hinv.perm (tables_update hx).symm ((frames_update hx).append_right s.held).symm

/-- The shapes of the tables after one slot is written. -/
theorem ok_update {trampoline : Nat} (h : ∀ k p, (proc k).proc? = some p → p.Ok trampoline)
    (hx : ∀ q, x.proc? = some q → q.Ok trampoline) (k : Fin NPROC) (r : Proc)
    (hr : (update proc i x k).proc? = some r) : r.Ok trampoline := by
  rcases eq_or_ne k i with rfl | hk
  · rw [update_self] at hr
    exact hx r hr
  · rw [update_of_ne hk] at hr
    exact h k r hr

theorem SysOk.put (h : SysOk s) (hx : x.proc? = some q)
    (hinv : Inv m (q.pagetable :: tables (without s.proc i)) (s.pages i q))
    (hok : q.Ok s.trampoline) :
    SysOk { s with mem := m, proc := update s.proc i x } :=
  ⟨inv_put (s := s) hx hinv, ok_update h.ok fun r hr => by
    rw [hx] at hr
    cases hr
    exact hok⟩

/-- A slot is emptied. -/
theorem SysOk.clear (h : SysOk s)
    (hinv : Inv m (tables (without s.proc i)) (frames (without s.proc i) ++ s.held)) :
    SysOk { s with mem := m, proc := update s.proc i .unused } :=
  ⟨hinv, ok_update h.ok fun _ hr => nomatch hr⟩

/-- Every page a process refers to is live for the others' frame. -/
theorem mem_tables_without (hj : j ≠ i) (hp : (proc j).proc? = some p) :
    p.pagetable ∈ tables (without proc i) := by
  refine mem_gather.mpr ⟨j, ?_⟩
  rw [without, update_of_ne hj, hp]
  rfl

end

/-! ## 2. Calls on one process -/

/-- **A process goes on**: the account holds, nobody else's pages were touched, its table has its
    shape, and it is the same process. -/
structure Carried (m m' : Mem) (p p' : Proc) (ts : List PageTable) (ks : List Nat)
    (trampoline : Nat) : Prop where
  inv : Inv m' (p'.pagetable :: ts) ks
  keeps : m.Keeps (Live ts ks) m'
  ok : p'.Ok trampoline
  frame : p'.frame = p.frame
  parent : p'.parent = p.parent
  pid : p'.pid = p.pid
  xstate : p'.xstate = p.xstate

variable {trampoline : Nat}

theorem Carried.refl {m : Mem} {p : Proc} {ts : List PageTable} {ks : List Nat}
    (h : Inv m (p.pagetable :: ts) ks) (hp : p.Ok trampoline) : Carried m m p p ts ks trampoline :=
  ⟨h, Mem.Keeps.refl m, hp, rfl, rfl, rfl, rfl⟩

/-- **A call on one process**; `Q` relates the private memories and the answer unless memory ran
    out. -/
def Acts (trampoline : Nat) (Q : Priv → Ans → Priv → Prop) (f : Proc → VmM (Ans × Proc)) : Prop :=
  ∀ (m : Mem) (p : Proc) (ts : List PageTable) (ks : List Nat), Inv m (p.pagetable :: ts) ks →
    ts.length + 2 < 2 ^ 15 → p.Ok trampoline →
    (f p m).Returns
      fun r m' => Carried m m' p r.2 ts ks trampoline ∧
        (m'.oomWarned = false → Q (privOf m p.pagetable p.sz) r.1 (privOf m' r.2.pagetable r.2.sz))

/-- A routine of the address space that implements `g`. -/
theorem inSpace_acts {α : Type} {trampoline : Nat} {ans : α → Ans} {f : Space → VmM (α × Space)}
    {g : Priv → α × Priv}
    (h : ∀ {m : Mem} {t : PageTable} {ts : List PageTable} {ks : List Nat} {sz : Nat},
      Inv m (t :: ts) ks → t.Fenced → sz ≤ TRAPFRAME →
        (f ⟨t, sz, none⟩ m).Returns (Does m t ts ks sz g)) :
    Acts trampoline (fun a r b => ∃ x, r = ans x ∧ g a = (x, b)) (inSpace ans f) := by
  intro m p ts ks hinv _ hok
  refine (h hinv hok.fenced hok.size).bind fun r m' ⟨t', hr, hmv, hg⟩ => ?_
  obtain ⟨a, sp⟩ := r
  cases hr
  exact ⟨⟨hmv.inv, hmv.keeps, hok.of_moved hmv, rfl, rfl, rfl, rfl⟩, fun ho => ⟨a, rfl, hg ho⟩⟩

theorem sbrk_acts (n : Int32) (eager : Bool) :
    Acts trampoline (fun a r b => ∃ x, r = .brk x ∧ a.sbrk n.toInt eager = (x, b))
      (callSbrk n eager) := by
  intro m p ts ks hinv _ hok
  refine (sysSbrk_sat hinv hok n eager).bind fun r m' ⟨hrz, hg⟩ => ?_
  have hs := hrz.same
  exact ⟨⟨hrz.inv, hrz.keeps, hrz.ok, by rw [hs], by rw [hs], by rw [hs], by rw [hs]⟩,
    fun ho => ⟨r.1, rfl, hg ho⟩⟩

/-! ## 3. `sys_exec` -/

section

variable {m : Mem} {t : PageTable} {ts : List PageTable} {ks : List Nat} {p : Proc}
  {trampoline : Nat}

/-- What stands before a zero byte is shorter than the bytes. -/
theorem length_takeWhile_lt {bs : List UInt8} (h : 0 ∈ bs) :
    (bs.takeWhile (· ≠ 0)).length < bs.length := by
  have hpre := bs.takeWhile_prefix fun b => decide (b ≠ 0)
  refine lt_of_le_of_ne hpre.length_le fun e => ?_
  have hmem : 0 ∈ bs.takeWhile fun b => decide (b ≠ 0) := by rw [hpre.eq_of_length e]; exact h
  exact absurd (List.mem_takeWhile_imp hmem) (by decide)

/-- The strings `copyinstr` finds are shorter than it was asked for, and it changes nothing. -/
theorem copyinstrLoop_sat (t : PageTable) (k : Nat) (srcva max : Nat) (dst : List UInt8) (m : Mem) :
    (copyinstrLoop t k srcva max dst m).Returns
      fun o m' => m' = m ∧ ∀ s, o = some s → s.length < dst.length + max := by
  induction k generalizing srcva max dst with
  | zero => exact ⟨rfl, nofun⟩
  | succ k ih =>
    unfold copyinstrLoop
    split
    · exact ⟨rfl, nofun⟩
    · rename_i hmax
      dsimp only
      cases t.walkaddr (pgrounddown srcva) with
      | none => exact ⟨rfl, nofun⟩
      | some pa =>
        dsimp only
        rw [gets_bind]
        have hn : min (PGSIZE - (srcva - pgrounddown srcva)) max ≤ max := Nat.min_le_right _ _
        generalize min (PGSIZE - (srcva - pgrounddown srcva)) max = n at hn
        have hlen : (slice (m.ram pa) (srcva - pgrounddown srcva) n).length = n := length_slice ..
        generalize slice (m.ram pa) (srcva - pgrounddown srcva) n = bs at hlen
        split
        · rename_i h0
          refine ⟨rfl, fun s hs => ?_⟩
          cases hs
          have hlt := length_takeWhile_lt h0
          rw [List.length_append]
          omega
        · refine (ih _ _ _).imp fun o m' ⟨hm, hs⟩ => ⟨hm, fun s e => ?_⟩
          have := hs s e
          rw [List.length_append] at this
          omega

theorem copyinstr_sat (t : PageTable) (srcva max : Nat) (m : Mem) :
    (copyinstr t srcva max m).Returns fun o m' => m' = m ∧ ∀ s, o = some s → s.length < max :=
  (copyinstrLoop_sat t max srcva max [] m).imp fun _ _ ⟨hm, hs⟩ =>
    ⟨hm, fun s e => (hs s e).trans_eq (Nat.zero_add max)⟩

/-- **`fetchaddr`** touches the process's own pages only. -/
theorem fetchaddr_sat (h : Inv m (p.pagetable :: ts) ks) (hp : p.Ok trampoline) (addr : Nat) :
    (fetchaddr p addr m).Returns
      fun r m' => ∃ t', r.2 = { p with pagetable := t' } ∧ Moved m m' p.pagetable t' ts ks p.sz := by
  unfold fetchaddr
  split
  · exact ⟨p.pagetable, rfl, Moved.refl h p.sz⟩
  · refine (copyin_sat h hp.fenced hp.size addr 8).bind fun r m' ⟨t', hr, hmv, _⟩ => ?_
    obtain ⟨o, sp⟩ := r
    cases hr
    exact ⟨t', rfl, hmv⟩

/-- **The argument buffers**: what `sys_exec` holds after it fetched the arguments. -/
structure Fetched (m m' : Mem) (p : Proc) (ts : List PageTable) (ks : List Nat) (trampoline : Nat)
    (r : Option (List (List UInt8)) × List Nat × Proc) : Prop where
  inv : Inv m' (r.2.2.pagetable :: ts) (r.2.1 ++ ks)
  keeps : m.Keeps (Live ts ks) m'
  ok : r.2.2.Ok trampoline
  same : r.2.2 = { p with pagetable := r.2.2.pagetable }
  short : ∀ argv, r.1 = some argv → ∀ a ∈ argv, a.length < PGSIZE

variable {pages : List Nat}

theorem live_append {q : Nat} (h : Live ts ks q) : Live ts (pages ++ ks) q := by
  induction pages with
  | nil => exact h
  | cons k pages ih => exact live_page ih

variable {uargv upath : Nat}

theorem fetchArgv_sat (n : Nat) {p0 : Proc} {m0 : Mem} {argv : List (List UInt8)}
    (h : Inv m (p.pagetable :: ts) (pages ++ ks)) (hk : m0.Keeps (Live ts ks) m)
    (hp : p.Ok trampoline) (hsame : p = { p0 with pagetable := p.pagetable })
    (hargs : ∀ a ∈ argv, a.length < PGSIZE) :
    (fetchArgv uargv n p argv pages m).Returns fun r m' => Fetched m0 m' p0 ts ks trampoline r := by
  induction n generalizing p m argv pages with
  | zero => exact ⟨h, hk, hp, hsame, nofun⟩
  | succ n ih =>
    unfold fetchArgv
    refine (fetchaddr_sat h hp _).bind fun r m1 ⟨t1, hr, hmv⟩ => ?_
    obtain ⟨uarg, p1⟩ := r
    cases hr
    have hk1 : m0.Keeps (Live ts ks) m1 := hk.trans (hmv.keeps.mono fun _ hq => live_append hq)
    have hok1 : Proc.Ok trampoline { p with pagetable := t1 } := hp.of_moved hmv
    have hsame1 : { p with pagetable := t1 } = { p0 with pagetable := t1 } := by rw [hsame]
    dsimp only
    split
    · exact ⟨hmv.inv, hk1, hok1, hsame1, nofun⟩
    · exact ⟨hmv.inv, hk1, hok1, hsame1, fun l e => by cases e; exact hargs⟩
    · refine (kalloc_inv hmv.inv).bind fun o m2 ho => ?_
      cases o with
      | none =>
        obtain ⟨-, rfl⟩ := ho
        exact ⟨hmv.inv.setOom, hk1.trans ⟨rfl, fun _ _ => rfl, fun _ => rfl⟩, hok1, hsame1, nofun⟩
      | some page =>
        obtain ⟨h0, htook, hinv2⟩ := ho
        have hnot : ¬ Live ts ks page := fun hl => by
          have : Live ts (pages ++ ks) page := live_append hl
          have := live_cons (t := t1) this
          unfold Live at this
          omega
        have hk2 : m0.Keeps (Live ts ks) m2 := hk1.trans (htook.keeps hnot)
        have hperm : (page :: (pages ++ ks)).Perm (pages ++ [page] ++ ks) := by
          rw [List.append_assoc]
          exact List.perm_middle.symm
        have hinv2' := hinv2.perm (List.Perm.refl _) hperm
        refine (copyinstr_sat t1 _ PGSIZE m2).bind fun o m3 ⟨hm3, hlen⟩ => ?_
        subst hm3
        cases o with
        | none => exact ⟨hinv2', hk2, hok1, hsame1, nofun⟩
        | some arg =>
          refine ih (m := _) (hinv2'.setRam _) (hk2.trans ⟨rfl, fun q hq => ?_, id⟩) hok1 hsame1 ?_
          · exact update_of_ne (fun e => hnot (by rw [← e]; exact hq)) _ _
          · intro a ha
            rcases List.mem_append.mp ha with ha | ha
            · exact hargs a ha
            · rw [List.mem_singleton.mp ha]
              exact hlen arg rfl

theorem fetchArgv_start (h : Inv m (p.pagetable :: ts) ks) (hp : p.Ok trampoline) :
    (fetchArgv uargv MAXARG p [] [] m).Returns fun r m' => Fetched m m' p ts ks trampoline r :=
  fetchArgv_sat MAXARG (show Inv m (p.pagetable :: ts) ([] ++ ks) from h) (Mem.Keeps.refl _) hp rfl
    fun _ ha => absurd ha List.not_mem_nil

/-- The buffers go back. -/
theorem freePages_sat (h : Inv m ts (pages ++ ks)) :
    (freePages pages m).Returns fun _ m' => Inv m' ts ks ∧ m.Keeps (Live ts ks) m' := by
  induction pages generalizing m with
  | nil => exact ⟨h, Mem.Keeps.refl m⟩
  | cons page pages ih =>
    unfold freePages
    refine (kfree_inv h).bind fun _ m1 ⟨hinv, hk⟩ => ?_
    exact (ih hinv).imp fun _ m2 ⟨hinv2, hk2⟩ =>
      ⟨hinv2, (hk.mono fun _ hq => live_append hq).trans hk2⟩

/-- How `kexec` ends, as a process that goes on. -/
theorem KexecEnd.carried {m' : Mem} {r : Int × Proc} (h : KexecEnd m m' p ts ks trampoline r)
    (hp : p.Ok trampoline) : Carried m m' p r.2 ts ks trampoline := by
  cases h with
  | failed inv keeps => exact ⟨inv, keeps.mono fun _ hq => live_cons hq, hp, rfl, rfl, rfl, rfl⟩
  | done inv keeps ok same fresh stack =>
    exact ⟨inv, keeps, ok, by rw [same], by rw [same], by rw [same], by rw [same]⟩

variable {namei : List UInt8 → Option Exe}

/-- **`sys_exec`** by any process, with any file and any memory. -/
theorem sysExec_sat (hinv : Inv m (p.pagetable :: ts) ks) (hfew : ts.length + 2 < 2 ^ 15)
    (hok : p.Ok trampoline) :
    (sysExec namei trampoline p upath uargv m).Returns
      fun r m' => Carried m m' p r.2 ts ks trampoline := by
  unfold sysExec
  refine (copyinstr_sat p.pagetable upath MAXPATH m).bind fun o m1 ⟨hm1, _⟩ => ?_
  subst hm1
  cases o with
  | none => exact Carried.refl hinv hok
  | some path =>
    refine (fetchArgv_start hinv hok).bind fun r m2 hf => ?_
    obtain ⟨r, bufs, p2⟩ := r
    have hsame : p2 = { p with pagetable := p2.pagetable } := hf.same
    -- the buffers go back, whatever became of the process
    have hback : ∀ {m3 : Mem} {p3 : Proc} {n : Int},
        Carried m2 m3 p2 p3 ts (bufs ++ ks) trampoline →
        ((do freePages bufs; pure (n, p3) : VmM (Int × Proc)) m3).Returns
          fun r m' => Carried m1 m' p r.2 ts ks trampoline := by
      intro m3 p3 n hc
      refine (freePages_sat hc.inv).bind fun _ m4 ⟨hinv4, hk4⟩ => ?_
      have hk3 := hf.keeps.trans (hc.keeps.mono fun _ hq => live_append hq)
      have hk : m1.Keeps (Live ts ks) m4 := hk3.trans (hk4.mono fun _ hq => live_cons hq)
      refine ⟨hinv4, hk, hc.ok, ?_, ?_, ?_, ?_⟩
      · rw [hc.frame, hsame]
      · rw [hc.parent, hsame]
      · rw [hc.pid, hsame]
      · rw [hc.xstate, hsame]
    cases r with
    | none => exact hback (Carried.refl hf.inv hf.ok)
    | some argv =>
      refine (kexec_sat hf.inv hfew hf.ok (hf.short argv rfl)).bind fun r m3 he => ?_
      obtain ⟨n, p3⟩ := r
      exact hback (he.carried hf.ok)

theorem sysExec_acts :
    Acts trampoline (fun _ a _ => ∃ n, a = .int n) (callExec namei trampoline upath uargv) := by
  intro m p ts ks hinv hfew hok
  exact (sysExec_sat hinv hfew hok).bind fun r m' hc => ⟨hc, fun _ => ⟨r.1, rfl⟩⟩

end

/-! ## 4. Calls on the table -/

section

variable {s : Sys} {i j : Fin NPROC} {p : Proc}

/-- The others' private memory does not change. -/
theorem privOf_keep {m m' : Mem} {t : PageTable} {ts : List PageTable} {ks : List Nat}
    (hk : m.Keeps (Live ts ks) m') (ht : t ∈ ts) (sz : Nat) : privOf m' t sz = privOf m t sz := by
  refine congrArg (Priv.mk sz) (viewOf_congr fun v hv e he => hk.ram _ ?_)
  have := Inv.users_pos ht hv he
  unfold Live refs
  omega

/-- **What a call on the process in slot `i` leaves**: that slot changes, and the memory; the other
    processes see the same bytes. -/
structure Served (s s' : Sys) (i : Fin NPROC) (p p' : Proc) : Prop where
  eq : s' = { s with mem := s'.mem, proc := update s.proc i (.used p') }
  ok : SysOk s'
  keeps : s.mem.Keeps (Live (tables (without s.proc i)) (s.pages i p)) s'.mem
  frame : p'.frame = p.frame
  parent : p'.parent = p.parent
  pid : p'.pid = p.pid
  xstate : p'.xstate = p.xstate

theorem few_without (proc : Fin NPROC → Slot) (i : Fin NPROC) :
    (tables (without proc i)).length + 2 < 2 ^ 15 := by
  have := length_tables (without proc i)
  omega

theorem SysOk.carried {m' : Mem} {p' : Proc} (h : SysOk s)
    (hc : Carried s.mem m' p p' (tables (without s.proc i)) (s.pages i p) s.trampoline) :
    Served s { s with mem := m', proc := update s.proc i (.used p') } i p p' :=
  ⟨rfl, h.put rfl (by rw [Sys.pages, hc.frame]; exact hc.inv) hc.ok, hc.keeps, hc.frame, hc.parent, hc.pid,
    hc.xstate⟩

/-- **A call on one process keeps the system in order.** -/
theorem inProc_sat {Q : Priv → Ans → Priv → Prop} {f : Proc → VmM (Ans × Proc)} (h : SysOk s)
    (ha : Acts s.trampoline Q f) :
    (inProc i f s).Returns
      fun a s' => ((∀ p, s.proc i ≠ .used p) ∧ a = .nobody ∧ s' = s) ∨
        ∃ p p', s.proc i = .used p ∧ Served s s' i p p' ∧
          (s'.mem.oomWarned = false →
            Q (privOf s.mem p.pagetable p.sz) a (privOf s'.mem p'.pagetable p'.sz)) := by
  unfold inProc
  rw [gets_bind]
  cases hi : s.proc i with
  | unused => exact .inl ⟨nofun, rfl, rfl⟩
  | zombie q => exact .inl ⟨nofun, rfl, rfl⟩
  | used p =>
    dsimp only
    have hfront := h.front (i := i) (p := p) (by rw [hi]; rfl)
    have hsat := ha _ _ _ _ hfront (few_without _ _) (h.ok i p (by rw [hi]; rfl))
    rw [bind_run]
    unfold onMem
    cases hr : f p s.mem with
    | fail e m' =>
      rw [hr] at hsat
      exact hsat.elim
    | ok r m' =>
      rw [hr] at hsat
      obtain ⟨hc, hQ⟩ := hsat
      exact .inr ⟨p, r.2, rfl, h.carried hc, hQ⟩

end

end HaiOS.Vm
