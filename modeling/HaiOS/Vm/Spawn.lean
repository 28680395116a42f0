/-
  File:      HaiOS/Vm/Spawn.lean
  Subject:   `sys_spawn` (kernel/sysproc.c) AND WHERE THE CHILD IT MAKES BEGINS.

  A child begins in `forkret`, which returns to user mode through the child's trap frame; what follows
  `kfork` in `sys_spawn` runs in the parent alone.

  * `sysSpawn`, `forkret` -- the code;
  * `SpawnEnd`, `sysSpawn_sat` -- how a call ends: refused, with a copy of the parent, or without a
    pid above 0;
  * `spawn_starts_iff` -- no child that is made starts the program;
    `spawn_resumes_parent` -- a call whose child goes on where its parent was.
-/
import HaiOS.Vm.Failures

namespace HaiOS.Vm

open Lib Lib.Routine Function

/-! ## 1. The code -/

/-- `free_argv`; while the call lasts the buffers count among the pages the kernel holds. -/
def freeArgv (bufs : List Nat) : SysM Unit := do
  update fun s => { s with kernel := s.kernel.drop bufs.length }
  onMem (freePages bufs)

/-- `sys_spawn` by the process `p` in slot `i`; `fetch_argv` is the loop of `sys_exec`. -/
def sysSpawn (namei : List UInt8 → Option Exe) (i : Fin NPROC) (p : Proc) (upath uargv : Nat) :
    SysM Int := do
  match ← onMem (copyinstr p.pagetable upath MAXPATH) with
  | none => pure (-1)
  | some path => do
    let (r, bufs, p) ← onMem (fetchArgv uargv MAXARG p [] [])
    setSlot i (.used p)
    update fun s => { s with kernel := bufs ++ s.kernel }
    match r with
    | none => do
      freeArgv bufs
      pure (-1)
    | some argv => do
      let pid ← kfork i p
      if pid < 0 then do
        freeArgv bufs
        pure (-1)
      else if pid = 0 then do
        -- meant for the child, and run by the parent once `nextpid` has wrapped: `kexec`, then `kexit`
        let (_, p) ← onMem (kexec namei (← gets Sys.trampoline) p path argv)
        setSlot i (.used p)
        freeArgv bufs
        kexit i (-1)
        pure 0
      else do
        freeArgv bufs
        pure pid

/-- `forkret`, after the first process: user mode begins with the table of the process and the
    registers of its trap frame. -/
def forkret (p : Proc) : PageTable × Trapframe := (p.pagetable, p.trapframe)

/-! ## 2. How a call ends -/

/-- A state of user mode that `kexec` establishes: by some process, in some memory that is in
    order. -/
def Established (namei : List UInt8 → Option Exe) (trampoline : Nat) (path : List UInt8)
    (argv : List (List UInt8)) (u : PageTable × Trapframe) : Prop :=
  ∃ m q ts ks n q' m', Inv m (q.pagetable :: ts) ks ∧ ts.length + 2 < 2 ^ 15 ∧ q.Ok trampoline ∧
    kexec namei trampoline q path argv m = .ok (n, q') m' ∧ n ≠ -1 ∧ u = (q'.pagetable, q'.trapframe)

/-- **The child starts the program**, or has exited with -1; the child is the process in a slot that
    was free before. -/
def SpawnStarts (namei : List UInt8 → Option Exe) (s s' : Sys) (p : Proc) (upath uargv : Nat) (r : Int) :
    Prop :=
  0 < r → ∃ path argv bufs p1 m1, copyinstr p.pagetable upath MAXPATH s.mem = .ok (some path) s.mem ∧
    fetchArgv uargv MAXARG p [] [] s.mem = .ok (some argv, bufs, p1) m1 ∧
    ∃ j np, (s.proc j).proc? = none ∧ np.pid.toInt = r ∧
      (s'.proc j = .used np ∧ Established namei s.trampoline path argv (forkret np) ∨
        s'.proc j = .zombie np ∧ np.xstate = -1)

/-- **No child can be made**: the path or the arguments cannot be fetched, every slot is taken, or
    with the arguments in memory there are too few pages for a fork. -/
def SpawnRefused (s : Sys) (p : Proc) (upath uargv : Nat) : Prop :=
  (∀ path m, copyinstr p.pagetable upath MAXPATH s.mem ≠ .ok (some path) m) ∨
  (∀ argv bufs p1 m, fetchArgv uargv MAXARG p [] [] s.mem ≠ .ok (some argv, bufs, p1) m) ∨
  firstUnused s.proc = none ∨
  ∃ argv bufs p1 m, fetchArgv uargv MAXARG p [] [] s.mem = .ok (some argv, bufs, p1) m ∧
    m.freelist.length < 4 + forkTables p1.pagetable (pages p.sz)

/-- **How a call of `sys_spawn` ends**: refused, with a child that is a copy of its parent, or with
    what a `nextpid` that has wrapped makes of it. -/
inductive SpawnEnd (s s' : Sys) (p : Proc) (upath uargv : Nat) : Int → Prop where
  | refused (why : SpawnRefused s p upath uargv) : SpawnEnd s s' p upath uargv (-1)
  | done {path : List UInt8} {argv : List (List UInt8)} {bufs : List Nat} {p1 np : Proc} {m1 : Mem}
      {j : Fin NPROC}
      (path : copyinstr p.pagetable upath MAXPATH s.mem = .ok (some path) s.mem)
      (fetched : fetchArgv uargv MAXARG p [] [] s.mem = .ok (some argv, bufs, p1) m1)
      (short : ∀ a ∈ argv, a.length < PGSIZE)
      (slot : firstUnused s.proc = some j)
      (enough : 4 + forkTables p1.pagetable (pages p.sz) ≤ m1.freelist.length)
      (child : s'.proc j = .used np)
      (others : ∀ k, k ≠ j → (s.proc k).proc? = none → (s'.proc k).proc? = none)
      (pid : np.pid = s.nextpid)
      (frame : np.trapframe = { p.trapframe with a0 := 0 })
      (shared : ∀ v < USERVPN, ∀ e, np.pagetable.leaf v = some e → e.flags.w = false) :
      SpawnEnd s s' p upath uargv s.nextpid.toInt
  | wrapped {r : Int} (pid : s.nextpid ≤ 0) (answer : r ≤ 0) : SpawnEnd s s' p upath uargv r

section

variable {s s' : Sys} {i j : Fin NPROC} {p : Proc}

/-- The first free slot does not depend on what the taken slots hold. -/
theorem firstUnused_update {proc : Fin NPROC → Slot} {q : Proc} (h : proc i = .used p) :
    firstUnused (update proc i (.used q)) = firstUnused proc := by
  unfold firstUnused
  congr 1
  funext k
  rcases eq_or_ne k i with rfl | hk
  · rw [update_self, h]
    rfl
  · rw [update_of_ne hk]

/-- The buffers go back. -/
theorem freeArgv_sat {bufs ks : List Nat} {E : Panic → Sys → Prop} (h : SysOk s)
    (hk : s.kernel = bufs ++ ks) :
    (freeArgv bufs s).Sat (fun _ s' => s' = { s with mem := s'.mem, kernel := ks }) E := by
  unfold freeArgv
  rw [update_bind]
  have hdrop : s.kernel.drop bufs.length = ks := by rw [hk, List.drop_left]
  have hperm : (frames s.proc ++ s.held).Perm
      (bufs ++ (frames s.proc ++ (s.pipes.map (·.page) ++ ks))) := by
    unfold Sys.held
    rw [hk]
    have e := List.perm_append_comm_assoc (frames s.proc ++ s.pipes.map (·.page)) bufs ks
    rwa [List.append_assoc, List.append_assoc] at e
  refine (onMem_sat (s := { s with kernel := s.kernel.drop bufs.length })
    (freePages_sat (h.inv.perm (List.Perm.refl _) hperm))).mono (fun _ s1 ⟨m1, hs1, _⟩ => ?_)
    fun _ _ => False.elim
  rw [hs1, hdrop]

/-- **`sys_spawn`**; where the next pid is 0 the parent itself exits, and the kernel may panic. -/
theorem sysSpawn_sat (h : SysOk s) (hi : s.proc i = .used p) (namei : List UInt8 → Option Exe)
    (upath uargv : Nat) :
    (sysSpawn namei i p upath uargv s).Sat (fun r s' => SpawnEnd s s' p upath uargv r)
      fun _ _ => s.nextpid = 0 := by
  have hp : p.Ok s.trampoline := h.ok i p (by rw [hi]; rfl)
  unfold sysSpawn
  obtain ⟨o, m0, hpath, hm0, -⟩ := (copyinstr_sat p.pagetable upath MAXPATH s.mem).exists_ok
  subst hm0
  have hon : onMem (copyinstr p.pagetable upath MAXPATH) s = .ok o s := by
    unfold onMem
    rw [hpath]
  rw [bind_ok hon]
  cases o with
  | none =>
    refine SpawnEnd.refused (Or.inl fun path m e => ?_)
    rw [hpath] at e
    cases e
  | some path =>
    obtain ⟨⟨r, bufs, p1⟩, m1, hrun, hf⟩ : ∃ r m1, fetchArgv uargv MAXARG p [] [] s.mem = .ok r m1 ∧
        Fetched s.mem m1 p _ _ s.trampoline r :=
      (fetchArgv_start (h.front (by rw [hi]; rfl)) hp).exists_ok
    have hsame : p1 = { p with pagetable := p1.pagetable } := hf.same
    have hon1 : onMem (fetchArgv uargv MAXARG p [] []) s = .ok (r, bufs, p1) { s with mem := m1 } := by
      unfold onMem
      rw [hrun]
    dsimp only
    rw [bind_ok hon1]
    rw [setSlot_bind, update_bind]
    have hok1 : SysOk { s with
        mem := m1
        proc := update s.proc i (.used p1)
        kernel := bufs ++ s.kernel } := by
      refine ⟨inv_put (s := { s with kernel := bufs ++ s.kernel }) rfl ?_, ok_update h.ok fun q hq => ?_⟩
      · refine Inv.perm hf.inv (List.Perm.refl _) ?_
        have e := List.perm_append_comm_assoc bufs
          (p.frame :: (frames (without s.proc i) ++ s.pipes.map (·.page))) s.kernel
        rw [List.cons_append, List.append_assoc, List.cons_append, List.append_assoc] at e
        rw [hsame]
        exact e
      · cases hq
        exact hf.ok
    cases r with
    | none =>
      refine (freeArgv_sat hok1 rfl).bind fun _ s2 _ => ?_
      refine SpawnEnd.refused (Or.inr (Or.inl fun argv bufs p1 m e => ?_))
      rw [hrun] at e
      cases e
    | some argv =>
      have hslot := firstUnused_update (q := p1) hi
      have hsz : p1.sz = p.sz := by rw [hsame]
      refine ((kfork_sat hok1 (update_self ..)).mono (fun _ _ hf => hf) fun _ _ => False.elim).bind
        fun r s2 ⟨hok2, hend, _⟩ => ?_
      cases hend with
      | full slot eq =>
        rw [if_pos (by decide)]
        refine (freeArgv_sat hok2 (by rw [eq])).bind fun _ s3 _ => ?_
        exact SpawnEnd.refused (Or.inr (Or.inr (Or.inl (hslot ▸ slot))))
      | poor slot short oom eq =>
        rw [if_pos (by decide)]
        refine (freeArgv_sat hok2 (by rw [eq])).bind fun _ s3 _ => ?_
        exact SpawnEnd.refused (Or.inr (Or.inr (Or.inr ⟨argv, bufs, p1, m1, hrun, by
          have : m1.freelist.length < 4 := short
          omega⟩)))
      | @broke j u slot below mapped enough short oom eq =>
        rw [if_pos (by decide)]
        refine (freeArgv_sat hok2 (by rw [eq])).bind fun _ s3 _ => ?_
        refine SpawnEnd.refused (Or.inr (Or.inr (Or.inr ⟨argv, bufs, p1, m1, hrun, ?_⟩)))
        have hlt : m1.freelist.length < 4 + forkTables p1.pagetable (u + 1) := short
        rw [hsz] at below
        have := forkTables_mono p1.pagetable (by omega : u + 1 ≤ pages p.sz)
        omega
      | @done j frame t slot paid leaf oom eq =>
        by_cases hnn : s.nextpid.toInt < 0
        · rw [if_pos hnn]
          refine (freeArgv_sat hok2 (by rw [eq])).bind fun _ s3 _ => ?_
          exact SpawnEnd.wrapped (Int32.le_iff_toInt_le.mpr hnn.le) (by decide)
        rw [if_neg hnn]
        by_cases hnz : s.nextpid.toInt = 0
        · have hz : s.nextpid = 0 := Int32.toInt_inj.mp hnz
          have hany {α : Type} (o : Outcome Panic Sys α) :
              o.Sat (fun _ _ => True) fun _ _ => s.nextpid = 0 :=
            o.sat_true.mono (fun _ _ ht => ht) fun _ _ _ => hz
          rw [if_pos hnz]
          refine (hany _).bind fun tr s3 _ => (hany _).bind fun r s4 _ => (hany _).bind fun _ s5 _ =>
            (hany _).bind fun _ s6 _ => (hany _).bind fun _ s7 _ => ?_
          exact SpawnEnd.wrapped (Int32.le_iff_toInt_le.mpr hnz.le) le_rfl
        rw [if_neg hnz]
        refine (freeArgv_sat hok2 (by rw [eq])).bind fun _ s3 hs3 => ?_
        have enough : 4 + forkTables p1.pagetable (pages p1.sz) ≤ m1.freelist.length :=
          Nat.le.intro (Nat.add_comm .. ▸ paid.symm)
        rw [hsz] at enough leaf
        have hproc : s3.proc = s2.proc := by rw [hs3]
        have hp1 : p1.Ok s.trampoline := hf.ok
        have hchild : s3.proc j =
            .used ⟨s.nextpid, some i, 0, frame, { p1.trapframe with a0 := 0 }, t, p1.sz, p1.name⟩ := by
          rw [hproc, eq]
          exact update_self ..
        refine SpawnEnd.done hpath hrun (hf.short argv rfl) (hslot ▸ slot) enough hchild
          (fun k hk hn => ?_) rfl (by rw [hsame]) fun v hv e he => ?_
        · have hki : k ≠ i := fun e => by rw [e, hi] at hn; cases hn
          rw [hproc, eq]
          show (update (update (update s.proc i _) i _) j _ k).proc? = none
          rw [update_of_ne hk, update_of_ne hki, update_of_ne hki, hn]
        · have he : t.leaf v = some e := he
          rw [leaf v hv, PageTable.shared] at he
          split at he
          · obtain ⟨e0, -, rfl⟩ := Option.map_eq_some_iff.mp he
            exact Flags.share_w _
          · rename_i hlt
            rw [hp1.above (by rw [hsz]; omega) hv] at he
            cases he

/-! ## 3. What the child starts -/

/-- A copy of the parent has no page of its own to write; a program has its stack. -/
theorem SpawnEnd.not_starts {namei : List UInt8 → Option Exe} {upath uargv : Nat} {r : Int}
    (h : SpawnEnd s s' p upath uargv r) (hr : 0 < r) : ¬ SpawnStarts namei s s' p upath uargv r := by
  intro hst
  obtain ⟨path', argv', bufs', p1', m1', -, hfetch, j', np', hj', -, hcase⟩ := hst hr
  cases h with
  | refused why => omega
  | wrapped pid answer => omega
  | @done path argv bufs p1 np m1 j hpath fetched short slot enough child others pid frame shared =>
    rw [fetched] at hfetch
    cases hfetch
    -- the only slot that was free and is taken now is the child's
    have hjj : j' = j := by
      by_contra hne
      have hnone := others j' hne hj'
      rcases hcase with ⟨hu, -⟩ | ⟨hz, -⟩
      · rw [hu] at hnone
        cases hnone
      · rw [hz] at hnone
        cases hnone
    rw [hjj, child] at hcase
    rcases hcase with ⟨hu, m, q, ts, ks, n, q', m', hinv, hfew, hq, hrun, hn, hu'⟩ | ⟨hz, -⟩
    · cases hu
      have hend := (kexec_sat hinv hfew hq short).of_ok hrun
      cases hend with
      | failed inv keeps => exact hn rfl
      | done inv keeps ok same fresh stack =>
        obtain ⟨v, hv, e, he, hw⟩ := stack
        have htab : np'.pagetable = q'.pagetable := congrArg Prod.fst hu'
        rw [← htab] at he
        rw [shared v hv e he] at hw
        cases hw
    · cases hz

/-- **When the child that `sys_spawn` made starts the program**: only when no child can be made, or
    none whose pid is above 0. -/
theorem spawn_starts_iff {namei : List UInt8 → Option Exe} {upath uargv : Nat} {r : Int} (h : Reached s)
    (hi : s.proc i = .used p) (hr : sysSpawn namei i p upath uargv s = .ok r s') :
    SpawnStarts namei s s' p upath uargv r ↔ SpawnRefused s p upath uargv ∨ s.nextpid ≤ 0 := by
  have hend := (sysSpawn_sat (sysOk_reached h) hi namei upath uargv).of_ok hr
  constructor
  · intro hst
    by_cases hpos : 0 < r
    · exact absurd hst (hend.not_starts hpos)
    · cases hend with
      | refused why => exact Or.inl why
      | wrapped pid answer => exact Or.inr pid
      | done path fetched short slot enough child others pid frame shared =>
        exact Or.inr (Int32.le_iff_toInt_le.mpr (Int.not_lt.mp hpos))
  · intro why hpos
    cases hend with
    | refused _ => omega
    | wrapped pid answer => omega
    | done path fetched short slot enough child others pid frame shared =>
      rcases why with (hno | hno | hno | ⟨argv, bufs, p1, m, hrun, hlt⟩) | hle
      · exact absurd path (hno _ _)
      · exact absurd fetched (hno _ _ _ _)
      · rw [hno] at slot
        cases slot
      · rw [fetched] at hrun
        cases hrun
        omega
      · exact absurd (Int32.le_iff_toInt_le.mp hle) (Int.not_le.mpr hpos)

end

/-- The trap frame of the process in slot `i`. -/
def frameOf (s : Sys) (i : Fin NPROC) : Option Trapframe := (s.proc i).proc?.map (·.trapframe)

/-- The first process of the small machine takes a page of zeros and spawns the empty path. -/
theorem spawned_small : ∃ s s' p, Reached s ∧ s.proc small.initproc = .used p ∧
    sysSpawn (fun _ => none) small.initproc p 0 0 s = .ok 2 s' ∧
    frameOf s' ⟨1, by decide⟩ = some { p.trapframe with a0 := 0 } := by
  have hrun : ((after perform small [(small.initproc, .sbrk 4096 true)]).any fun s =>
      (s.proc small.initproc).test fun p =>
        (sysSpawn (fun _ => none) small.initproc p 0 0 s).test fun r s' => decide (r = 2 ∧
          frameOf s' ⟨1, by decide⟩ = some { p.trapframe with a0 := 0 })) = true := by
    decide +kernel
  obtain ⟨s, p, hs, hp, hq⟩ := small_reaches hrun
  obtain ⟨r, s', hr, hq⟩ := Outcome.exists_of_test hq
  obtain ⟨rfl, hframe⟩ := of_decide_eq_true hq
  exact ⟨s, s', p, hs, hp, hr, hframe⟩

theorem spawn_starts_iff_small : ∃ s s' p, Reached s ∧ s.proc small.initproc = .used p ∧
    sysSpawn (fun _ => none) small.initproc p 0 0 s = .ok 2 s' ∧
    (SpawnStarts (fun _ => none) s s' p 0 0 2 ↔ SpawnRefused s p 0 0 ∨ s.nextpid ≤ 0) := by
  obtain ⟨s, s', p, hs, hp, hr, -⟩ := spawned_small
  exact ⟨s, s', p, hs, hp, hr, spawn_starts_iff hs hp hr⟩

/-- **A spawn of a program that does not exist succeeds**, and the child goes on after its parent's
    call, with 0 as the answer. -/
theorem spawn_resumes_parent : ∃ s s' p, Reached s ∧ s.proc small.initproc = .used p ∧
    sysSpawn (fun _ => none) small.initproc p 0 0 s = .ok 2 s' ∧
    frameOf s' ⟨1, by decide⟩ = some { p.trapframe with a0 := 0 } ∧
    ¬ SpawnStarts (fun _ => none) s s' p 0 0 2 := by
  obtain ⟨s, s', p, hs, hp, hr, hframe⟩ := spawned_small
  have hend := (sysSpawn_sat (sysOk_reached hs) hp _ _ _).of_ok hr
  exact ⟨s, s', p, hs, hp, hr, hframe, hend.not_starts (by decide)⟩

end HaiOS.Vm
