/-
  File:      HaiOS/File/SysPipe.lean
  Subject:   A PIPE CALL THAT FAILS LEAVES NO TRACE (kernel/sysfile.c: sys_pipe; kernel/pipe.c:
             pipealloc, pipeclose; kernel/file.c: filealloc, fileclose).

  * `St` -- the memory, the pipes by their pages, the file table, and the descriptors and the address
    space of the process; `sysPipe` -- the call;
  * `closeBoth_sat` -- the two closes of a failed call: the second one frees the page;
  * `Traceless`, `Bound`, `sysPipe_all_or_nothing` -- -1 and everything is as it was, or 0 and the two
    lowest free descriptors are the ends of a new pipe.

  An inode that is put is only noted: no file of a pipe call has one.
-/
import HaiOS.File.Table
import HaiOS.Vm.Reached

namespace HaiOS.SysPipe

open Lib Lib.Routine Vm Function

/-! ## 1. The call -/

/-- `struct pipe`, without its lock and its bytes. -/
structure Pipe where
  nread : Nat
  nwrite : Nat
  readopen : Bool
  writeopen : Bool
  deriving DecidableEq, Repr

structure St where
  mem : Mem
  /-- the pipe in a page -/
  pipe : Nat → Pipe
  ftable : Ftable
  /-- the descriptors and the address space of the process -/
  ofile : Ofile
  space : Space
  /-- the inodes that were put, the last one first -/
  iputs : List Nat

/-- A panic of the memory system, or another one. -/
inductive Halt where
  | vm (p : Vm.Panic)
  | panic (p : HaiOS.Panic)

abbrev PipeM (α : Type) : Type := Routine Halt St α

/-- A routine of the memory system. -/
def onMem {α : Type} (x : VmM α) : PipeM α := fun s =>
  match x s.mem with
  | .ok a m => .ok a { s with mem := m }
  | .fail e m => .fail (.vm e) { s with mem := m }

/-- `filealloc`. -/
def filealloc : PipeM (Option (Fin NFILE)) := fun s =>
  match s.ftable.filealloc with
  | none => .ok none s
  | some (f, t) => .ok (some f) { s with ftable := t }

/-- The end that is closed. -/
def Pipe.close (pi : Pipe) (writable : Bool) : Pipe :=
  if writable = true then { pi with writeopen := false } else { pi with readopen := false }

/-- `pipeclose`. -/
def pipeclose (pi : Nat) (writable : Bool) : PipeM Unit := do
  update fun s => { s with pipe := update s.pipe pi ((s.pipe pi).close writable) }
  let p ← gets fun s => s.pipe pi
  if p.readopen = false ∧ p.writeopen = false then onMem (kfree pi) else pure ()

/-- `fileclose`. -/
def fileclose (f : Fin NFILE) : PipeM Unit := do
  match (← gets St.ftable).fileclose f with
  | none => stop (.panic .fileclose)
  | some (c, t) => do
    update fun s => { s with ftable := t }
    match c with
    | .nothing => pure ()
    | .pipeclose pi writable => pipeclose pi writable
    | .iput ip => update fun s => { s with iputs := ip :: s.iputs }

/-- The two ends of a new pipe. -/
def File.readEnd (f : File) (pi : Nat) : File :=
  { f with type := .pipe, readable := true, writable := false, pipe := pi }

def File.writeEnd (f : File) (pi : Nat) : File :=
  { f with type := .pipe, readable := false, writable := true, pipe := pi }

/-- The assignments of `pipealloc`. -/
def St.open (s : St) (pi : Nat) (f0 f1 : Fin NFILE) : St :=
  let t := update s.ftable f0 (File.readEnd (s.ftable f0) pi)
  { s with
    pipe := update s.pipe pi ⟨0, 0, true, true⟩
    ftable := update t f1 (File.writeEnd (t f1) pi) }

/-- `pipealloc` from `kalloc` on. -/
def pipeopen (f0 f1 : Fin NFILE) : PipeM (Option (Fin NFILE × Fin NFILE)) := do
  match ← onMem kalloc with
  | some pi => do
    update fun s => s.open pi f0 f1
    pure (some (f0, f1))
  | none => do
    fileclose f0
    fileclose f1
    pure none

/-- `pipealloc`: the two files, `none` for -1. -/
def pipealloc : PipeM (Option (Fin NFILE × Fin NFILE)) := do
  match ← filealloc with
  | none => pure none
  | some f0 => do
    match ← filealloc with
    | none => do
      fileclose f0
      pure none
    | some f1 => pipeopen f0 f1

/-- `fdalloc`: `none` for -1. -/
def fdalloc (f : Fin NFILE) : PipeM (Option (Fin NOFILE)) := fun s =>
  match s.ofile.fdalloc f with
  | none => .ok none s
  | some (fd, o) => .ok (some fd) { s with ofile := o }

/-- `copyout(p->pagetable, addr, (char*)&fd, sizeof(fd))`: false for -1. -/
def putInt (addr : Nat) (fd : Fin NOFILE) : PipeM Bool := do
  let (ok, sp) ← onMem (copyout (← gets St.space) addr (le 4 fd.val))
  update fun s => { s with space := sp }
  pure ok

/-- `p->ofile[fd] = 0;` -/
def clear (fd : Fin NOFILE) : PipeM Unit :=
  update fun s => { s with ofile := update s.ofile fd none }

/-- `fileclose(rf); fileclose(wf); return -1;` -/
def closeBoth (rf wf : Fin NFILE) : PipeM Int := do
  fileclose rf
  fileclose wf
  pure (-1)

/-- The two `copyout`s: the second one only after the first. -/
def putBoth (fdarray : Nat) (fd0 fd1 : Fin NOFILE) : PipeM Bool := do
  let ok ← putInt fdarray fd0
  if ok = true then putInt ((fdarray + 4) % 2 ^ 64) fd1 else pure false

/-- `sys_pipe` from the two `copyout`s on. -/
def report (fdarray : Nat) (rf wf : Fin NFILE) (fd0 fd1 : Fin NOFILE) : PipeM Int := do
  if (← putBoth fdarray fd0 fd1) = true then pure 0
  else do
    clear fd0
    clear fd1
    closeBoth rf wf

/-- `sys_pipe`. -/
def sysPipe (fdarray : Nat) : PipeM Int := do
  match ← pipealloc with
  | none => pure (-1)
  | some (rf, wf) => do
    match ← fdalloc rf with
    | none => closeBoth rf wf
    | some fd0 => do
      match ← fdalloc wf with
      | none => do
        clear fd0
        closeBoth rf wf
      | some fd1 => report fdarray rf wf fd0 fd1

/-! ## 2. Closing what was opened -/

section

variable {s s' : St} {f f0 f1 : Fin NFILE} {pi : Nat} {ts : List PageTable} {ks : List Nat}
  {t : PageTable}

theorem onMem_sat {α : Type} {x : VmM α} {Q : α → Mem → Prop} (h : (x s.mem).Returns Q) :
    (onMem x s).Returns fun a s' => ∃ m', s' = { s with mem := m' } ∧ Q a m' := by
  unfold onMem
  obtain ⟨a, m', hx, hq⟩ := h.exists_ok
  rw [hx]
  exact ⟨m', rfl, hq⟩

/-- A file without a type. -/
theorem fileclose_nothing (hr : (s.ftable f).ref = 1) (ht : (s.ftable f).type = .none) :
    fileclose f s =
      .ok () { s with ftable := update s.ftable f (s.ftable f).closed } := by
  have hc : (s.ftable f).closing = .nothing := by
    unfold File.closing
    rw [ht]
  unfold fileclose
  rw [gets_bind, fileclose_last hr, hc]
  rfl

/-- An end of a pipe. -/
theorem fileclose_pipe (hr : (s.ftable f).ref = 1) (ht : (s.ftable f).type = .pipe) :
    fileclose f s = pipeclose (s.ftable f).pipe (s.ftable f).writable
      { s with ftable := update s.ftable f (s.ftable f).closed } := by
  have hc : (s.ftable f).closing = .pipeclose (s.ftable f).pipe (s.ftable f).writable := by
    unfold File.closing
    rw [ht]
  unfold fileclose
  rw [gets_bind, fileclose_last hr, hc]
  rfl

/-- **`pipeclose`**: one end is closed, and with the second one the page goes. -/
theorem pipeclose_eq (pi : Nat) (writable : Bool) (s : St) :
    pipeclose pi writable s =
      (if ((s.pipe pi).close writable).readopen = false ∧ ((s.pipe pi).close writable).writeopen = false
        then onMem (kfree pi) else pure ())
        { s with pipe := update s.pipe pi ((s.pipe pi).close writable) } := by
  have hat : update s.pipe pi ((s.pipe pi).close writable) pi = (s.pipe pi).close writable :=
    update_self ..
  show (if (update s.pipe pi ((s.pipe pi).close writable) pi).readopen = false ∧
      (update s.pipe pi ((s.pipe pi).close writable) pi).writeopen = false
    then onMem (kfree pi) else pure () : PipeM Unit) _ = _
  simp only [hat]

/-- **A pipe that is still open at both ends**, and its two files. -/
structure Ends (s : St) (f0 f1 : Fin NFILE) (pi : Nat) : Prop where
  ne : f0 ≠ f1
  read : (s.ftable f0).ref = 1 ∧ (s.ftable f0).type = .pipe ∧ (s.ftable f0).pipe = pi ∧
    (s.ftable f0).writable = false
  write : (s.ftable f1).ref = 1 ∧ (s.ftable f1).type = .pipe ∧ (s.ftable f1).pipe = pi ∧
    (s.ftable f1).writable = true
  both : (s.pipe pi).readopen = true ∧ (s.pipe pi).writeopen = true

/-- **The first close leaves the page, the second one frees it.** -/
theorem closeBoth_sat (h : Ends s f0 f1 pi) (hinv : Inv s.mem (t :: ts) (pi :: ks)) :
    (closeBoth f0 f1 s).Returns
      fun r s' => r = -1 ∧ ∃ m' x,
        s' = { s with
          mem := m'
          pipe := update s.pipe pi x
          ftable := update (update s.ftable f0 (s.ftable f0).closed) f1
            (s.ftable f1).closed } ∧
        Inv m' (t :: ts) ks ∧ m'.first = s.mem.first := by
  obtain ⟨hr0, ht0, hp0, hw0⟩ := h.read
  obtain ⟨hr1, ht1, hp1, hw1⟩ := h.write
  obtain ⟨hro, hwo⟩ := h.both
  let s1 : St := { s with
    ftable := update s.ftable f0 (s.ftable f0).closed
    pipe := update s.pipe pi ((s.pipe pi).close false) }
  have hfirst : fileclose f0 s = .ok () s1 := by
    rw [fileclose_pipe hr0 ht0, hp0, hw0, pipeclose_eq, if_neg]
    · rfl
    · rintro ⟨-, hw⟩
      rw [show ((s.pipe pi).close false).writeopen = (s.pipe pi).writeopen from rfl, hwo] at hw
      cases hw
  have hf1 : s1.ftable f1 = s.ftable f1 := update_of_ne h.ne.symm ..
  have hp : s1.pipe pi = (s.pipe pi).close false := update_self ..
  have hsecond : fileclose f1 s1 = onMem (kfree pi)
      { s1 with
        ftable := update s1.ftable f1 (s1.ftable f1).closed
        pipe := update s1.pipe pi ((s1.pipe pi).close true) } := by
    rw [fileclose_pipe (by rw [hf1]; exact hr1) (by rw [hf1]; exact ht1), hf1, hp1, hw1, pipeclose_eq,
      if_pos]
    rw [show ({ s1 with ftable := update s1.ftable f1 (s.ftable f1).closed } : St).pipe pi =
      (s.pipe pi).close false from hp]
    exact ⟨rfl, rfl⟩
  have hfree := onMem_sat (s := { s1 with
    ftable := update s1.ftable f1 (s1.ftable f1).closed
    pipe := update s1.pipe pi ((s1.pipe pi).close true) }) (kfree_inv hinv)
  rw [← hsecond] at hfree
  unfold closeBoth
  rw [bind_ok hfirst]
  refine hfree.bind fun _ s2 ⟨m2, hs2, hinv2, hk2⟩ => ?_
  refine ⟨rfl, m2, (s1.pipe pi).close true, ?_, hinv2, hk2.first⟩
  rw [hs2, hf1, show s1.pipe = update s.pipe pi ((s.pipe pi).close false) from rfl,
    update_idem]

end

/-! ## 3. All or nothing -/

/-- The file table with the ends of a new pipe. -/
def ends (t : Ftable) (pi : Nat) (f0 f1 : Fin NFILE) : Ftable :=
  update (update t f0 { File.readEnd (t f0) pi with ref := 1 }) f1
    { File.writeEnd (t f1) pi with ref := 1 }

/-- **No trace is left.** The process has the page tables `t'` now: a page that a copy faulted in
    stays. -/
structure Traceless (s s' : St) (t' : PageTable) (ts : List PageTable) (ks : List Nat) : Prop where
  ofile : s'.ofile = s.ofile
  file : ∀ f, (s'.ftable f).ref = (s.ftable f).ref ∧ (s'.ftable f).type = (s.ftable f).type
  /-- the page of the pipe is free again, and the account holds without it -/
  page : ∀ pi, s.mem.freelist.head? = some pi → pi ∈ s'.mem.freelist
  inv : Inv s'.mem (t' :: ts) ks
  /-- no other pipe changed, and no inode was put -/
  pipe : ∀ q, s.mem.freelist.head? ≠ some q → s'.pipe q = s.pipe q
  iputs : s'.iputs = s.iputs

/-- **The descriptors `fd0` and `fd1` are the ends of a new pipe**, and nothing else changed. -/
structure Bound (s s' : St) (t' : PageTable) (ts : List PageTable) (ks : List Nat) (fd0 fd1 : Fin NOFILE)
    (f0 f1 : Fin NFILE) (pi : Nat) : Prop where
  lt : fd0 < fd1
  unused : s.ofile fd0 = none ∧ s.ofile fd1 = none
  lowest : ∀ d < fd1, d ≠ fd0 → s.ofile d ≠ none
  ofile : s'.ofile = update (update s.ofile fd0 (some f0)) fd1 (some f1)
  ne : f0 ≠ f1
  free : (s.ftable f0).ref = 0 ∧ (s.ftable f1).ref = 0
  read : (s'.ftable f0).ref = 1 ∧ (s'.ftable f0).type = .pipe ∧ (s'.ftable f0).pipe = pi ∧
    (s'.ftable f0).readable = true ∧ (s'.ftable f0).writable = false
  write : (s'.ftable f1).ref = 1 ∧ (s'.ftable f1).type = .pipe ∧ (s'.ftable f1).pipe = pi ∧
    (s'.ftable f1).readable = false ∧ (s'.ftable f1).writable = true
  other : ∀ f, f ≠ f0 → f ≠ f1 → s'.ftable f = s.ftable f
  /-- the page of the pipe was free, and the kernel holds it -/
  fresh : pi ∈ s.mem.freelist
  inv : Inv s'.mem (t' :: ts) (pi :: ks)
  pipe : s'.pipe = update s.pipe pi ⟨0, 0, true, true⟩
  iputs : s'.iputs = s.iputs

/-- **A pipe call under way**: the pipe of `pipealloc`, whatever became of the descriptors. -/
structure Opened (s s1 : St) (ts : List PageTable) (ks : List Nat) (sz : Nat) (f0 f1 : Fin NFILE)
    (pi : Nat) : Prop where
  ne : f0 ≠ f1
  free : (s.ftable f0).ref = 0 ∧ (s.ftable f1).ref = 0
  head : s.mem.freelist.head? = some pi
  ftable : s1.ftable = ends s.ftable pi f0 f1
  pipe : s1.pipe = update s.pipe pi ⟨0, 0, true, true⟩
  iputs : s1.iputs = s.iputs
  first : s1.mem.first = s.mem.first
  space : ∃ t1, s1.space = ⟨t1, sz, none⟩ ∧ t1.Fenced ∧ Inv s1.mem (t1 :: ts) (pi :: ks)

section

variable {s s1 : St} {t : PageTable} {ts : List PageTable} {ks : List Nat} {sz pi : Nat}
  {f f0 f1 : Fin NFILE} {fd0 fd1 : Fin NOFILE}

theorem ends_read (h : f0 ≠ f1) (t : Ftable) (pi : Nat) :
    ends t pi f0 f1 f0 = { File.readEnd (t f0) pi with ref := 1 } := by
  unfold ends
  rw [update_of_ne h, update_self]

theorem ends_write (t : Ftable) (pi : Nat) (f0 f1 : Fin NFILE) :
    ends t pi f0 f1 f1 = { File.writeEnd (t f1) pi with ref := 1 } :=
  update_self ..

theorem ends_other (h0 : f ≠ f0) (h1 : f ≠ f1) (t : Ftable) (pi : Nat) : ends t pi f0 f1 f = t f := by
  unfold ends
  rw [update_of_ne h1, update_of_ne h0]

variable (h : Opened s s1 ts ks sz f0 f1 pi) (hs : sz ≤ TRAPFRAME)

include h in
theorem Opened.ends : Ends s1 f0 f1 pi where
  ne := h.ne
  read := by
    rw [h.ftable, ends_read h.ne]
    exact ⟨rfl, rfl, rfl, rfl⟩
  write := by
    rw [h.ftable, ends_write]
    exact ⟨rfl, rfl, rfl, rfl⟩
  both := by
    rw [h.pipe, update_self]
    exact ⟨rfl, rfl⟩

include h in
/-- **Closing both ends of the pipe undoes the call.** -/
theorem Opened.undo (hq : s.ftable.Quiet) (hin : s.mem.Managed pi) (ho : s1.ofile = s.ofile) :
    (closeBoth f0 f1 s1).Returns fun r s' => r = -1 ∧ ∃ t', Traceless s s' t' ts ks := by
  obtain ⟨t1, -, -, hinv⟩ := h.space
  refine (closeBoth_sat h.ends hinv).imp fun r s' ⟨hr, m', x, hs', hinv', hfirst⟩ => ⟨hr, t1, ?_⟩
  subst hs'
  have hunref : refs (t1 :: ts) ks pi = 0 := by
    have hheld := hinv.held pi (by rw [kernRefs_page, names_self]; omega)
    rw [refs_page, names_self] at hheld
    omega
  refine ⟨ho, fun f => ?_, fun q hqf => ?_, hinv', fun q hne => ?_, h.iputs⟩
  · by_cases e1 : f = f1
    · subst e1
      dsimp only
      rw [update_self]
      exact ⟨h.free.2.symm, (hq _ h.free.2).symm⟩
    · dsimp only
      rw [update_of_ne e1]
      by_cases e0 : f = f0
      · subst e0
        rw [update_self]
        exact ⟨h.free.1.symm, (hq _ h.free.1).symm⟩
      · rw [update_of_ne e0, h.ftable, ends_other e0 e1]
        exact ⟨rfl, rfl⟩
  · obtain rfl : pi = q := Option.some.inj (h.head.symm.trans hqf)
    refine (hinv'.exact.counted.free pi).mpr ⟨?_, hunref⟩
    unfold Mem.Managed at *
    rw [hfirst, h.first]
    exact hin
  · have hqp : q ≠ pi := fun e => hne (e ▸ h.head)
    dsimp only
    rw [update_of_ne hqp, h.pipe, update_of_ne hqp]

include h hs in
/-- A copy to the user leaves the pipe alone. -/
theorem putInt_sat (addr : Nat) (fd : Fin NOFILE) :
    (putInt addr fd s1).Returns fun _ s2 => Opened s s2 ts ks sz f0 f1 pi ∧ s2.ofile = s1.ofile := by
  obtain ⟨t1, hsp, hf, hinv⟩ := h.space
  unfold putInt
  rw [gets_bind, hsp]
  refine (onMem_sat (copyout_sat hinv hf hs addr _)).bind
    fun r s2 ⟨m2, hs2, t2, hr, hmv, _⟩ => ?_
  obtain ⟨ok, sp⟩ := r
  cases hr
  subst hs2
  exact ⟨⟨h.ne, h.free, h.head, h.ftable, h.pipe, h.iputs, hmv.keeps.first.trans h.first,
    t2, rfl, hmv.fenced hf, hmv.inv⟩, rfl⟩

/-- A file that was just taken. -/
def taken (t : Ftable) (f : Fin NFILE) : Ftable := update t f { t f with ref := 1 }

theorem filealloc_eq (s : St) :
    filealloc s = .ok none s ∨ ∃ f0, (s.ftable f0).ref = 0 ∧
      filealloc s = .ok (some f0) { s with ftable := taken s.ftable f0 } := by
  unfold filealloc
  cases h : s.ftable.filealloc with
  | none => exact Or.inl rfl
  | some r =>
    obtain ⟨f0, t0⟩ := r
    obtain ⟨hr, rfl⟩ := filealloc_some h
    exact Or.inr ⟨f0, hr, rfl⟩

/-- **A file that was taken is closed.** -/
theorem fileclose_taken {T : Ftable} (hT : s.ftable = taken T f) (hr : (T f).ref = 0)
    (ht : (T f).type = .none) : fileclose f s = .ok () { s with ftable := T } := by
  have hat : s.ftable f = { T f with ref := 1 } := by
    rw [hT]
    exact update_self ..
  have hback : File.closed { T f with ref := 1 } = T f := by
    unfold File.closed
    rw [← hr, ← ht]
  rw [fileclose_nothing (by rw [hat]) (by rw [hat]; exact ht), hat, hback, hT]
  unfold taken
  rw [update_idem, update_eq_self]

/-- The files as `pipealloc` took them. -/
theorem taken_comm (h : f0 ≠ f1) (T : Ftable) : taken (taken T f0) f1 = taken (taken T f1) f0 := by
  unfold taken
  rw [update_of_ne h.symm, update_of_ne h, update_comm h.symm]

theorem open_taken (h : f0 ≠ f1) {T : Ftable} (hT : s.ftable = taken (taken T f0) f1) :
    (s.open pi f0 f1).ftable = ends T pi f0 f1 := by
  unfold St.open ends
  rw [hT]
  unfold taken
  funext f
  by_cases e1 : f = f1
  · subst e1
    simp [update_of_ne h.symm, File.writeEnd]
  · by_cases e0 : f = f0
    · subst e0
      simp [update_of_ne h, File.readEnd]
    · simp [update_of_ne e0, update_of_ne e1]

include h hs in
theorem putBoth_sat (fdarray : Nat) (fd0 fd1 : Fin NOFILE) :
    (putBoth fdarray fd0 fd1 s1).Returns fun _ s2 => Opened s s2 ts ks sz f0 f1 pi ∧ s2.ofile = s1.ofile := by
  refine (putInt_sat h hs fdarray fd0).bind fun ok s2 ⟨h2, ho2⟩ => ?_
  cases ok with
  | true => exact (putInt_sat h2 hs _ fd1).imp fun _ s3 h3 => ⟨h3.1, h3.2.trans ho2⟩
  | false => exact ⟨h2, ho2⟩

/-- **`pipealloc`** opens a pipe, or takes nothing. -/
theorem pipealloc_sat (hinv : Inv s.mem (t :: ts) ks) (hsp : s.space = ⟨t, sz, none⟩) (hf : t.Fenced)
    (hq : s.ftable.Quiet) :
    (pipealloc s).Returns
      fun o s' => match o with
        | none => ∃ m, s' = { s with mem := m } ∧ Inv m (t :: ts) ks ∧ m.freelist = s.mem.freelist
        | some (f0, f1) => s'.ofile = s.ofile ∧ ∃ pi, Opened s s' ts ks sz f0 f1 pi := by
  unfold pipealloc
  rcases filealloc_eq s with h0 | ⟨f0, hr0, h0⟩
  · rw [bind_ok h0]
    exact ⟨s.mem, rfl, hinv, rfl⟩
  rw [bind_ok h0]
  show ((filealloc >>= _) _).Sat _ _
  rcases filealloc_eq { s with ftable := taken s.ftable f0 } with h1 | ⟨f1, hr1, h1⟩
  · rw [bind_ok h1]
    show ((fileclose f0 >>= _) _).Sat _ _
    rw [bind_ok (fileclose_taken rfl hr0 (hq f0 hr0))]
    exact ⟨s.mem, rfl, hinv, rfl⟩
  rw [bind_ok h1]
  have hne : f0 ≠ f1 := by
    rintro rfl
    have hat : (taken s.ftable f0 f0).ref = 1 := by
      unfold taken
      rw [update_self]
    exact absurd (hat.symm.trans hr1) Nat.one_ne_zero
  have hat1 : taken s.ftable f0 f1 = s.ftable f1 := update_of_ne hne.symm ..
  have hr1' : (s.ftable f1).ref = 0 := hat1 ▸ hr1
  let s2 : St := { s with ftable := taken (taken s.ftable f0) f1 }
  refine (onMem_sat (s := s2) (kalloc_inv hinv)).bind fun o s3 ⟨m3, hs3, ho⟩ => ?_
  subst hs3
  cases o with
  | none =>
    obtain ⟨-, rfl⟩ := ho
    show ((fileclose f0 >>= _) _).Sat _ _
    have hat0 : taken s.ftable f1 f0 = s.ftable f0 := update_of_ne hne ..
    rw [bind_ok (fileclose_taken (T := taken s.ftable f1) (taken_comm hne _) (by rw [hat0]; exact hr0)
        (by rw [hat0]; exact hq f0 hr0)),
      bind_ok (fileclose_taken rfl hr1' (hq f1 hr1'))]
    exact ⟨_, rfl, hinv.setMem ⟨hinv.exact.counted, hinv.exact.free, hinv.exact.total,
      hinv.exact.ready⟩, rfl⟩
  | some pi =>
    obtain ⟨-, htook, hinv3⟩ := ho
    refine ⟨rfl, pi, hne, ⟨hr0, hr1'⟩, ?_, open_taken hne rfl, rfl, rfl, htook.first, t, hsp, hf, hinv3⟩
    rw [htook.head]
    rfl

theorem fdalloc_eq (s : St) (f : Fin NFILE) :
    fdalloc f s = .ok none s ∨ ∃ fd, s.ofile fd = none ∧ (∀ d < fd, s.ofile d ≠ none) ∧
      fdalloc f s = .ok (some fd) { s with ofile := update s.ofile fd (some f) } := by
  unfold fdalloc
  cases h : s.ofile.fdalloc f with
  | none => exact Or.inl rfl
  | some r =>
    obtain ⟨fd, o⟩ := r
    obtain ⟨hnone, hlow, rfl⟩ := fdalloc_some h
    exact Or.inr ⟨fd, hnone, hlow, rfl⟩

include h in
/-- The descriptors do not matter to the pipe. -/
theorem Opened.setOfile (o : Ofile) : Opened s { s1 with ofile := o } ts ks sz f0 f1 pi :=
  ⟨h.ne, h.free, h.head, h.ftable, h.pipe, h.iputs, h.first, h.space⟩

/-- What a pipe call promises. -/
def AllOrNothing (s : St) (ts : List PageTable) (ks : List Nat) (r : Int) (s' : St) : Prop :=
  (r = -1 ∧ ∃ t', Traceless s s' t' ts ks) ∨
    (r = 0 ∧ ∃ t' fd0 fd1 f0 f1 pi, Bound s s' t' ts ks fd0 fd1 f0 f1 pi)

include h in
theorem Opened.fail (hq : s.ftable.Quiet) (hin : s.mem.Managed pi) (ho : s1.ofile = s.ofile) :
    (closeBoth f0 f1 s1).Returns (AllOrNothing s ts ks) :=
  (h.undo hq hin ho).imp fun _ _ h => Or.inl h

include h hs in
/-- **The end of the call**, with both descriptors bound. -/
theorem report_sat (hq : s.ftable.Quiet)
    (hin : s.mem.Managed pi) (hlt : fd0 < fd1) (h0 : s.ofile fd0 = none) (h1 : s.ofile fd1 = none)
    (hlow : ∀ d < fd1, d ≠ fd0 → s.ofile d ≠ none)
    (ho : s1.ofile = update (update s.ofile fd0 (some f0)) fd1 (some f1)) (fdarray : Nat) :
    (report fdarray f0 f1 fd0 fd1 s1).Returns (AllOrNothing s ts ks) := by
  refine (putBoth_sat h hs fdarray fd0 fd1).bind fun ok s3 ⟨h3, ho3⟩ => ?_
  rw [ho] at ho3
  cases ok with
  | true =>
    obtain ⟨t3, -, -, hinv3⟩ := h3.space
    refine Or.inr ⟨rfl, t3, fd0, fd1, f0, f1, pi, hlt, ⟨h0, h1⟩, hlow, ho3, h3.ne, h3.free, ?_, ?_,
      fun f e0 e1 => ?_, List.mem_of_mem_head? h3.head, hinv3, h3.pipe, h3.iputs⟩
    · rw [h3.ftable, ends_read h3.ne]
      exact ⟨rfl, rfl, rfl, rfl, rfl⟩
    · rw [h3.ftable, ends_write]
      exact ⟨rfl, rfl, rfl, rfl, rfl⟩
    · rw [h3.ftable, ends_other e0 e1]
  | false =>
    refine (h3.setOfile (update (update s3.ofile fd0 none) fd1 none)).fail hq hin ?_
    rw [ho3, update_comm hlt.ne', update_idem, update_idem,
      update_comm hlt.ne, ← h1, update_eq_self, h1, ← h0, update_eq_self]

/-- **The call does everything or nothing.** -/
theorem sysPipe_sat (hinv : Inv s.mem (t :: ts) ks) (hsp : s.space = ⟨t, sz, none⟩) (hf : t.Fenced)
    (hs : sz ≤ TRAPFRAME) (hq : s.ftable.Quiet) (fdarray : Nat) :
    (sysPipe fdarray s).Returns (AllOrNothing s ts ks) := by
  refine (pipealloc_sat hinv hsp hf hq).bind fun o s1 ho => ?_
  cases o with
  | none =>
    obtain ⟨m, rfl, hinv1, hfree⟩ := ho
    refine Or.inl ⟨rfl, t, rfl, fun _ => ⟨rfl, rfl⟩, fun q hqf => ?_, hinv1, fun _ _ => rfl, rfl⟩
    rw [hfree]
    exact List.mem_of_mem_head? hqf
  | some r =>
    obtain ⟨f0, f1⟩ := r
    obtain ⟨ho1, pi, hopen⟩ := ho
    have hin := ((hinv.exact.counted.free pi).mp (List.mem_of_mem_head? hopen.head)).1
    show ((fdalloc f0 >>= _) _).Sat _ _
    rcases fdalloc_eq s1 f0 with h0 | ⟨fd0, hnone0, hlow0, h0⟩
    · rw [bind_ok h0]
      exact hopen.fail hq hin ho1
    rw [bind_ok h0]
    rw [ho1] at hnone0 hlow0
    let s2 : St := { s1 with ofile := update s1.ofile fd0 (some f0) }
    have ho2 : s2.ofile = update s.ofile fd0 (some f0) := by
      rw [← ho1]
    show ((fdalloc f1 >>= _) s2).Sat _ _
    rcases fdalloc_eq s2 f1 with h1 | ⟨fd1, hnone1, hlow1, h1⟩
    · rw [bind_ok h1]
      refine (hopen.setOfile (update s2.ofile fd0 none)).fail hq hin ?_
      rw [ho2, update_idem, ← hnone0, update_eq_self]
    · rw [bind_ok h1]
      rw [ho2] at hnone1 hlow1
      have hne : fd1 ≠ fd0 := by
        rintro rfl
        rw [update_self] at hnone1
        cases hnone1
      rw [update_of_ne hne] at hnone1
      have hlt : fd0 < fd1 := lt_of_le_of_ne (not_lt.mp fun hlt => hlow0 fd1 hlt hnone1) hne.symm
      refine report_sat (hopen.setOfile _) hs hq hin hlt hnone0 hnone1 (fun d hd hdne => ?_)
        (congrArg (update · fd1 (some f1)) ho2) fdarray
      have hd' := hlow1 d hd
      rwa [update_of_ne hdne] at hd'

end

/-- **A pipe call does everything or nothing**, for every process of a state that is reached, every
    file table that is reached, every descriptor table and every address. -/
theorem sysPipe_all_or_nothing {v : Sys} {i : Fin NPROC} {p : Proc} {s : St} (h : Vm.Reached v)
    (hi : v.proc i = .used p) (hm : s.mem = v.mem) (hsp : s.space = ⟨p.pagetable, p.sz, none⟩)
    (hf : s.ftable.Reached) (fdarray : Nat) :
    (sysPipe fdarray s).Sat (AllOrNothing s (tables (without v.proc i))
      (p.frame :: (frames (without v.proc i) ++ v.held))) fun _ _ => False := by
  have hok := sysOk_reached h
  have hp : (v.proc i).proc? = some p := by
    rw [hi]
    rfl
  have hinv := hok.front hp
  have hfit := hok.ok i p hp
  rw [← hm] at hinv
  exact sysPipe_sat hinv hsp hfit.fenced hfit.size hf.quiet fdarray

/-- A process without a file, before a pipe call. -/
def idle (v : Sys) (p : Proc) : St where
  mem := v.mem
  pipe := fun _ => ⟨0, 0, false, false⟩
  ftable := fun _ => ⟨.none, 0, false, false, 0, 0⟩
  ofile := fun _ => none
  space := ⟨p.pagetable, p.sz, none⟩
  iputs := []

/-- The answer of a call. -/
def answer (o : Outcome Halt St Int) : Option Int :=
  match o with
  | .ok r _ => some r
  | .fail _ _ => none

/-- A call with a page for its answer, and one without. -/
theorem sysPipe_all_or_nothing_small : ∃ v p, Vm.Reached v ∧ v.proc small.initproc = .used p ∧
    answer (sysPipe 4092 (idle v p)) = some (-1) ∧ answer (sysPipe 16 (idle v p)) = some 0 ∧
    ∀ fdarray, (sysPipe fdarray (idle v p)).Sat
      (AllOrNothing (idle v p) (tables (without v.proc small.initproc))
        (p.frame :: (frames (without v.proc small.initproc) ++ v.held))) fun _ _ => False := by
  have hrun : ((after perform small [(small.initproc, .sbrk 4096 false)]).any fun v =>
      (v.proc small.initproc).test fun p => decide (answer (sysPipe 4092 (idle v p)) = some (-1) ∧
        answer (sysPipe 16 (idle v p)) = some 0)) = true := by decide +kernel
  obtain ⟨v, p, hr, hp, hq⟩ := small_reaches hrun
  obtain ⟨hbad, hgood⟩ := of_decide_eq_true hq
  exact ⟨v, p, hr, hp, hbad, hgood, fun fdarray =>
    sysPipe_all_or_nothing hr hp rfl rfl .fileinit fdarray⟩

end HaiOS.SysPipe
