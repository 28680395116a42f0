/-
  File:      HaiOS/Vm/Exec.lean
  Subject:   `exec` (kernel/exec.c, `sys_exec` of kernel/sysfile.c): the ELF headers, `loadseg`,
             `kexec` with every exit to `bad`, and the fetching of the arguments.

  The executable is a file as `readi` shows it to `kexec`: a size and bytes. Header fields have the
  width of the source's types, and the truncations to `int` and `uint` at the calls are written out.
-/
import HaiOS.Vm.Proc

namespace HaiOS.Vm

open Lib Lib.Routine

/-! ## 1. The file and its headers -/

/-- The executable: its NOEXEC flag and its contents. -/
structure Exe where
  noexec : Bool
  bytes : List UInt8

/-- `readi` into kernel memory: the bytes read, for `uint` arguments. -/
def Exe.readi (f : Exe) (off n : Nat) : List UInt8 :=
  if f.bytes.length < off ∨ 2 ^ 32 ≤ off + n then [] else (f.bytes.drop off).take n

/-- The field of `w` bytes at offset `o` of a header. -/
def field (bs : List UInt8) (o w : Nat) : Nat := ofLE ((bs.drop o).take w)

/-- `struct elfhdr`, the fields that are read. -/
structure Elfhdr where
  magic : Nat
  entry : Nat
  phoff : Nat
  phnum : Nat

/-- `sizeof(struct elfhdr)`. -/
abbrev ELFHDR_SIZE : Nat := 64

def elfhdr (bs : List UInt8) : Elfhdr := ⟨field bs 0 4, field bs 24 8, field bs 32 8, field bs 56 2⟩

abbrev ELF_MAGIC : Nat := 0x464C457F

/-- `struct proghdr`, the fields that are read. -/
structure Proghdr where
  type : Nat
  flags : Nat
  off : Nat
  vaddr : Nat
  filesz : Nat
  memsz : Nat

/-- `sizeof(struct proghdr)`. -/
abbrev PROGHDR_SIZE : Nat := 56

def proghdr (bs : List UInt8) : Proghdr :=
  ⟨field bs 0 4, field bs 4 4, field bs 8 8, field bs 16 8, field bs 32 8, field bs 40 8⟩

abbrev ELF_PROG_LOAD : Nat := 1

/-- `flags2perm`. -/
def flags2perm (flags : Nat) : Flags := ⟨flags.testBit 1, flags.testBit 0, false, false⟩

/-! ## 2. Loading -/

/-- The loop of `loadseg`, `k` more turns from `i` on. So many pages are never mapped that `i` could
    wrap around. -/
def loadsegLoop (f : Exe) (t : PageTable) (va offset sz : Nat) : Nat → Nat → VmM Bool
  | 0, _ => pure true
  | k + 1, i =>
    match t.walkaddr ((va + i) % 2 ^ 64) with
    | none => stop .loadsegAddress
    | some pa => do
      let n := if sz - i < PGSIZE then sz - i else PGSIZE
      let bs := f.readi ((offset + i) % 2 ^ 32) n
      poke pa 0 bs
      if bs.length ≠ n then pure false else loadsegLoop f t va offset sz k (i + PGSIZE)

/-- `loadseg`: false for -1. -/
def loadseg (f : Exe) (t : PageTable) (va offset sz : Nat) : VmM Bool :=
  loadsegLoop f t va offset sz ((sz + (PGSIZE - 1)) / PGSIZE) 0

/-- The loop over the program headers: false for `goto bad`; the table and `sz` as they are then. -/
def loadProgram (f : Exe) : Nat → Nat → PageTable → Nat → VmM (Bool × PageTable × Nat)
  | 0, _, t, sz => pure (true, t, sz)
  | k + 1, off, t, sz =>
    let bs := f.readi off PROGHDR_SIZE
    let ph := proghdr bs
    if bs.length ≠ PROGHDR_SIZE then pure (false, t, sz)
    else if ph.type ≠ ELF_PROG_LOAD then loadProgram f k ((off + PROGHDR_SIZE) % 2 ^ 32) t sz
    else if ph.memsz < ph.filesz then pure (false, t, sz)
    else if (ph.vaddr + ph.memsz) % 2 ^ 64 < ph.vaddr then pure (false, t, sz)
    else if ph.vaddr % PGSIZE ≠ 0 then pure (false, t, sz)
    else do
      let (sz1, t) ← uvmalloc t sz ((ph.vaddr + ph.memsz) % 2 ^ 64) (flags2perm ph.flags)
      if sz1 = 0 then pure (false, t, sz)
      else do
        let ok ← loadseg f t ph.vaddr (ph.off % 2 ^ 32) (ph.filesz % 2 ^ 32)
        if ok = false then pure (false, t, sz1)
        else loadProgram f k ((off + PROGHDR_SIZE) % 2 ^ 32) t sz1

/-! ## 3. The stack -/

/-- Copy the argument strings onto the stack: the new `sp` and the addresses, `none` for `goto bad`.
    The strings are without their terminating zero. -/
def pushArgs (stackbase : Nat) : List (List UInt8) → Nat → List Nat → Space →
    VmM (Option (Nat × List Nat) × Space)
  | [], sp, ustack, s => pure (some (sp, ustack), s)
  | arg :: argv, sp, ustack, s =>
    if MAXARG ≤ ustack.length then pure (none, s)
    else
      let sp := (sp + 2 ^ 64 - (arg.length + 1)) % 2 ^ 64
      let sp := sp - sp % 16
      if sp < stackbase then pure (none, s)
      else do
        let (ok, s) ← copyout s sp (arg ++ [0])
        if ok = false then pure (none, s)
        else pushArgs stackbase argv sp (ustack ++ [sp]) s

/-- The strings and then the array of their addresses: the new `sp`, `none` for `goto bad`. -/
def pushStack (stackbase : Nat) (argv : List (List UInt8)) (sp : Nat) (s : Space) :
    VmM (Option Nat × Space) := do
  let (r, s) ← pushArgs stackbase argv sp [] s
  match r with
  | none => pure (none, s)
  | some (sp, ustack) =>
    let sp := (sp + 2 ^ 64 - (ustack.length + 1) * 8) % 2 ^ 64
    let sp := sp - sp % 16
    if sp < stackbase then pure (none, s)
    else do
      let (ok, s) ← copyout s sp ((ustack ++ [0]).flatMap (le 8))
      if ok = false then pure (none, s) else pure (some sp, s)

/-! ## 4. `kexec` -/

/-- The program name: what follows the last `/` of the path, at most 15 bytes. -/
def progName (path : List UInt8) : List UInt8 :=
  ((path.reverse.takeWhile (· ≠ 0x2f)).reverse).take 15

/-- `goto bad` with the new table built so far. -/
def bad (p : Proc) (t : PageTable) (sz : Nat) : VmM (Int × Proc) := do
  procFreepagetable t sz
  pure (-1, p)

/-- The last part of `kexec`, with the stack in place: the guard page, the arguments, and the
    commitment to the new image. -/
def kexecCommit (p : Proc) (entry : Nat) (path : List UInt8) (argv : List (List UInt8))
    (t : PageTable) (sz : Nat) : VmM (Int × Proc) := do
  let t ← uvmclear t (sz - (USERSTACK + 1) * PGSIZE)
  let (r, s) ← pushStack (sz - USERSTACK * PGSIZE) argv sz ⟨p.pagetable, p.sz, some t⟩
  let p := { p with pagetable := s.pagetable }
  match r with
  | none => bad p s.cur sz
  | some sp => do
    procFreepagetable p.pagetable p.sz
    pure (argv.length,
      { p with
        pagetable := s.cur
        sz := sz
        name := progName path
        trapframe := { p.trapframe with a1 := sp, epc := entry, sp := sp } })

/-- The second half of `kexec`: the stack at the next page boundary, and what follows. -/
def kexecStack (p : Proc) (entry : Nat) (path : List UInt8) (argv : List (List UInt8))
    (t : PageTable) (sz : Nat) : VmM (Int × Proc) := do
  let sz := pgroundup sz
  let (sz1, t) ← uvmalloc t sz ((sz + (USERSTACK + 1) * PGSIZE) % 2 ^ 64) Flags.W
  if sz1 = 0 then bad p t sz else kexecCommit p entry path argv t sz1

/-- `kexec` by the process `p`: `argc` or -1, and the process. `namei` finds the file of a path. -/
def kexec (namei : List UInt8 → Option Exe) (trampoline : Nat) (p : Proc) (path : List UInt8)
    (argv : List (List UInt8)) : VmM (Int × Proc) := do
  match namei path with
  | none => pure (-1, p)
  | some f =>
    let bs := f.readi 0 ELFHDR_SIZE
    let elf := elfhdr bs
    if f.noexec = true then pure (-1, p)
    else if bs.length ≠ ELFHDR_SIZE then pure (-1, p)
    else if elf.magic ≠ ELF_MAGIC then pure (-1, p)
    else do
      match ← procPagetable trampoline p.frame with
      | none => pure (-1, p)
      | some t => do
        let (ok, t, sz) ← loadProgram f elf.phnum (elf.phoff % 2 ^ 32) t 0
        if ok = false then bad p t sz else kexecStack p elf.entry path argv t sz

/-! ## 5. `sys_exec` -/

/-- The loop of `copyinstr`, with the bytes copied so far; `none` for -1. -/
def copyinstrLoop (t : PageTable) : Nat → Nat → Nat → List UInt8 → VmM (Option (List UInt8))
  | 0, _, _, _ => pure none
  | k + 1, srcva, max, dst =>
    if max = 0 then pure none
    else
      let va0 := pgrounddown srcva
      match t.walkaddr va0 with
      | none => pure none
      | some pa0 => do
        let n := min (PGSIZE - (srcva - va0)) max
        let bs ← gets fun m => slice (m.ram pa0) (srcva - va0) n
        if 0 ∈ bs then pure (some (dst ++ bs.takeWhile (· ≠ 0)))
        else copyinstrLoop t k (va0 + PGSIZE) (max - n) (dst ++ bs)

/-- `copyinstr`: the string without its terminating zero. -/
def copyinstr (t : PageTable) (srcva max : Nat) : VmM (Option (List UInt8)) :=
  copyinstrLoop t max srcva max []

/-- `fetchaddr`: the number at `addr`. -/
def fetchaddr (p : Proc) (addr : Nat) : VmM (Option Nat × Proc) :=
  if p.sz ≤ addr ∨ p.sz < (addr + 8) % 2 ^ 64 then pure (none, p)
  else do
    let (r, s) ← copyin ⟨p.pagetable, p.sz, none⟩ addr 8
    pure (r.map ofLE, { p with pagetable := s.pagetable })

/-- The loop of `sys_exec` from argument `i` on, `n` places left: the strings, `none` for
    `goto bad`; the pages taken for them; the process. -/
def fetchArgv (uargv : Nat) : Nat → Proc → List (List UInt8) → List Nat →
    VmM (Option (List (List UInt8)) × List Nat × Proc)
  | 0, p, _, pages => pure (none, pages, p)
  | n + 1, p, argv, pages => do
    let (uarg, p) ← fetchaddr p ((uargv + 8 * argv.length) % 2 ^ 64)
    match uarg with
    | none => pure (none, pages, p)
    | some 0 => pure (some argv, pages, p)
    | some uarg => do
      match ← kalloc with
      | none => pure (none, pages, p)
      | some page => do
        match ← copyinstr p.pagetable uarg PGSIZE with
        | none => pure (none, pages ++ [page], p)
        | some arg => do
          poke page 0 (arg ++ [0])
          fetchArgv uargv n p (argv ++ [arg]) (pages ++ [page])

/-- `kfree` of every argument page. -/
def freePages : List Nat → VmM Unit
  | [] => pure ()
  | page :: pages => do
    kfree page
    freePages pages

/-- `sys_exec`. -/
def sysExec (namei : List UInt8 → Option Exe) (trampoline : Nat) (p : Proc) (upath uargv : Nat) :
    VmM (Int × Proc) := do
  match ← copyinstr p.pagetable upath MAXPATH with
  | none => pure (-1, p)
  | some path => do
    let (r, pages, p) ← fetchArgv uargv MAXARG p [] []
    match r with
    | none => do
      freePages pages
      pure (-1, p)
    | some argv => do
      let (ret, p) ← kexec namei trampoline p path argv
      freePages pages
      pure (ret, p)

end HaiOS.Vm
