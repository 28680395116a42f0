/-
  File:      HaiOS/Vm/Uvm.lean
  Subject:   USER MEMORY (kernel/vm.c, the page-fault branch of kernel/trap.c): `uvmalloc`,
             `uvmdealloc`, `uvmfree`, `uvmcopy`, `uvmclear`, `cowfault`, `vmfault`, `copyout`,
             `copyin`, and the loads and stores of user code.

  Sizes and addresses are numbers below 2^64; the wrap-around is written where the source can
  reach it. A routine gets the page tables it works on and gives them back changed.
-/
import HaiOS.Vm.PageTable

namespace HaiOS.Vm

open Lib Lib.Routine

/-- `PGROUNDUP`, in 64 bits. -/
def pgroundup (x : Nat) : Nat := (x + (PGSIZE - 1)) % 2 ^ 64 / PGSIZE * PGSIZE

/-- `PGROUNDDOWN`. -/
def pgrounddown (a : Nat) : Nat := a / PGSIZE * PGSIZE

/-- The number of pages that `x` bytes take. -/
@[irreducible] def pages (x : Nat) : Nat := (x + (PGSIZE - 1)) / PGSIZE

/-- An `int` added to a 64-bit number. -/
def addInt (x : Nat) (n : Int) : Nat := (((x : Int) + n) % 2 ^ 64).toNat

/-- A 64-bit number put into an `int` and widened to 64 bits again. -/
def viaInt (n : Nat) : Nat :=
  if n % 2 ^ 32 < 2 ^ 31 then n % 2 ^ 32 else n % 2 ^ 32 + (2 ^ 64 - 2 ^ 32)

namespace Flags

/-- `PTE_W` alone. -/
def W : Flags := ⟨true, false, false, false⟩

/-- The flags with `PTE_U`. -/
def user (f : Flags) : Flags := { f with u := true }

/-- What `uvmcopy` makes of the flags: a writable entry becomes copy-on-write. -/
def share (f : Flags) : Flags := if f.w = true then { f with w := false, cow := true } else f

/-- What `cowfault` makes of the flags. -/
def own (f : Flags) : Flags := { f with w := true, cow := false }

end Flags

/-! ## 1. Growing and shrinking -/

/-- `uvmdealloc`: the new size, and the table without the pages from it on. -/
def uvmdealloc (t : PageTable) (oldsz newsz : Nat) : VmM (Nat × PageTable) :=
  if oldsz ≤ newsz then pure (oldsz, t)
  else if pgroundup newsz < pgroundup oldsz then do
    let npages := viaInt ((pgroundup oldsz - pgroundup newsz) / PGSIZE)
    let t ← uvmunmap t (pgroundup newsz) npages true
    pure (newsz, t)
  else pure (newsz, t)

/-- The loop of `uvmalloc`: `n` more pages, the next one at `a`. The first turn was at `base`, the
    rounded old size; a failure gives the pages from there on back. -/
def uvmallocLoop (base newsz : Nat) (f : Flags) : Nat → PageTable → Nat → VmM (Nat × PageTable)
  | 0, t, _ => pure (newsz, t)
  | n + 1, t, a => do
    match ← kalloc with
    | none => do
      let (_, t) ← uvmdealloc t a base
      pure (0, t)
    | some p => do
      memset p 0
      let (ok, t) ← mappages t a PGSIZE p f
      if ok = false then do
        kfree p
        let (_, t) ← uvmdealloc t a base
        pure (0, t)
      else uvmallocLoop base newsz f n t (a + PGSIZE)

/-- `uvmalloc`: the new size, 0 on failure. The loop `a = base; a < newsz; a += PGSIZE` has as many
    turns as there are pages from `base` to `newsz`: every turn takes a page of memory, so `a` never
    gets to where it would wrap around. -/
def uvmalloc (t : PageTable) (oldsz newsz : Nat) (xperm : Flags) : VmM (Nat × PageTable) :=
  if newsz < oldsz then pure (oldsz, t)
  else
    let base := pgroundup oldsz
    uvmallocLoop base newsz xperm.user ((newsz + (PGSIZE - 1) - base) / PGSIZE) t base

/-- `uvmfree`. -/
def uvmfree (t : PageTable) (sz : Nat) : VmM Unit := do
  let t ← if 0 < sz then uvmunmap t 0 (pgroundup sz / PGSIZE) true else pure t
  freewalk t

/-- `uvmclear`: take `PTE_U` from the entry of `va`. -/
def uvmclear (t : PageTable) (va : Nat) : VmM PageTable :=
  match t.walk va with
  | none => stop .uvmclear
  | some e => pure (t.setLeaf (va / PGSIZE) (e.map fun e => { e with flags := { e.flags with u := false } }))

/-! ## 2. Fork -/

/-- The loop of `uvmcopy`: `n` more pages of `old` from `i` on. The child's tables that were made
    before a failure stay, its entries go. -/
def uvmcopyLoop : Nat → PageTable → PageTable → Nat → VmM (Bool × PageTable × PageTable)
  | 0, old, new, _ => pure (true, old, new)
  | n + 1, old, new, i =>
    match old.pte i with
    | none => uvmcopyLoop n old new (i + PGSIZE)
    | some e => do
      let (ok, new) ← mappages new i PGSIZE e.ppn e.flags.share
      if ok = false then do
        let new ← uvmunmap new 0 (i / PGSIZE + 1) true
        pure (false, old, new)
      else do
        let r ← kaddref e.ppn
        if r < 0 then do
          let new ← uvmunmap new 0 (i / PGSIZE + 1) true
          pure (false, old, new)
        else
          -- the parent's entry is written only when its flags changed
          let old := if e.flags.share = e.flags then old
            else old.setLeaf (i / PGSIZE) (some ⟨e.ppn, e.flags.share⟩)
          uvmcopyLoop n old new (i + PGSIZE)

/-- `uvmcopy`: whether it succeeded, the parent's table and the child's. -/
def uvmcopy (old new : PageTable) (sz : Nat) : VmM (Bool × PageTable × PageTable) :=
  uvmcopyLoop ((sz + (PGSIZE - 1)) / PGSIZE) old new 0

/-! ## 3. Faults -/

/-- `memmove` of the bytes `bs` into page `p`. -/
def poke (p off : Nat) (bs : List UInt8) : VmM Unit :=
  update fun m => { m with ram := Function.update m.ram p (patch (m.ram p) off bs) }

/-- `memmove` of a whole page. -/
def copyPage (dst src : Nat) : VmM Unit :=
  update fun m => { m with ram := Function.update m.ram dst (m.ram src) }

/-- `cowfault`: a copy-on-write entry gets its own copy of the page. -/
def cowfault (t : PageTable) (va : Nat) : VmM (Bool × PageTable) :=
  match t.pte (pgrounddown va) with
  | none => pure (false, t)
  | some e =>
    if e.flags.cow = false then pure (false, t)
    else do
      match ← kalloc with
      | none => pure (false, t)
      | some mem => do
        copyPage mem e.ppn
        let t := t.setLeaf (pgrounddown va / PGSIZE) (some ⟨mem, e.flags.own⟩)
        kfree e.ppn
        pure (true, t)

/-- What `copyin`, `copyout` and `vmfault` see of the process: its page table and its size, and the
    table `kexec` is building, when that is the one they were called with. -/
structure Space where
  pagetable : PageTable
  sz : Nat
  image : Option PageTable

namespace Space

/-- The page table the routine was called with. -/
def cur (s : Space) : PageTable := s.image.getD s.pagetable

/-- That table changed. -/
def setCur (s : Space) (t : PageTable) : Space :=
  match s.image with
  | none => { s with pagetable := t }
  | some _ => { s with image := some t }

end Space

/-- `vmfault`: a page below the break that is not there yet. It looks in the table it was given and
    maps into the process's own. -/
def vmfault (s : Space) (va : Nat) : VmM (Option Nat × Space) :=
  if s.sz ≤ va then pure (none, s)
  else if (s.cur.pte (pgrounddown va)).isSome then pure (none, s)
  else do
    match ← kalloc with
    | none => pure (none, s)
    | some mem => do
      memset mem 0
      let (ok, t) ← mappages s.pagetable (pgrounddown va) PGSIZE mem Flags.W.user
      if ok = false then do
        kfree mem
        pure (none, { s with pagetable := t })
      else pure (some mem, { s with pagetable := t })

/-- `walkaddr`: the physical page of a user address. -/
def PageTable.walkaddr (t : PageTable) (va : Nat) : Option Nat :=
  match t.pte va with
  | none => none
  | some e => if e.flags.u = true then some e.ppn else none

/-! ## 4. Copying between kernel and user -/

/-- `walkaddr`, and `vmfault` where it finds nothing. -/
def addrOrFault (s : Space) (va0 : Nat) : VmM (Option Nat × Space) :=
  match s.cur.walkaddr va0 with
  | some pa0 => pure (some pa0, s)
  | none => vmfault s va0

/-- The page `copyout` writes to for the addresses from `va0` on, `none` when it returns -1. -/
def copyoutPage (s : Space) (va0 : Nat) : VmM (Option Nat × Space) := do
  if MAXVA ≤ va0 then pure (none, s)
  else do
    let (pa0, s) ← addrOrFault s va0
    match pa0, s.cur.pte va0 with
    | none, _ => pure (none, s)
    | some _, none => pure (none, s)
    | some pa0, some e =>
      if e.flags.w = true then pure (some pa0, s)
      else if e.flags.cow = false then pure (none, s)
      else do
        let (ok, t) ← cowfault s.cur va0
        if ok = false then pure (none, s.setCur t)
        else pure (some ((t.walkaddr va0).getD 0), s.setCur t)

/-- The loop of `copyout`; every turn copies at least one byte, so `src.length` turns are enough. -/
def copyoutLoop : Nat → Space → Nat → List UInt8 → VmM (Bool × Space)
  | 0, s, _, _ => pure (true, s)
  | k + 1, s, dstva, src =>
    if src = [] then pure (true, s)
    else do
      let va0 := pgrounddown dstva
      let (pa0, s) ← copyoutPage s va0
      match pa0 with
      | none => pure (false, s)
      | some pa0 => do
        let n := min (PGSIZE - (dstva - va0)) src.length
        poke pa0 (dstva - va0) (src.take n)
        copyoutLoop k s (va0 + PGSIZE) (src.drop n)

/-- `copyout`: false for -1. -/
def copyout (s : Space) (dstva : Nat) (src : List UInt8) : VmM (Bool × Space) :=
  copyoutLoop src.length s dstva src

/-- The loop of `copyin`, with the bytes copied so far. -/
def copyinLoop : Nat → Space → Nat → Nat → List UInt8 → VmM (Option (List UInt8) × Space)
  | 0, s, _, _, dst => pure (some dst, s)
  | k + 1, s, srcva, len, dst =>
    if len = 0 then pure (some dst, s)
    else do
      let va0 := pgrounddown srcva
      let (pa0, s) ← addrOrFault s va0
      match pa0 with
      | none => pure (none, s)
      | some pa0 => do
        let n := min (PGSIZE - (srcva - va0)) len
        let bs ← gets fun m => slice (m.ram pa0) (srcva - va0) n
        copyinLoop k s (va0 + PGSIZE) (len - n) (dst ++ bs)

/-- `copyin`: the bytes, `none` for -1. -/
def copyin (s : Space) (srcva len : Nat) : VmM (Option (List UInt8) × Space) :=
  copyinLoop len s srcva len []

/-! ## 5. Loads and stores of user code -/

/-- The page-fault branch of `usertrap`: false when the process is killed. -/
def usertrap (s : Space) (va : Nat) : VmM (Bool × Space) := do
  let (ok, t) ← cowfault s.pagetable va
  let s := { s with pagetable := t }
  if ok = true then pure (true, s)
  else do
    let (pa, s) ← vmfault s va
    pure (pa.isSome, s)

/-- The entry through which the hardware lets user code get at `va`. -/
def PageTable.translate (t : PageTable) (write : Bool) (va : Nat) : Option Nat :=
  match t.pte va with
  | none => none
  | some e => if e.flags.u = true ∧ (write = true → e.flags.w = true) then some e.ppn else none

/-- A load or a store of user code: the hardware translates the address, or the trap repairs the
    table and the instruction runs again. `none` when the process is killed. -/
def access (write : Bool) : Nat → Space → Nat → VmM (Option Nat × Space)
  | 0, s, _ => pure (none, s)
  | n + 1, s, va =>
    match s.pagetable.translate write va with
    | some p => pure (some p, s)
    | none => do
      let (ok, s) ← usertrap s va
      if ok = true then access write n s va else pure (none, s)

/-- Load the byte at `va`. A second trap at one instruction kills the process, so three attempts are
    never used up. -/
def load (s : Space) (va : Nat) : VmM (Option UInt8 × Space) := do
  let (p, s) ← access false 3 s va
  match p with
  | none => pure (none, s)
  | some p => do
    let b ← gets fun m => m.ram p (va % PGSIZE)
    pure (some b, s)

/-- Store the byte `b` at `va`; false when the process is killed. -/
def store (s : Space) (va : Nat) (b : UInt8) : VmM (Bool × Space) := do
  let (p, s) ← access true 3 s va
  match p with
  | none => pure (false, s)
  | some p => do
    poke p (va % PGSIZE) [b]
    pure (true, s)

end HaiOS.Vm
