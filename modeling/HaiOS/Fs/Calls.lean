/-
  File:      HaiOS/Fs/Calls.lean
  Subject:   THE INODE LAYER AS A MACHINE: its calls, on any inodes and in any order.

  A call on the contents of an inode is made with the inode locked, as sysfile.c and file.c do.
  The calls come from any processes: each runs from `ilock` to `iunlock`, and between two calls
  any block may be read, so any buffer without references may be recycled.

  * `Call`, `Call.exec` -- the calls; `Call.Legal` -- the caller has a reference;
  * `Step` -- a call that returns, with the inode it was made on and its answer;
  * `locked_sat` -- the rule for a call between `ilock` and `iunlock`.
-/
import HaiOS.Lib.Machine
import HaiOS.Fs.Image
import HaiOS.Fs.Files

namespace HaiOS

open Lib

/-! ## 1. The machine -/

inductive Call where
  | beginOp
  | endOp
  /-- `bread`, `brelse` of any block -/
  | read (b : Nat)
  | iget (inum : Nat)
  | idup (ip : Nat)
  | ialloc (type : Int16)
  | iput (ip : Nat)
  /-- `ip->major = ...; ip->minor = ...; ip->nlink = ...; iupdate(ip)` -/
  | amend (ip : Nat) (major minor nlink : Int16)
  | writei (ip : Nat) (src : Src) (off n : UInt32)
  | itrunc (ip : Nat)
  | readi (ip : Nat) (bad : Option Nat) (off n : UInt32)
  /-- `sys_fverify` after the path has been looked up -/
  | fverify (ip : Nat)

/-- What a call returns. -/
inductive Answer where
  | unit
  | slot (ip : Option Nat)
  | count (r : Int32)
  | bytes (r : Int32) (out : List UInt8)
  deriving DecidableEq

/-- The fields of `Call.amend`. -/
def links (major minor nlink : Int16) (d : Dinode) : Dinode :=
  { d with major := major, minor := minor, nlink := nlink }

theorem links_amends (major minor nlink : Int16) : Dinode.Amends (links major minor nlink) :=
  ⟨fun _ => rfl, fun _ => rfl, fun _ => rfl, fun _ => rfl⟩

/-- A call on a locked inode. -/
def locked {α : Type} (ip : Nat) (m : FsM α) : FsM α := do
  ilock ip
  let a ← m
  iunlock ip
  pure a

/-- `sys_fverify`, from `ilock(ip)` to `iunlockput(ip)`. -/
def fverify (ip : Nat) : FsM Int32 := do
  ilock ip
  let sum ← inodeChecksum ip
  let x ← inode ip
  iunlockput ip
  pure (if sum = x.din.checksum then 0 else -1)

def Call.exec : Call → FsM Answer
  | .beginOp => do
    let _ ← HaiOS.beginOp
    pure .unit
  | .endOp => do
    HaiOS.endOp
    pure .unit
  | .read b => do
    peek b
    pure .unit
  | .iget inum => do
    let ip ← HaiOS.iget inum
    pure (.slot (some ip))
  | .idup ip => do
    let ip ← HaiOS.idup ip
    pure (.slot (some ip))
  | .ialloc type => do
    let ip ← HaiOS.ialloc type
    pure (.slot ip)
  | .iput ip => do
    HaiOS.iput ip
    pure .unit
  | .amend ip major minor nlink => do
    locked ip (HaiOS.amend ip (links major minor nlink))
    pure .unit
  | .writei ip src off n => do
    let r ← locked ip (HaiOS.writei ip src off n)
    pure (.count r)
  | .itrunc ip => do
    locked ip (HaiOS.itrunc ip)
    pure .unit
  | .readi ip bad off n => do
    let r ← locked ip (HaiOS.readi ip bad off n)
    pure (.bytes r.1 r.2)
  | .fverify ip => do
    let r ← HaiOS.fverify ip
    pure (.count r)

/-- The caller has a reference to the inode; an inode number is one of the disk. -/
def Call.Legal (s : Fs) : Call → Prop
  | .iget inum => inum < s.sb.ninodes
  | .idup ip => 0 < (s.itable ip).ref
  | .iput ip => 0 < (s.itable ip).ref
  | _ => True

/-- The slot of the inode the call is made on. -/
def Call.slot : Call → Nat
  | .idup ip | .iput ip | .amend ip _ _ _ | .writei ip _ _ _ | .itrunc ip | .readi ip _ _ _
  | .fverify ip => ip
  | _ => 0

/-- A call, the inode it was made on, and what it returned. -/
structure Event where
  call : Call
  inum : Nat
  answer : Answer

/-- A call that returns. -/
structure Step (s : Fs) (e : Event) (s' : Fs) : Prop where
  legal : e.call.Legal s
  inum : (s.itable e.call.slot).inum = e.inum
  run : e.call.exec s = .ok e.answer s'

/-! ## 2. The rule for locked inodes -/

section Locked

variable {α : Type} {G : Nat → Prop} {s : Fs} {ip : Nat} {m : FsM α} {Q : α → Fs → Prop}
  {P : Panic → Fs → Prop} (hpan : ∀ p s, layerPanic p = true → P p s)
include hpan

/-- `ilock` only reads, `iunlock` does nothing. -/
theorem locked_sat (h : FsInv G s)
    (hm : ∀ s1, Touch G (.slot ip) s s1 → FsInv G s1 → Locked s1 ip →
      s1.itable = Function.update s.itable ip
        ((s.itable ip).locked (dinodes s (s.itable ip).inum)) →
      (m s1).Sat (fun a s' => FsInv G s' ∧ Q a s') P) :
    (locked ip m s).Sat Q P := by
  refine Outcome.Sat.bind (ilock_inv (fun p s hp => hpan p s (exhausted_layer hp)) h (fun _ => hpan _ _ rfl)
    fun _ _ _ => hpan _ _ rfl).sat ?_
  rintro _ s1 ⟨ht, h1, hl1, -, hit⟩
  refine (hm s1 ht h1 hl1 hit).bind ?_
  rintro a s2 ⟨h2, hq⟩
  refine Outcome.Sat.bind (iunlock_inv h2 fun _ => hpan _ _ rfl).sat ?_
  rintro _ s3 ⟨-, rfl, -⟩
  exact hq

end Locked

/-! ## 3. Replaying calls -/

instance (s : Fs) : (c : Call) → Decidable (c.Legal s)
  | .beginOp | .endOp | .read _ | .ialloc _ | .amend .. | .writei .. | .itrunc _ | .readi ..
  | .fverify _ => isTrue trivial
  | .iget _ => inferInstanceAs (Decidable (_ < _))
  | .idup _ => inferInstanceAs (Decidable (_ < _))
  | .iput _ => inferInstanceAs (Decidable (_ < _))

/-- Make the calls one after the other: the answers and the last state. -/
def replay : List Call → Fs → Option (List Answer × Fs)
  | [], s => some ([], s)
  | c :: cs, s =>
    if c.Legal s then
      match c.exec s with
      | .ok a s1 => (replay cs s1).map fun r => (a :: r.1, r.2)
      | .fail _ _ => none
    else none

theorem replay_trace {cs : List Call} {s s' : Fs} {as : List Answer}
    (h : replay cs s = some (as, s')) :
    ∃ l, Trace Step s l s' ∧ l.map Event.call = cs ∧ l.map Event.answer = as := by
  induction cs generalizing s as with
  | nil =>
    cases h
    exact ⟨[], .nil _, rfl, rfl⟩
  | cons c cs ih =>
    simp only [replay] at h
    split at h
    · rename_i hc
      split at h
      · rename_i a s1 hrun
        obtain ⟨⟨as', s2⟩, hr, he⟩ := Option.map_eq_some_iff.mp h
        cases he
        obtain ⟨l, hl, h1, h2⟩ := ih hr
        refine ⟨⟨c, (s.itable c.slot).inum, a⟩ :: l, .cons ⟨hc, rfl, hrun⟩ hl, ?_, ?_⟩
        · rw [List.map_cons, h1]
        · rw [List.map_cons, h2]
      · cases h
    · cases h

/-- What is true of the calls is true of the events. -/
theorem forall_call {P : Call → Prop} {cs : List Call} {l : List Event} (h : l.map Event.call = cs)
    (hp : ∀ c ∈ cs, P c) : ∀ e ∈ l, P e.call := fun e he =>
  hp e.call (by
    rw [← h]
    exact List.mem_map_of_mem he)

end HaiOS
