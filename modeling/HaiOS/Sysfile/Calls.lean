/-
  File:      HaiOS/Sysfile/Calls.lean
  Subject:   THE SYSTEM CALLS ON NAMES (kernel/sysfile.c: sys_link, sys_unlink, create, sys_mkdir,
             sys_mknod, sys_chdir), between their begin_op and end_op and as a whole.

  An argument is what `argstr` fetches: a path, or `none` when it fails.

  * `World.Sound` -- every entry of a linked directory names a linked inode;
  * `Allows w i A` -- from the linked inode `i` of a sound world only want of resources is met;
  * `Untouched`, `NewEntry` -- what a call may do to the world; `Ends` -- how it ends.
-/
import HaiOS.Sysfile.Path
import HaiOS.Fs.Calls

namespace HaiOS

open Lib Function

/-! ## 1. The code -/

/-- `ip->nlink += v;` -/
def Dinode.addLinks (d : Dinode) (v : Int16) : Dinode := { d with nlink := d.nlink + v }

section

variable (d : Dinode) (v : Int16)

@[simp] theorem Dinode.addLinks_nlink : (d.addLinks v).nlink = d.nlink + v := rfl

@[simp] theorem Dinode.addLinks_type : (d.addLinks v).type = d.type := rfl

@[simp] theorem Dinode.addLinks_size : (d.addLinks v).size = d.size := rfl

@[simp] theorem Dinode.addLinks_extents : (d.addLinks v).extents = d.extents := rfl

end

namespace Sysfile

abbrev DOT : List UInt8 := [46]
abbrev DOTDOT : List UInt8 := [46, 46]

/-- `ip->nlink += v; iupdate(ip);` -/
def addLinks (ip : Nat) (v : Int16) : KM Unit := lift (amend ip fun d => d.addLinks v)

/-- `if((dp = nameiparent(new, name)) == 0) goto bad; ilock(dp); ... dirlink(dp, name, ip->inum) ...;
    iunlockput(dp);` -/
def linkName (cwd : Nat) (new : List UInt8) (ip : Nat) : KM Bool := do
  let r ← nameiparent cwd new
  match r with
  | none => pure false
  | some (dp, name) => do
    ilock dp
    let x ← lift (inode ip)
    let r ← dirlink dp name x.inum
    iunlockput dp
    pure (decide (¬ r < 0))

/-- `sys_link` inside the transaction. -/
def link (cwd : Nat) (old new : List UInt8) : KM Int := do
  let r ← namei cwd old
  match r with
  | none => pure (-1)
  | some ip => do
    ilock ip
    let x ← lift (inode ip)
    if x.din.type = T_DIR then do
      iunlockput ip
      pure (-1)
    else do
      addLinks ip 1
      iunlock ip
      let done ← linkName cwd new ip
      if done then do
        iput ip
        pure 0
      else do
        ilock ip
        addLinks ip (-1)
        iunlockput ip
        pure (-1)

/-- `ip->type == T_DIR && !isdirempty(ip)`. -/
def inUse (ip : Nat) : KM Bool := do
  let x ← lift (inode ip)
  if x.din.type = T_DIR then do
    let empty ← lift (isdirempty ip)
    pure (!empty)
  else pure false

/-- `if(ip->type == T_DIR){ dp->nlink += v; iupdate(dp); }` -/
def addChild (ip dp : Nat) (v : Int16) : KM Unit := do
  let x ← lift (inode ip)
  if x.din.type = T_DIR then addLinks dp v else pure ()

/-- `sys_unlink` from `ilock(ip)` on, for the entry at `off`. -/
def unlinkEntry (dp ip off : Nat) : KM Int := do
  ilock ip
  let x ← lift (inode ip)
  if x.din.nlink < 1 then Routine.stop (.panic .unlinkNlink)
  else do
    let used ← inUse ip
    if used then do
      iunlockput ip
      iunlockput dp
      pure (-1)
    else do
      lift (Cache.clearDirent dp off)
      addChild ip dp (-1)
      iunlockput dp
      addLinks ip (-1)
      iunlockput ip
      pure 0

/-- `sys_unlink` inside the transaction. -/
def unlink (cwd : Nat) (path : List UInt8) : KM Int := do
  let r ← nameiparent cwd path
  match r with
  | none => pure (-1)
  | some (dp, name) => do
    ilock dp
    if namecmp name DOT = 0 ∨ namecmp name DOTDOT = 0 then do
      iunlockput dp
      pure (-1)
    else do
      let r ← lift (dirlookup dp name)
      match r with
      | none => do
        iunlockput dp
        pure (-1)
      | some (ip, off) => unlinkEntry dp ip off

/-- `if(type == T_DIR){ if(dirlink(ip, ".", ip->inum) < 0 || dirlink(ip, "..", dp->inum) < 0)
    goto fail; }` -/
def linkDots (ip dp : Nat) (type : Int16) : KM Bool :=
  if type = T_DIR then do
    let x ← lift (inode ip)
    let r ← dirlink ip DOT x.inum
    if r < 0 then pure false
    else do
      let y ← lift (inode dp)
      let r ← dirlink ip DOTDOT y.inum
      pure (decide (¬ r < 0))
  else pure true

/-- The entries of the new inode, and the entry for it. -/
def linkNew (dp ip : Nat) (name : List UInt8) (type : Int16) : KM Bool := do
  let dots ← linkDots ip dp type
  if dots then do
    let x ← lift (inode ip)
    let r ← dirlink dp name x.inum
    pure (decide (¬ r < 0))
  else pure false

/-- `if(type == T_DIR){ dp->nlink++; iupdate(dp); }` -/
def newChild (dp : Nat) (type : Int16) : KM Unit :=
  if type = T_DIR then addLinks dp 1 else pure ()

/-- `create` from `ilock(ip)` on, for the new inode `ip`. -/
def createNew (dp ip : Nat) (name : List UInt8) (type major minor : Int16) : KM (Option Nat) := do
  ilock ip
  lift (amend ip (links major minor 1))
  let done ← linkNew dp ip name type
  if done then do
    newChild dp type
    iunlockput dp
    pure (some ip)
  else do
    -- something went wrong. de-allocate ip.
    lift (amend ip fun d => { d with nlink := 0 })
    iunlockput ip
    iunlockput dp
    pure none

/-- `create` for a name that is there. -/
def createFound (dp ip : Nat) (type : Int16) : KM (Option Nat) := do
  iunlockput dp
  ilock ip
  let x ← lift (inode ip)
  if type = T_FILE ∧ (x.din.type = T_FILE ∨ x.din.type = T_DEVICE) then pure (some ip)
  else do
    iunlockput ip
    pure none

def create (cwd : Nat) (path : List UInt8) (type major minor : Int16) : KM (Option Nat) := do
  let r ← nameiparent cwd path
  match r with
  | none => pure none
  | some (dp, name) => do
    ilock dp
    let r ← lift (dirlookup dp name)
    match r with
    | some (ip, _) => createFound dp ip type
    | none => do
      let r ← lift (ialloc type)
      match r with
      | none => do
        iunlockput dp
        pure none
      | some ip => createNew dp ip name type major minor

/-- `create`, and `iunlockput` of the new inode. -/
def make (cwd : Nat) (path : Option (List UInt8)) (type major minor : Int16) : KM Int := do
  match path with
  | none => pure (-1)
  | some path => do
    let r ← create cwd path type major minor
    match r with
    | none => pure (-1)
    | some ip => do
      iunlockput ip
      pure 0

/-- `sys_chdir` inside the transaction: the new `cwd`, or `none` for -1. -/
def chdir (cwd : Nat) (path : Option (List UInt8)) : KM (Option Nat) := do
  match path with
  | none => pure none
  | some path => do
    let r ← namei cwd path
    match r with
    | none => pure none
    | some ip => do
      ilock ip
      let x ← lift (inode ip)
      if x.din.type ≠ T_DIR then do
        iunlockput ip
        pure none
      else do
        iunlock ip
        iput cwd
        pure (some ip)

def sysLink (cwd : Nat) (old new : Option (List UInt8)) : KM Int :=
  match old, new with
  | some old, some new => transaction (link cwd old new)
  | _, _ => pure (-1)

def sysUnlink (cwd : Nat) (path : Option (List UInt8)) : KM Int :=
  match path with
  | some path => transaction (unlink cwd path)
  | none => pure (-1)

def sysMkdir (cwd : Nat) (path : Option (List UInt8)) : KM Int := transaction (make cwd path T_DIR 0 0)

def sysMknod (cwd : Nat) (path : Option (List UInt8)) (major minor : Int16) : KM Int :=
  transaction (make cwd path T_DEVICE major minor)

def sysChdir (cwd : Nat) (path : Option (List UInt8)) : KM (Option Nat) := transaction (chdir cwd path)

end Sysfile

/-! ## 2. Link counts -/

section Short

variable {v : Int16}

theorem toInt_succ (h : v ≠ 32767) : (v + 1).toInt = v.toInt + 1 := by
  have h1 := Int16.toInt_lt v
  have h2 := Int16.le_toInt v
  have h3 : v.toInt ≠ 32767 := fun e => h (Int16.toInt_inj.mp (e.trans (by decide)))
  rw [Int16.toInt_add, show (1 : Int16).toInt = 1 from rfl]
  exact Int.bmod_eq_of_le_mul_two (by omega) (by omega)

theorem succ_pred (v : Int16) : v + 1 + -1 = v := by
  rw [Int16.add_assoc, show (1 + -1 : Int16) = 0 from rfl, Int16.add_zero]

end Short

/-! ## 3. Sound worlds -/

namespace World

/-- An allocated inode with links. -/
def IsLinked (w : World) (i : Nat) : Prop := (w.dins i).type ≠ 0 ∧ 1 ≤ (w.dins i).nlink

/-- **Every entry of a linked directory names a linked inode**, and only `.` and `..` may name the
    directory itself. -/
structure Sound (w : World) : Prop where
  entries : ∀ i, w.IsLinked i → (w.dins i).type = T_DIR → ∀ e ∈ dirents (w.files i), e.live = true →
    w.IsLinked e.inum.toNat
  apart : ∀ i, w.IsLinked i → (w.dins i).type = T_DIR → ∀ e ∈ dirents (w.files i), e.live = true →
    cname e.name ≠ Sysfile.DOT → cname e.name ≠ Sysfile.DOTDOT → e.inum.toNat ≠ i

section Sound

variable {w : World} {i j : Nat} {name : List UInt8} {cs : List (List UInt8)} {parent : Bool}

theorem lookup_some (h : w.lookup i name = some j) :
    ∃ e ∈ dirents (w.files i), e.hasName name = true ∧ e.inum.toNat = j := by
  obtain ⟨⟨i', off⟩, hsc, rfl⟩ := Option.map_eq_some_iff.mp h
  obtain ⟨k, e, hk, hn, hi, -⟩ := scan_some hsc
  exact ⟨e, List.mem_of_getElem? hk, hn, hi.symm⟩

theorem Sound.lookup (hw : w.Sound) (hi : w.IsLinked i) (ht : (w.dins i).type = T_DIR)
    (h : w.lookup i name = some j) : w.IsLinked j := by
  obtain ⟨e, he, hn, rfl⟩ := lookup_some h
  exact hw.entries i hi ht e he (Dirent.hasName_iff.mp hn).1

/-- **No walk from a linked inode meets a free one.** -/
theorem Sound.passable (hw : w.Sound) (hi : w.IsLinked i) :
    w.Passable (fun _ _ => True) parent i cs := by
  induction cs generalizing i with
  | nil => trivial
  | cons c cs ih => exact ⟨hi.1, fun ht _ j hj => ⟨trivial, ih (hw.lookup hi ht hj)⟩⟩

theorem Sound.find (hw : w.Sound) (hi : w.IsLinked i) (h : w.find i cs = some j) : w.IsLinked j := by
  induction cs generalizing i with
  | nil =>
    cases h
    exact hi
  | cons c cs ih =>
    rw [World.find] at h
    split at h
    · rename_i ht
      obtain ⟨j', hj', h'⟩ := Option.bind_eq_some_iff.mp h
      exact ih (hw.lookup hi ht hj') h'
    · cases h

theorem findParent_some (h : w.findParent i cs = some (j, name)) :
    w.find i cs.dropLast = some j ∧ (w.dins j).type = T_DIR := by
  obtain ⟨c, -, h⟩ := Option.bind_eq_some_iff.mp h
  obtain ⟨j', hj', h⟩ := Option.bind_eq_some_iff.mp h
  split at h
  · cases h
    exact ⟨hj', ‹_›⟩
  · cases h

variable {w' : World}

/-- Paths depend on types and contents alone. -/
theorem find_congr (ht : ∀ i, (w'.dins i).type = (w.dins i).type) (hf : w'.files = w.files) :
    w'.find i cs = w.find i cs := by
  induction cs generalizing i with
  | nil => rfl
  | cons c cs ih =>
    have hl : w'.lookup i c = w.lookup i c := by
      unfold World.lookup
      rw [hf]
    rw [World.find, World.find, ht, hl]
    simp only [ih]

theorem findParent_congr (ht : ∀ i, (w'.dins i).type = (w.dins i).type) (hf : w'.files = w.files) :
    w'.findParent i cs = w.findParent i cs := by
  unfold World.findParent
  simp only [find_congr ht hf, ht]

/-- Links change, but no inode loses its last one. -/
theorem Sound.congr (hw : w.Sound) (ht : ∀ i, (w'.dins i).type = (w.dins i).type)
    (hf : w'.files = w.files) (hl : ∀ i, w'.IsLinked i ↔ w.IsLinked i) : w'.Sound := by
  refine ⟨fun i hi hd e he hlive => ?_, fun i hi hd e he => ?_⟩
  · rw [hl] at hi ⊢
    rw [ht] at hd
    rw [hf] at he
    exact hw.entries i hi hd e he hlive
  · rw [hl] at hi
    rw [ht] at hd
    rw [hf] at he
    exact hw.apart i hi hd e he

end Sound

end World

namespace Sysfile

/-- **From the inode `i` only want of resources is met**, or anything is allowed. -/
structure Allows (w : World) (i : Nat) (A : Halt → Prop) : Prop where
  resources : Resources A
  sound : (w.Sound ∧ w.IsLinked i) ∨ ∀ e, A e

section Allows

variable {sb : Superblock} {w : World} {B : List Nat} {k : Ks} {n i j : Nat} {A : Halt → Prop}
  {c : Handle} {path name : List UInt8} {cs : List (List UInt8)}

theorem Allows.noType (h : Allows w i A) (h0 : (w.dins i).type = 0) : A (.panic .ilockNoType) := by
  rcases h.sound with ⟨-, hi⟩ | hall
  · exact absurd h0 hi.1
  · exact hall _

theorem Allows.find (h : Allows w i A) (hf : w.find i cs = some j) : Allows w j A :=
  ⟨h.resources, h.sound.imp_left fun hs => ⟨hs.1, hs.1.find hs.2 hf⟩⟩

theorem Allows.lookup (h : Allows w i A) (ht : (w.dins i).type = T_DIR)
    (hl : w.lookup i name = some j) : Allows w j A :=
  ⟨h.resources, h.sound.imp_left fun hs => ⟨hs.1, hs.1.lookup hs.2 ht hl⟩⟩

variable (hA : Allows w (startInum c.inum path) A) (hw : Calm sb w) (hk : At sb w [] B k)
  (hc : c ∈ w.held) (hn : B.length ≤ n)
include hA hw hk hc hn

theorem namex_allowed {parent : Bool} :
    (namex c.slot path parent k).Sat (fun r k' =>
      match w.resolve parent (startInum c.inum path) (components path) with
      | none => r = none ∧ At sb w [] B k'
      | some (j, name) => ∃ jp, r = some (jp, name) ∧ At sb (w.take ⟨jp, j⟩) [] B k')
      (Fails n A) := by
  refine (namex_at hA.resources.wants hw hk hc (fun hno => ?_) (fun _ => hA.resources _ rfl) hn).imp
    fun r k1 hq => hq.2
  rcases hA.sound with ⟨hs, hi⟩ | hall
  · exact absurd (hs.passable hi) hno
  · exact hall _

/-- **`namei`** in a call. -/
theorem namei_at :
    (namei c.slot path k).Sat (fun r k' =>
      (r = none ∧ At sb w [] B k') ∨
      ∃ jp j, r = some jp ∧ w.find (startInum c.inum path) (components path) = some j ∧
        At sb (w.take ⟨jp, j⟩) [] B k') (Fails n A) := by
  refine (namex_allowed hA hw hk hc hn).bind fun r k1 hq => ?_
  unfold World.resolve at hq
  cases hf : w.find (startInum c.inum path) (components path) with
  | none =>
    rw [if_neg (by decide), hf] at hq
    obtain ⟨rfl, h1⟩ := hq
    exact Or.inl ⟨rfl, h1⟩
  | some j =>
    rw [if_neg (by decide), hf] at hq
    obtain ⟨jp, rfl, h1⟩ := hq
    exact Or.inr ⟨jp, j, rfl, rfl, h1⟩

/-- **`nameiparent`** in a call. -/
theorem nameiparent_at :
    (nameiparent c.slot path k).Sat (fun r k' =>
      (r = none ∧ At sb w [] B k') ∨
      ∃ jp j name, r = some (jp, name) ∧
        w.findParent (startInum c.inum path) (components path) = some (j, name) ∧
        At sb (w.take ⟨jp, j⟩) [] B k') (Fails n A) := by
  refine (namex_allowed hA hw hk hc hn).imp fun r k1 hq => ?_
  unfold World.resolve at hq
  cases hf : w.findParent (startInum c.inum path) (components path) with
  | none =>
    rw [if_pos rfl, hf] at hq
    exact Or.inl hq
  | some a =>
    obtain ⟨j, name⟩ := a
    rw [if_pos rfl, hf] at hq
    obtain ⟨jp, hr, h1⟩ := hq
    exact Or.inr ⟨jp, j, name, hr, rfl, h1⟩

end Allows

/-! ## 4. What a call may do to the world -/

/-- **Nothing changes but checksums.** -/
structure Untouched (w w' : World) : Prop where
  files : w'.files = w.files
  held : w'.held = w.held
  read : w.read ⊆ w'.read
  free : ∀ i, (w.dins i).type = 0 → (w'.dins i).type = 0
  same : ∀ i, (w.dins i).type ≠ 0 → (w.dins i).Resummed (w'.dins i)

/-- **A new entry `name` can stand at place `j` of the directory `d`**, whose inode becomes `d'`. -/
structure NewEntry (w : World) (d : Nat) (name : List UInt8) (d' : Dinode) (j : Nat) : Prop where
  dir : (w.dins d).type = T_DIR
  absent : scan name (dirents (w.files d)) = none
  linked : (w.dins d).Linked d'
  le : j ≤ (dirents (w.files d)).length
  free : ∀ e, (dirents (w.files d))[j]? = some e → e.live = false

/-- The world with the entry. -/
def bindName (w : World) (d : Nat) (name : List UInt8) (i : Nat) (d' : Dinode) (j : Nat) : World :=
  w.setFile d d' (overwrite (w.files d) (DIRENT_SIZE * j) (newDirent name i).bytes)

section Untouched

variable {sb : Superblock} {w w' w'' : World} {i : Nat} {d' : Dinode}

theorem Untouched.refl (w : World) : Untouched w w :=
  ⟨rfl, rfl, fun _ h => h, fun _ h => h, fun _ _ => .refl _⟩

theorem resummed_setDin (hd : (w.dins i).Resummed d') (j : Nat) :
    (w.dins j).Resummed ((w.setDin i d').dins j) := by
  by_cases hj : j = i
  · subst hj
    show (w.dins j).Resummed (update w.dins j d' j)
    rwa [update_self]
  · show (w.dins j).Resummed (update w.dins i d' j)
    rw [update_of_ne hj]
    exact .refl _

/-- **An untouched world is as calm as before.** -/
theorem Untouched.calm (h : Untouched w w') (hw : Calm sb w) : Calm sb w' := by
  have htype : ∀ i, (w'.dins i).type = (w.dins i).type := fun i => by
    by_cases h0 : (w.dins i).type = 0
    · rw [h.free i h0, h0]
    · exact (h.same i h0).type
  refine ⟨⟨fun i ht => ?_, fun i ht => ?_⟩, fun i ht h0 => ?_, fun g hg => ?_, hw.rootIn⟩
  · rw [h.files]
    exact hw.dirs.aligned i (by rw [← htype]; exact ht)
  · rw [h.files]
    exact hw.dirs.inums i (by rw [← htype]; exact ht)
  · rw [htype] at ht
    rw [(h.same i ht).nlink] at h0
    obtain ⟨g, hg, hi, hr⟩ := hw.steady i ht h0
    exact ⟨g, h.held ▸ hg, hi, h.read hr⟩
  · rw [htype]
    exact hw.used g (h.held ▸ hg)

theorem newDirent_inum_lt {name : List UInt8} {m : Nat} (hi : i < m) : (newDirent name i).inum.toNat < m := by
  have hmod : (UInt16.ofNat i).toNat = i % 65536 := UInt16.toNat_ofNat'
  exact lt_of_le_of_lt (hmod.trans_le (Nat.mod_le _ _)) hi

theorem NewEntry.calm {d j : Nat} {name : List UInt8} (hn : NewEntry w d name d' j) (hw : Calm sb w)
    (hi : i < sb.ninodes) : Calm sb (bindName w d name i d' j) :=
  hw.change hn.linked.type (Or.inl hn.linked.nlink)
    (hw.dirs.put hn.dir (length_strncpy _ _) hn.le fun _ => newDirent_inum_lt hi)

end Untouched

/-- After -1 the world is untouched, after 0 the change `M` is made. -/
def Answers (sb : Superblock) (w : World) (M : World → Prop) (r : Int) (w' : World) : Prop :=
  (r = -1 ∧ Untouched w w') ∨ (r = 0 ∧ Calm sb w' ∧ M w')

/-- **A call ends** within `n` blocks of the log and holds no lock. -/
def Ends (sb : Superblock) (n : Nat) (w : World) (M : World → Prop) (r : Int) (k' : Ks) : Prop :=
  ∃ w' B', B'.length ≤ n ∧ At sb w' [] B' k' ∧ Answers sb w M r w'

section Ends

variable {sb : Superblock} {w : World} {k : Ks} {n : Nat} {A : Halt → Prop} {M M' : World → Prop}

/-- `iunlockput(ip); return -1;`. -/
theorem quit_at {B : List Nat} {h : Handle} (hA : Wants A) (hw : Calm sb w) (hcl : w.Closed)
    (hk : At sb ((w.take h).lock h.slot) [h.slot] B k) (hn : B.length ≤ n) :
    ((do iunlockput h.slot
         pure (-1) : KM Int) k).Sat (Ends sb n w M) (Fails n A) := by
  refine (iunlockput_back_at (R := insert h.slot w.read) hA hcl hk (Set.subset_insert _ _)
    (hw.kept_taken (R := insert h.slot w.read) hk.sees) hn).bind fun _ k1 h1 => ?_
  exact ⟨w, B, hn, h1, Or.inl ⟨rfl, .refl w⟩⟩

/-- **The call as a transaction.** -/
theorem transaction_ends {m : KM Int} (hres : Resources A) (hk : Idle sb w k)
    (hm : ∀ k1, At sb w [] (bitmapBlocks sb) k1 → (m k1).Sat (Ends sb n w M) (Fails n A))
    (hM : ∀ w', M w' → M' w') :
    (transaction m k).Sat (fun r k' => ∃ w', Idle sb w' k' ∧ Answers sb w M' r w') fun e _ => A e := by
  refine transaction_idle hres hk fun k1 h1 => (hm k1 h1).imp fun r k2 hq => ?_
  obtain ⟨w', B', -, h2, hans⟩ := hq
  exact ⟨w', B', h2, fun k3 h3 => ⟨w', h3, hans.imp_right (And.imp_right (And.imp_right (hM w')))⟩⟩

end Ends

end Sysfile

end HaiOS
