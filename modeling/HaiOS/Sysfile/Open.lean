/-
  File:      HaiOS/Sysfile/Open.lean
  Subject:   `sys_open` (kernel/sysfile.c), as far as inodes go, as a change of the world.

  * `openInode`, `openRest` -- `sys_open` before and after the file is allocated;
  * `Opening` -- the world after `openInode`: an inode that is there, or a new file.
-/
import HaiOS.Sysfile.Create

namespace HaiOS.Sysfile

open Lib

/-! ## 1. The code -/

abbrev O_RDONLY : UInt32 := 0x000
abbrev O_CREATE : UInt32 := 0x200
abbrev O_TRUNC : UInt32 := 0x400

/-- `create(path, T_FILE, 0, 0)`, or `namei(path)` and the check of a directory. The inode is locked. -/
def openPath (cwd : Nat) (path : List UInt8) (omode : UInt32) : KM (Option Nat) :=
  if omode &&& O_CREATE ≠ 0 then create cwd path T_FILE 0 0
  else do
    let r ← namei cwd path
    match r with
    | none => pure none
    | some ip => do
      ilock ip
      let x ← lift (inode ip)
      if x.din.type = T_DIR ∧ omode ≠ O_RDONLY then do
        iunlockput ip
        pure none
      else pure (some ip)

/-- `ip->type == T_DEVICE && (ip->major < 0 || ip->major >= NDEV)`. -/
def BadDevice (d : Dinode) : Prop := d.type = T_DEVICE ∧ (d.major < 0 ∨ NDEV ≤ d.major.toInt)

instance (d : Dinode) : Decidable (BadDevice d) := inferInstanceAs (Decidable (_ ∧ _))

/-- `sys_open` up to `filealloc`. -/
def openInode (cwd : Nat) (path : List UInt8) (omode : UInt32) : KM (Option Nat) := do
  let r ← openPath cwd path omode
  match r with
  | none => pure none
  | some ip => do
    let x ← lift (inode ip)
    if BadDevice x.din then do
      iunlockput ip
      pure none
    else pure (some ip)

/-- `if((omode & O_TRUNC) && ip->type == T_FILE){ itrunc(ip); }` -/
def truncate (ip : Nat) (omode : UInt32) : KM Unit := do
  let x ← lift (inode ip)
  if omode &&& O_TRUNC ≠ 0 ∧ x.din.type = T_FILE then lift (itrunc ip) else pure ()

/-- `sys_open` from the file on, when there is one, and when `filealloc` or `fdalloc` fails. -/
def openRest (ip : Nat) (omode : UInt32) (room : Bool) : KM Unit :=
  if room then do
    truncate ip omode
    iunlock ip
  else iunlockput ip

/-! ## 2. Rules -/

/-- **The world after `openInode`**: the inode `h` that is there is locked, or it is new. -/
inductive Opening (sb : Superblock) (w : World) (cwd : Nat) (path : List UInt8) (h : Handle) :
    World → Prop where
  | found (hf : w.find (startInum cwd path) (components path) = some h.inum ∨
        Existing w cwd path T_FILE h.inum) (h0 : (w.dins h.inum).type ≠ 0) :
      Opening sb w cwd path h ((w.take h).lock h.slot)
  | made {g : Handle} {name : List UInt8} {d1 : Dinode} {l : List UInt8} {d2 : Dinode} {j : Nat}
      (hc : Creating sb w cwd path g h name T_FILE d1 l d2 j) :
      Opening sb w cwd path h (created w g h name T_FILE d1 l d2 j)

section Rules

variable {sb : Superblock} {w w' : World} {B : List Nat} {k : Ks} {n : Nat} {A : Halt → Prop}
  {c h : Handle} {path : List UInt8} {omode : UInt32}

theorem Opening.held (ho : Opening sb w c.inum path h w') : w'.held = h ::ₘ w.held := by
  cases ho with
  | found => rfl
  | made hc => exact created_held fun e => hc.apart (congrArg Handle.slot e)

theorem Opening.mem (ho : Opening sb w c.inum path h w') : h ∈ w'.held := by
  rw [ho.held]
  exact Multiset.mem_cons_self _ _

theorem Opening.read (ho : Opening sb w c.inum path h w') : h.slot ∈ w'.read := by
  cases ho with
  | found => exact Set.mem_insert _ _
  | made hc => exact created_read hc.apart

/-- `openInode` has an inode, and what it needs to be truncated or freed counts as logged. -/
def Opens (sb : Superblock) (w : World) (n cwd : Nat) (path : List UInt8) (r : Option Nat) (k : Ks) :
    Prop :=
  (r = none ∧ ∃ w' B', B'.length ≤ n ∧ Untouched w w' ∧ At sb w' [] B' k) ∨
  (∃ h w' B', r = some h.slot ∧ B'.length ≤ n ∧ Covers sb B' h.inum ∧ Opening sb w cwd path h w' ∧
    At sb w' [h.slot] B' k)

theorem openPath_at (hA : Allows w (startInum c.inum path) A) (hw : Calm sb w) (hk : At sb w [] B k)
    (hc : c ∈ w.held) (hbit : ∀ b < sb.size, bblock sb b ∈ B) (hn : B.length + 5 ≤ n) :
    (openPath c.slot path omode k).Sat (fun r k' => Opens sb w n c.inum path r k') (Fails n A) := by
  have hcov : ∀ i, Covers sb (iblock sb i :: B) i := fun i =>
    ⟨List.mem_cons_self, fun b hb => List.mem_cons_of_mem _ (hbit b hb)⟩
  have hlen : ∀ i, (iblock sb i :: B).length ≤ n := fun i => by
    rw [List.length_cons]
    omega
  unfold openPath
  by_cases hcr : omode &&& O_CREATE ≠ 0
  · rw [if_pos hcr]
    refine (create_at hA (by decide) hw hk hc hbit hn).imp fun r k1 hq => ?_
    rcases hq with ⟨w', B', hl, hr, hun, h1⟩ | ⟨ip, i, hr, hex, h1⟩ |
      ⟨B', hl, g, h, name, d1, l, d2, j, hr, hco, hcr, h1⟩
    · exact Or.inl ⟨hr, w', B', hl, hun, h1⟩
    · have h0 : (w.dins i).type ≠ 0 := by
        rcases hex.isType with ht | ht <;> rw [ht] <;> decide
      exact Or.inr ⟨⟨ip, i⟩, _, _, hr, hlen i, hcov i, .found (Or.inr hex) h0,
        h1.mono (List.subset_cons_self _ _)⟩
    · exact Or.inr ⟨h, _, B', hr, hl, hco, .made hcr, h1⟩
  · rw [if_neg hcr]
    have hAw := hA.resources.wants
    refine (namei_at hA hw hk hc (by omega)).bind fun r k1 hq => ?_
    rcases hq with ⟨rfl, h1⟩ | ⟨ip, i, rfl, hfind, h1⟩
    · exact Or.inl ⟨rfl, w, B, by omega, .refl w, h1⟩
    refine (ilock_at (h := ⟨ip, i⟩) hAw h1 (Multiset.mem_cons_self _ _)
      (fun h0 => (hA.find hfind).noType h0) (fun hin => by cases hin) (by omega)).bind fun _ k2 hq2 => ?_
    obtain ⟨-, h2⟩ := hq2
    have h0 : (w.dins i).type ≠ 0 := h2.sees.type_ne_zero (h := ⟨ip, i⟩) (Multiset.mem_cons_self _ _)
      (Set.mem_insert _ _)
    rw [lift_inode_bind]
    split
    · refine (iunlockput_back_at (h := ⟨ip, i⟩) (R := insert ip w.read) hAw
        hk.sees.closed h2 (Set.subset_insert _ _) (hw.kept_taken (R := insert ip w.read) h2.sees)
        (by omega)).bind fun _ k3 h3 => ?_
      exact Or.inl ⟨rfl, w, B, by omega, .refl w, h3⟩
    · exact Or.inr ⟨⟨ip, i⟩, _, _, rfl, hlen i, hcov i, .found (Or.inl hfind) h0,
        h2.mono (List.subset_cons_self _ _)⟩

/-- **`sys_open` up to `filealloc`.** -/
theorem openInode_at (hA : Allows w (startInum c.inum path) A) (hw : Calm sb w) (hk : At sb w [] B k)
    (hc : c ∈ w.held) (hbit : ∀ b < sb.size, bblock sb b ∈ B) (hn : B.length + 5 ≤ n) :
    (openInode c.slot path omode k).Sat (fun r k' => Opens sb w n c.inum path r k') (Fails n A) := by
  refine (openPath_at hA hw hk hc hbit hn).bind fun r k1 hq => ?_
  rcases hq with ⟨rfl, hno⟩ | ⟨h, w', B', rfl, hlen, hcov, ho, h1⟩
  · exact Or.inl ⟨rfl, hno⟩
  show ((lift (inode h.slot) >>= _) k1).Sat _ _
  rw [lift_inode_bind, h1.sees.din ho.mem ho.read]
  split
  · rename_i hbad
    cases ho with
    | found hf h0 =>
      refine (iunlockput_back_at (R := insert h.slot w.read) hA.resources.wants
        hk.sees.closed h1 (Set.subset_insert _ _)
        (hw.kept_taken (R := insert h.slot w.read) h1.sees) hlen).bind fun _ k2 h2 => ?_
      exact Or.inl ⟨rfl, w, B', hlen, .refl w, h2⟩
    | made hcr =>
      -- a new file is no device
      rw [created_din hcr.ne] at hbad
      exact absurd (hcr.isType.symm.trans hbad.1) (by decide)
  · exact Or.inr ⟨h, w', B', rfl, hlen, hcov, ho, h1⟩

/-- The world with the inode truncated, if the mode asks for it. -/
def truncated (w : World) (i : Nat) (omode : UInt32) : World :=
  if omode &&& O_TRUNC ≠ 0 ∧ (w.dins i).type = T_FILE then w.setFile i (w.dins i).truncated [] else w

theorem truncated_held (w : World) (i : Nat) (omode : UInt32) : (truncated w i omode).held = w.held := by
  unfold truncated
  split <;> rfl

/-- **`sys_open` from the file on**: the inode may be truncated, and is unlocked; or it is put. -/
theorem openRest_at {room : Bool} (hA : Wants A) (hk : At sb w [h.slot] B k) (hm : h ∈ w.held)
    (hr : h.slot ∈ w.read) (hcov : Covers sb B h.inum) (hn : B.length ≤ n) :
    (openRest h.slot omode room k).Sat (fun _ k' =>
      At sb (if room then truncated w h.inum omode else w.put h) [] B k') (Fails n A) := by
  cases room with
  | true =>
    have htr : (truncate h.slot omode k).Sat
        (fun _ k' => At sb (truncated w h.inum omode) [h.slot] B k') (Fails n A) := by
      unfold truncate truncated
      rw [lift_inode_bind, hk.sees.din hm hr]
      split
      · exact itrunc_at hA hk hm hr hcov hn
      · exact hk
    refine htr.bind fun _ k1 h1 => ?_
    refine (iunlock_at h1 (by rw [truncated_held]; exact hm) List.mem_cons_self).imp fun _ k2 h2 => ?_
    rwa [List.erase_cons_head] at h2
  | false =>
    refine (iunlockput_at hA hk hm List.mem_cons_self (fun _ => ⟨hr, hcov⟩)
      (fun _ => by rw [List.erase_cons_head]; exact List.not_mem_nil) hn).imp fun _ k1 h1 => ?_
    rwa [List.erase_cons_head] at h1

end Rules

end HaiOS.Sysfile
