/-
  File:      HaiOS/Dir/Reading.lean
  Subject:   READING NEVER ALLOCATES (kernel/fs.c: readi, verify_inode_checksum, inode_checksum,
             dirlookup; kernel/sysfile.c: isdirempty).

  `bmap` looks a block up and allocates it when the file does not have it, for readers too. A file
  always has the blocks of its size, so a reader meets the first case only.

  * `within k s` -- the state with `k` system calls in the transaction: a routine that does the
    same from each of them has not called `log_write`, which stops when `k` is 0;
  * `Untouched s s'` -- disk, log, bitmap and inodes are as before;
  * `reading_never_allocates` -- in every state reached, with copies failing anywhere.
-/
import HaiOS.Lib.Commute
import HaiOS.Dir.Lookup
import HaiOS.Fs.Arrays
import HaiOS.Fs.Blocks

namespace HaiOS.Reading

open Lib Function

/-! ## 1. Routines that do not call log_write -/

/-- The state with `k` system calls in the transaction. -/
def within (k : Nat) (s : Fs) : Fs := { s with log := { s.log with outstanding := k } }

/-- The state has the inode `d` in slot `ip`. -/
def Has (ip : Nat) (d : Dinode) (s : Fs) : Prop := (s.itable ip).din = d

section Commutes

variable {k ip : Nat} {d : Dinode}

theorem inode_commutes {α : Type} {f : Inode → FsM α}
    (hf : ∀ x, x.din = d → Commutes (within k) (Has ip d) (f x)) :
    Commutes (within k) (Has ip d) (inode ip >>= f) := by
  have hget : Commutes (within k) (Has ip d) (inode ip) := commutes_gets fun _ => rfl
  exact hget.bind_post (Q := fun x => x.din = d) (fun _ h => h) hf

theorem bread_commutes (b : Nat) : Commutes (within k) (Has ip d) (bread b) := by
  have hget : Commutes (within k) (Has ip d) (bget b) := by
    intro s h
    have he : (within k s).bcache = s.bcache := rfl
    simp only [bget, he]
    split
    · exact ⟨rfl, h⟩
    · split
      · exact ⟨rfl, h⟩
      · exact ⟨rfl, trivial⟩
  have hfill : Commutes (within k) (Has ip d) (fill b) := commutes_update (fun _ => rfl) fun _ h => h
  exact hget.bind fun _ => hfill.bind fun _ => commutes_gets fun _ => rfl

theorem brelse_commutes (b : Nat) : Commutes (within k) (Has ip d) (brelse b) :=
  commutes_update (fun _ => rfl) fun _ h => h

/-- `bmap` of a block the file has: it is looked up. -/
theorem bmap_commutes {bn : Nat} (h : bn < (blocksOf d.extents.1).length) :
    Commutes (within k) (Has ip d) (bmap ip bn) := by
  intro s hs
  have hat : (blocksOf (s.itable ip).din.extents.1)[bn]? = some (blocksOf d.extents.1)[bn] := by
    rw [show (s.itable ip).din = d from hs]
    exact List.getElem?_eq_getElem h
  have hat' : (blocksOf ((within k s).itable ip).din.extents.1)[bn]? =
      some (blocksOf d.extents.1)[bn] := hat
  rw [bmap_hit hat, bmap_hit hat']
  exact ⟨rfl, hs⟩

theorem checksumLoop_commutes (size blocks : Nat) {n bn : Nat}
    (hn : bn + n ≤ (blocksOf d.extents.1).length) (adler : UInt32) :
    Commutes (within k) (Has ip d) (checksumLoop ip size blocks n bn adler) := by
  induction n generalizing bn adler with
  | zero => exact commutes_pure _
  | succ n ih =>
    refine (bmap_commutes (by omega)).bind fun addr => commutes_ite (fun _ => commutes_pure _) fun _ => ?_
    exact (bread_commutes _).bind fun _ => (brelse_commutes _).bind fun _ => ih (by omega) _

theorem readiLoop_commutes (bad : Option Nat) {n fuel tot off : Nat} (out : List UInt8)
    (hcov : off + (n - tot) ≤ BSIZE * (blocksOf d.extents.1).length) :
    Commutes (within k) (Has ip d) (readiLoop ip bad n fuel tot off out) := by
  induction fuel generalizing tot off out with
  | zero => exact commutes_pure _
  | succ fuel ih =>
    refine commutes_ite (fun hlt => ?_) fun _ => commutes_pure _
    have hbn : off / BSIZE < (blocksOf d.extents.1).length :=
      Nat.div_lt_of_lt_mul (by omega)
    refine (bmap_commutes hbn).bind fun addr => commutes_ite (fun _ => commutes_pure _) fun _ => ?_
    refine (bread_commutes _).bind fun _ => (brelse_commutes _).bind fun _ =>
      commutes_ite (fun _ => commutes_pure _) fun _ => ih _ ?_
    have hm : min (n - tot) (BSIZE - off % BSIZE) ≤ n - tot := Nat.min_le_left ..
    generalize min (n - tot) (BSIZE - off % BSIZE) = m at hm ⊢
    omega

variable (hs : Sound d)
include hs

theorem inodeChecksum_commutes : Commutes (within k) (Has ip d) (inodeChecksum ip) := by
  refine inode_commutes fun x hx => commutes_ite (fun _ => ?_) fun _ => commutes_pure _
  have hcov := hs.covered
  have hb : checksumBlocks x.din.size = (d.size.toNat + BSIZE - 1) / BSIZE := by
    rw [hx]
    exact checksumBlocks_eq hs.rounds
  refine checksumLoop_commutes _ _ ?_ _
  rw [hb]
  simp only [BSIZE] at hcov ⊢
  omega

theorem verifyInodeChecksum_commutes :
    Commutes (within k) (Has ip d) (verifyInodeChecksum ip) := by
  refine inode_commutes fun _ _ => commutes_ite (fun _ => ?_) fun _ => commutes_pure _
  refine (inodeChecksum_commutes hs).bind fun _ => inode_commutes fun _ _ =>
    commutes_ite (fun _ => commutes_pure _) fun _ => ?_
  exact commutes_update (fun _ => rfl) fun _ h => h

theorem readi_commutes (bad : Option Nat) (off n : UInt32) :
    Commutes (within k) (Has ip d) (readi ip bad off n) := by
  refine inode_commutes fun x hx => commutes_ite (fun _ => commutes_pure _) fun hc => ?_
  have hadd := readLen_add (fun h => hc (Or.inl h)) fun h => hc (Or.inr h)
  have hcov := hs.covered
  rw [hx] at hadd ⊢
  refine (readiLoop_commutes bad _ (by omega)).bind fun r => inode_commutes fun _ _ =>
    commutes_ite (fun _ => ?_) fun _ => commutes_pure _
  exact (verifyInodeChecksum_commutes hs).bind fun _ => commutes_pure _

end Commutes

/-! ## 2. Routines that only read -/

/-- **Disk, log, bitmap and inodes are as before.** A directory cache may be built, and a slot may
    take a reference. -/
structure Untouched (s s' : Fs) : Prop where
  disk : s'.disk = s.disk
  writes : s'.writes = s.writes
  log : s'.log = s.log
  bits : bits s' = bits s
  dinodes : dinodes s' = dinodes s
  din : ∀ ip, (s'.itable ip).din = (s.itable ip).din

theorem Untouched.refl (s : Fs) : Untouched s s := ⟨rfl, rfl, rfl, rfl, rfl, fun _ => rfl⟩

theorem Untouched.trans {s s' s'' : Fs} (h : Untouched s s') (h' : Untouched s' s'') :
    Untouched s s'' :=
  ⟨h'.disk.trans h.disk, h'.writes.trans h.writes, h'.log.trans h.log, h'.bits.trans h.bits,
    h'.dinodes.trans h.dinodes, fun ip => (h'.din ip).trans (h.din ip)⟩

variable {s s' : Fs}

theorem Untouched.of_touch {G : Nat → Prop} {F : Frame} (h : FilesOk G s) (ht : Touch G F s s')
    (hF : ∀ b, ¬ F.blocks b) (hdin : ∀ ip, (s'.itable ip).din = (s.itable ip).din) :
    Untouched s s' :=
  ⟨ht.disk, ht.writes, ht.log_eq hF, ht.bits_eq h.inv.ok.layout h.inv.ok.metaIn fun b _ _ => hF b,
    ht.dinodes_eq h.inv.ok.layout h.inv.ok.metaIn fun b _ _ => hF b, hdin⟩

/-- **`m` only reads**, from the state `s`: nothing changes, and it does not look at the
    transaction. What it returns meets `Q`, and its panics meet `P`. -/
def Reads {α : Type} (s : Fs) (m : FsM α) (Q : α → Fs → Prop) (P : Panic → Prop) : Prop :=
  (∀ k, m (within k s) = (m s).mapState (within k)) ∧
  (m s).Sat (fun a s' => Q a s' ∧ Untouched s s') fun p s' => P p ∧ Untouched s s'

theorem Reads.bind {α β : Type} {m : FsM α} {f : α → FsM β} {Q : α → Fs → Prop} {Q' : β → Fs → Prop}
    {P : Panic → Prop} (hm : Reads s m Q P) (hf : ∀ a s', Q a s' → Reads s' (f a) Q' P) :
    Reads s (m >>= f) Q' P := by
  obtain ⟨hk, hq⟩ := hm
  cases hrun : m s with
  | ok a s1 =>
    rw [hrun] at hq
    obtain ⟨hQ, hu⟩ := hq
    obtain ⟨hk2, hq2⟩ := hf a s1 hQ
    refine ⟨fun k => ?_, ?_⟩
    · rw [Routine.bind_ok hrun,
        Routine.bind_ok (show m (within k s) = .ok a (within k s1) by rw [hk, hrun]; rfl)]
      exact hk2 k
    · rw [Routine.bind_ok hrun]
      exact hq2.mono (fun _ _ h => ⟨h.1, hu.trans h.2⟩) fun _ _ h => ⟨h.1, hu.trans h.2⟩
  | fail p s1 =>
    rw [hrun] at hq
    refine ⟨fun k => ?_, ?_⟩
    · rw [Routine.bind_fail hrun]
      exact Routine.bind_fail (by rw [hk, hrun]; rfl)
    · rw [Routine.bind_fail hrun]
      exact hq

/-- `m` only reads, from any state in which inode `ip` is locked, and `ip` stays so. -/
def Quietly {α : Type} (G : Nat → Prop) (ip : Nat) (P : Panic → Prop) (m : FsM α) : Prop :=
  ∀ s, FilesOk G s → Locked s ip → Reads s m (fun _ s' => FilesOk G s' ∧ Locked s' ip) P

section Rules

variable {α β : Type} {G : Nat → Prop} {ip : Nat} {P : Panic → Prop}

theorem quietly_pure (a : α) : Quietly G ip P (pure a) := fun s h hl =>
  ⟨fun _ => rfl, ⟨h, hl⟩, .refl s⟩

theorem quietly_inode (jp : Nat) : Quietly G ip P (inode jp) := fun s h hl =>
  ⟨fun _ => rfl, ⟨h, hl⟩, .refl s⟩

theorem quietly_stop {p : Panic} (hp : P p) : Quietly (α := α) G ip P (Routine.stop p) :=
  fun s _ _ => ⟨fun _ => rfl, hp, .refl s⟩

theorem quietly_ite {c : Prop} [Decidable c] {m n : FsM α} (hm : Quietly G ip P m)
    (hn : Quietly G ip P n) : Quietly G ip P (if c then m else n) := by
  split
  · exact hm
  · exact hn

theorem Quietly.bind {m : FsM α} {f : α → FsM β} (hm : Quietly G ip P m)
    (hf : ∀ a, Quietly G ip P (f a)) : Quietly G ip P (m >>= f) := fun s h hl =>
  (hm s h hl).bind fun a s' hq => hf a s' hq.1 hq.2

/-- A routine whose frame has no block, that leaves the inode table. -/
theorem quietly_of_runs {m : FsM α} {F : Frame} (hF : ∀ b, ¬ F.blocks b) (hslots : ∀ i, ¬ F.slots i)
    (hk : ∀ k d, Sound d → Commutes (within k) (Has ip d) m)
    (hm : ∀ s, FilesOk G s → Locked s ip →
      (m s).Runs (Touch G F) (fun p _ => P p) s fun _ s' => Ready G s') : Quietly G ip P m := by
  intro s h hl
  have hu : ∀ s', Touch G F s s' → Untouched s s' := fun s' ht =>
    .of_touch h ht hF fun jp => by rw [ht.slots jp (hslots jp)]
  refine ⟨fun k => (hk k _ (h.sound_eq hl) s rfl).1, ?_⟩
  refine Outcome.Sat.mono (hm s h hl) (fun _ s' hq => ?_) fun p s' hp => ⟨hp.2, hu s' hp.1⟩
  obtain ⟨ht, hr⟩ := hq
  have hit : s'.itable = s.itable := ht.itable_eq hslots
  have hinv := h.inv.still ht hF hr (by rw [hit]; exact h.inv.slots)
  refine ⟨⟨(h.still ht hF hinv).ok, ?_⟩, hu s' ht⟩
  unfold Locked
  rw [hit]
  exact hl

end Rules

/-! ## 3. The readers -/

section Readers

variable {G : Nat → Prop} {ip : Nat} {P : Panic → Prop} (hb : P .bgetNoBuffers)
include hb

theorem starved_of_panic : ∀ p (s : Fs), Starved p s → (fun p (_ : Fs) => P p) p s :=
  fun _ _ h => by
    obtain ⟨rfl, -⟩ := h
    exact hb

theorem quietly_inodeChecksum : Quietly G ip P (inodeChecksum ip) :=
  quietly_of_runs (F := .nothing) (fun _ h => h) (fun _ h => h)
    (fun _ _ hs => inodeChecksum_commutes hs) fun _ h hl =>
    (inodeChecksum_runs (starved_of_panic hb) h.inv.ok (h.inv.holds hl) (h.sound_eq hl)).imp
      fun _ _ _ hq => hq.1

theorem quietly_verifyInodeChecksum : Quietly G ip P (verifyInodeChecksum ip) :=
  quietly_of_runs (F := .errors) (fun _ h => h) (fun _ h => h)
    (fun _ _ hs => verifyInodeChecksum_commutes hs) fun _ h hl =>
    (verifyInodeChecksum_runs (starved_of_panic hb) h.inv.ok (h.inv.holds hl) (h.sound_eq hl)).imp
      fun _ _ _ hq => hq.1

theorem quietly_readi (bad : Option Nat) (off n : UInt32) : Quietly G ip P (readi ip bad off n) :=
  quietly_of_runs (F := .errors) (fun _ h => h) (fun _ h => h)
    (fun _ _ hs => readi_commutes hs bad off n) fun _ h hl =>
    (readi_runs (starved_of_panic hb) h.inv.ok (h.inv.holds hl) (h.sound_eq hl)).imp
      fun _ _ _ hq => hq.1

omit hb in
theorem quietly_setCache (f : Dircache → Dircache) : Quietly G ip P (setCache ip f) := by
  intro s h hl
  have hset : (setInode ip (fun x => { x with cache := f x.cache }) s).Runs (Touch G (.slot ip))
      (fun _ _ => False) s _ := setInode_runs _
  obtain ⟨ht, hq⟩ := hset.of_ok rfl
  have hinv : FsInv G (s.setSlot ip { s.itable ip with cache := f (s.itable ip).cache }) :=
    h.inv.setSlot (h.inv.slots.same hl.1 rfl rfl rfl)
  have hat : ∀ jp, ((update s.itable ip { s.itable ip with cache := f (s.itable ip).cache }) jp).din =
      (s.itable jp).din := fun jp => by
    by_cases hj : jp = ip
    · subst hj
      rw [update_self]
    · rw [update_of_ne hj]
  refine ⟨fun _ => rfl, ⟨(h.still ht (fun _ hf => hf) hinv).ok, ?_⟩, .of_touch h ht (fun _ hf => hf) hat⟩
  show 0 < (update s.itable ip _ ip).ref ∧ (update s.itable ip _ ip).valid = true
  rw [update_self]
  exact hl

theorem quietly_readDirent {p : Panic} (hp : P p) (off : Nat) : Quietly G ip P (readDirent p ip off) :=
  (quietly_readi hb _ _ _).bind fun _ => quietly_ite (quietly_pure _) (quietly_stop hp)

theorem quietly_isdiremptyLoop (hp : P .isdiremptyReadi) (fuel off : Nat) :
    Quietly G ip P (isdiremptyLoop ip fuel off) := by
  induction fuel generalizing off with
  | zero => exact quietly_pure _
  | succ fuel ih =>
    refine (quietly_inode ip).bind fun x => quietly_ite ?_ (quietly_pure _)
    exact (quietly_readDirent hb hp off).bind fun de => quietly_ite (quietly_pure _) (ih _)

theorem quietly_isdirempty (hp : P .isdiremptyReadi) : Quietly G ip P (isdirempty ip) :=
  (quietly_inode ip).bind fun _ => quietly_isdiremptyLoop hb hp _ _

theorem quietly_dircacheLoop (hp : P .dircacheRebuildRead) (fuel off : Nat) :
    Quietly G ip P (dircacheLoop ip fuel off) := by
  induction fuel generalizing off with
  | zero => exact quietly_pure _
  | succ fuel ih =>
    refine (quietly_inode ip).bind fun x => quietly_ite (quietly_ite (quietly_setCache _) ?_)
      (quietly_pure _)
    refine (quietly_readDirent hb hp off).bind fun de => quietly_ite (ih _) ?_
    exact (quietly_setCache _).bind fun _ => ih _

theorem quietly_dircacheRetry (hp : P .dircacheRebuildRead) (name : List UInt8) :
    Quietly G ip P (dircacheRetry ip name) := by
  have hrebuild : Quietly G ip P (dircacheRebuild ip) :=
    (quietly_inode ip).bind fun _ => (quietly_setCache _).bind fun _ =>
      (quietly_dircacheLoop hb hp _ _).bind fun _ => quietly_setCache _
  exact hrebuild.bind fun _ => (quietly_inode ip).bind fun _ => quietly_pure _

theorem quietly_dircacheLookup (hp : P .dircacheRebuildRead) (name : List UInt8) :
    Quietly G ip P (dircacheLookup ip name) := by
  refine (quietly_inode ip).bind fun x => quietly_ite ?_ (quietly_dircacheRetry hb hp name)
  cases x.cache.find name with
  | some r => exact quietly_pure _
  | none => exact quietly_ite (quietly_dircacheRetry hb hp name) (quietly_pure _)

theorem quietly_dirlookupLoop (hp : P .dirlookupRead) (name : List UInt8) (fuel off : Nat) :
    Quietly G ip P (dirlookupLoop ip name fuel off) := by
  induction fuel generalizing off with
  | zero => exact quietly_pure _
  | succ fuel ih =>
    refine (quietly_inode ip).bind fun x => quietly_ite ?_ (quietly_pure _)
    exact (quietly_readDirent hb hp off).bind fun de =>
      quietly_ite (ih _) (quietly_ite (quietly_pure _) (ih _))

theorem quietly_dirfind (hp : P .dircacheRebuildRead) (hp' : P .dirlookupRead) (name : List UInt8) :
    Quietly G ip P (dirfind ip name) := by
  refine (quietly_dircacheLookup hb hp name).bind fun r => ?_
  cases r with
  | some r => exact quietly_pure _
  | none => exact (quietly_inode ip).bind fun x => quietly_dirlookupLoop hb hp' name _ _

end Readers

/-- `iget` takes a slot of the table, but does not change the fields of an inode. -/
theorem iget_reads {G : Nat → Prop} {P : Panic → Prop} (h : FilesOk G s) (hp : P .igetNoInodes)
    (inum : Nat) : Reads s (iget inum) (fun _ _ => True) P := by
  have hruns : (iget inum s).Runs (Touch G ⟨fun _ => False, fun _ => True, False⟩)
      (fun p s' => P p ∧ s' = s) s _ := iget_runs (fun _ _ => trivial) fun _ => ⟨hp, rfl⟩
  have hdin : ∀ ip jp, ((update s.itable ip ((s.itable ip).got inum)) jp).din =
      (s.itable jp).din := fun ip jp => by
    by_cases hj : jp = ip
    · subst hj
      rw [update_self, Inode.got]
      split <;> rfl
    · rw [update_of_ne hj]
  refine ⟨fun k => ?_, ?_⟩
  · have he : (within k s).itable = s.itable := rfl
    simp only [iget, Routine.gets_bind, he]
    cases findSlot s.itable inum with
    | some ip => rfl
    | none =>
      cases emptySlot s.itable with
      | some ip => rfl
      | none => rfl
  · cases hrun : iget inum s with
    | ok ip s' =>
      obtain ⟨ht, -, rfl⟩ := hruns.of_ok hrun
      exact ⟨trivial, .of_touch h ht (fun _ hf => hf) (hdin ip)⟩
    | fail p s' =>
      obtain ⟨-, hpanic, rfl⟩ := hruns.of_fail hrun
      exact ⟨hpanic, .refl _⟩

/-! ## 4. Every reachable state -/

/-- The routines that read a locked inode. -/
inductive Reader where
  | readi (bad : Option Nat) (off n : UInt32)
  | verifyInodeChecksum
  | inodeChecksum
  | dirlookup (name : List UInt8)
  | isdirempty

def Reader.exec (ip : Nat) : Reader → FsM Unit
  | .readi bad off n => do
    let _ ← HaiOS.readi ip bad off n
    pure ()
  | .verifyInodeChecksum => do
    HaiOS.verifyInodeChecksum ip
    pure ()
  | .inodeChecksum => do
    let _ ← HaiOS.inodeChecksum ip
    pure ()
  | .dirlookup name => do
    let _ ← HaiOS.dirlookup ip name
    pure ()
  | .isdirempty => do
    let _ ← HaiOS.isdirempty ip
    pure ()

/-- The panics of the readers: no buffer or inode slot is left, or a directory is malformed. -/
def readPanic : Panic → Prop
  | .bgetNoBuffers | .dirlookupNotDir | .dircacheRebuildRead | .dirlookupRead | .isdiremptyReadi
  | .igetNoInodes => True
  | _ => False

section Exec

variable {G : Nat → Prop} {s : Fs} {ip : Nat}

theorem reads_pure {α : Type} (a : α) (s : Fs) {P : Panic → Prop} :
    Reads s (pure a) (fun _ _ => True) P :=
  ⟨fun _ => rfl, trivial, .refl s⟩

theorem dirlookup_reads (h : FilesOk G s) (hl : Locked s ip) (name : List UInt8) :
    Reads s (dirlookup ip name) (fun _ _ => True) readPanic := by
  refine (quietly_inode ip s h hl).bind fun x s1 hq => ?_
  split
  · exact ⟨fun _ => rfl, trivial, .refl s1⟩
  refine (quietly_dirfind trivial trivial trivial name s1 hq.1 hq.2).bind fun r s2 hq2 => ?_
  cases r with
  | none => exact reads_pure none s2
  | some r =>
    exact (iget_reads hq2.1 trivial r.1).bind fun ip s3 _ => reads_pure _ s3

theorem Reader.reads (h : FilesOk G s) (hl : Locked s ip) (r : Reader) :
    Reads s (r.exec ip) (fun _ _ => True) readPanic := by
  cases r with
  | readi bad off n =>
    exact (quietly_readi trivial bad off n s h hl).bind fun _ s' _ => reads_pure _ s'
  | verifyInodeChecksum =>
    exact (quietly_verifyInodeChecksum trivial s h hl).bind fun _ s' _ => reads_pure _ s'
  | inodeChecksum =>
    exact (quietly_inodeChecksum trivial s h hl).bind fun _ s' _ => reads_pure _ s'
  | dirlookup name => exact (dirlookup_reads h hl name).bind fun _ s' _ => reads_pure _ s'
  | isdirempty =>
    exact (quietly_isdirempty trivial trivial s h hl).bind fun _ s' _ => reads_pure _ s'

end Exec

/-- Copies may fail anywhere: then nothing is known of the data blocks. -/
theorem reach_sound {sb : Superblock} {disk : Nat → Block} (hi : Arrays.Image sb disk)
    {l : List Event} (hr : Trace Step (Fs.boot sb disk) l s) :
    FilesOk (Blocks.Meta sb) s ∧ s.sb = sb := by
  refine hr.invariant (I := fun s => FilesOk (Blocks.Meta sb) s ∧ s.sb = sb) (P := fun _ => True)
    (fun s e s' _ h hs => ?_) (fun _ _ => trivial) ⟨hi.boot fun b hb => hb, boot_sb ..⟩
  have hd := Arrays.step_did h.1 (Or.inl fun b hb hm => absurd hm (by
    rw [h.2] at hb
    omega)) hs
  exact ⟨hd.ok, hd.sb.trans h.2⟩

/-- **Reading never allocates.** In every state that is reached from a consistent image by any calls
    on any inodes, with copies that fail anywhere and the disk full or not: the blocks of every
    inode, on disk and in memory, cover its size; and a routine that reads a locked inode leaves
    disk, log, bitmap and inodes as they are, does the same whether it runs inside a transaction or
    not, and does not stop in `log_write`. -/
theorem reading_never_allocates {sb : Superblock} {disk : Nat → Block} (hi : Arrays.Image sb disk)
    {s0 : Fs} {l : List Event} (hr : Trace Step (Fs.boot sb disk) l s0) :
    (∀ i, (dinodes s0 i).type ≠ 0 → ((dinodes s0 i).size.toNat + BSIZE - 1) / BSIZE ≤
      (blocksOf (dinodes s0 i).extents.1).length) ∧
    ∀ ip s, ilock ip s0 = .ok () s →
      ((s.itable ip).din.size.toNat + BSIZE - 1) / BSIZE ≤
        (blocksOf (s.itable ip).din.extents.1).length ∧
      ∀ r : Reader, Reads s (r.exec ip) (fun _ _ => True) readPanic := by
  have hceil : ∀ d : Dinode, Sound d →
      (d.size.toNat + BSIZE - 1) / BSIZE ≤ (blocksOf d.extents.1).length := fun d hd => by
    have hcov := hd.covered
    simp only [BSIZE] at hcov ⊢
    omega
  obtain ⟨h0, -⟩ := reach_sound hi hr
  refine ⟨fun i hi => hceil _ (h0.sound i hi), fun ip s hlock => ?_⟩
  obtain ⟨-, hsame, hl, -⟩ := (ilock_file (P := fun _ _ => True) (fun _ _ _ => trivial) h0
    (fun _ => trivial) fun _ _ _ => trivial).of_ok hlock
  exact ⟨hceil _ (hsame.ok.sound_eq hl), fun r => r.reads hsame.ok hl⟩

/-- A write of which the second byte cannot be copied; then the file is read outside of any
    transaction. -/
theorem reading_never_allocates_short :
    ∃ l s0 s, Arrays.Image smallSb Arrays.fiveDisk ∧ Trace Step (Fs.boot smallSb Arrays.fiveDisk) l s0 ∧
      s0.log.outstanding = 0 ∧ ilock 0 s0 = .ok () s ∧
      Reads s ((Reader.readi none 0 9).exec 0) (fun _ _ => True) readPanic := by
  let src : Src := ⟨fun _ => 7, some 1⟩
  have hrun : (replay [.iget 1, .beginOp, .writei 0 src 5 2, .endOp]
      (Fs.boot smallSb Arrays.fiveDisk)).map (fun r =>
        decide (r.2.log.outstanding = 0 ∧ Locked r.2 0)) = some true := by decide +kernel
  obtain ⟨⟨as, s⟩, hr, hd⟩ := Option.map_eq_some_iff.mp hrun
  obtain ⟨hout, hl⟩ := of_decide_eq_true hd
  obtain ⟨l, htrace, -, -⟩ := replay_trace hr
  have hlock := ilock_valid hl
  exact ⟨l, s, s, Arrays.image_fiveDisk, htrace, hout, hlock,
    ((reading_never_allocates Arrays.image_fiveDisk htrace).2 0 s hlock).2 _⟩

end HaiOS.Reading
