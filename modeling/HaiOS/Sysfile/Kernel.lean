/-
  File:      HaiOS/Sysfile/Kernel.lean
  Subject:   THE INODE LAYER WITH ITS LOCKS (kernel/fs.c: ilock, iunlock, iput, iunlockput, dirlink;
             kernel/log.c: begin_op, end_op), as the system calls of kernel/sysfile.c use it.

  System calls run one after the other, so a lock is held by the running process or by nobody.

  * `Ks` -- the file system with the inode locks that are held; `Halt` -- a panic, or a sleep that
    nobody ends;
  * `At sb w L B k` -- inside a transaction: the state shows the world `w`, the slots `L` are locked
    and blocks of `B` are logged; `Idle` -- between the calls;
  * `Calm` -- what the calls keep; no reference that a call takes and drops frees an inode.
-/
import HaiOS.Dir.Logged
import HaiOS.Dir.Cache

namespace HaiOS.Sysfile

open Lib Function

/-! ## 1. Routines -/

/-- The file system, and the slots whose `lock` is held. -/
structure Ks where
  fs : Fs
  locked : List Nat

/-- A routine does not return. -/
inductive Halt where
  | panic (p : Panic)
  /-- a sleep that nobody ends -/
  | deadlock
  /-- a loop that does not end -/
  | spins
  deriving DecidableEq, Repr

/-- A kernel routine over the file system with its locks. -/
abbrev KM (α : Type) : Type := Routine Halt Ks α

/-- A routine that takes and drops no inode lock. -/
def lift {α : Type} (m : FsM α) : KM α := fun k =>
  match m k.fs with
  | .ok a s => .ok a { k with fs := s }
  | .fail p s => .fail (.panic p) { k with fs := s }

/-- `acquiresleep(&ip->lock)`. -/
def acquiresleep (ip : Nat) : KM Unit := fun k =>
  if ip ∈ k.locked then .fail .deadlock k else .ok () { k with locked := ip :: k.locked }

/-- `releasesleep(&ip->lock)`. -/
def releasesleep (ip : Nat) : KM Unit :=
  Routine.update fun k => { k with locked := k.locked.erase ip }

/-- Lock the given inode. Reads the inode from disk if necessary. -/
def ilock (ip : Nat) : KM Unit := do
  let x ← lift (inode ip)
  if x.ref < 1 then Routine.stop (.panic .ilock)
  else do
    acquiresleep ip
    lift (iload ip)

/-- Unlock the given inode. -/
def iunlock (ip : Nat) : KM Unit := do
  let k ← Routine.read
  if ip ∉ k.locked ∨ (k.fs.itable ip).ref < 1 then Routine.stop (.panic .iunlock)
  else releasesleep ip

/-- The first part of `iput`. -/
def ifreeLast (ip : Nat) : KM Unit := do
  let x ← lift (inode ip)
  if x.last then do
    acquiresleep ip
    lift (ifree ip)
    releasesleep ip
  else pure ()

/-- Drop a reference to an in-memory inode. -/
def iput (ip : Nat) : KM Unit := do
  ifreeLast ip
  lift (setInode ip Inode.drop)

/-- Common idiom: unlock, then put. -/
def iunlockput (ip : Nat) : KM Unit := do
  iunlock ip
  iput ip

/-- Write a new directory entry `(name, inum)` into the directory `dp`. -/
def dirlink (dp : Nat) (name : List UInt8) (inum : Nat) : KM Int := do
  let r ← lift (dirlookup dp name)
  match r with
  | some (ip, _) => do
    iput ip
    pure (-1)
  | none => lift (dirlinkNew dp name inum)

/-- `begin_op`; there is nobody to wait for. -/
def beginOp : KM Unit := do
  let begun ← lift HaiOS.beginOp
  if begun then pure () else Routine.stop .deadlock

/-- `begin_op(); ...; end_op();` -/
def transaction {α : Type} (m : KM α) : KM α := do
  beginOp
  let r ← m
  lift endOp
  pure r

/-! ## 2. States -/

/-- **Inside a transaction.** -/
structure At (sb : Superblock) (w : World) (L B : List Nat) (k : Ks) : Prop where
  scene : Scene sb w B k.fs
  locked : k.locked = L

/-- **Between the calls.** -/
structure Idle (sb : Superblock) (w : World) (k : Ks) : Prop where
  sees : Sees sb w k.fs
  locked : k.locked = []
  log : k.fs.log.outstanding = 0 ∧ k.fs.log.lh = []

/-- **A routine stops**: `A` allows it, and `n` blocks at most are logged. -/
structure Fails (n : Nat) (A : Halt → Prop) (e : Halt) (k : Ks) : Prop where
  allowed : A e
  honest : ∀ p, e = .panic p → Honest p k.fs
  logging : ∃ B, Logging B k.fs ∧ B.length ≤ n

/-- Want of buffers and of room in the log is allowed. -/
def Wants (A : Halt → Prop) : Prop := ∀ p, Wanting p → A (.panic p)

/-- Want of any resource is allowed. -/
def Resources (A : Halt → Prop) : Prop := ∀ p, resourcePanic p = true → A (.panic p)

theorem Resources.wants {A : Halt → Prop} (h : Resources A) : Wants A := fun p hp => h p hp.resource

section States

variable {sb : Superblock} {w : World} {L B B' : List Nat} {k : Ks} {n : Nat} {A : Halt → Prop}
  {h : Handle}

variable (hk : At sb w L B k)
include hk

theorem At.sees : Sees sb w k.fs := hk.scene.sees

theorem At.logging : Logging B k.fs := hk.scene.logging

theorem At.mono (hB : B ⊆ B') : At sb w L B' k := ⟨hk.scene.mono hB, hk.locked⟩

theorem At.seen {R : Set Nat} (hR : R ⊆ w.read) : At sb (w.seen R) L B k :=
  ⟨hk.scene.seen hR, hk.locked⟩

theorem At.stop {e : Halt} (he : A e) (hp : ∀ p, e = .panic p → ¬ Wanting p)
    (hn : B.length ≤ n) : Fails n A e k :=
  ⟨he, fun p h0 hw => absurd hw (hp p h0), B, hk.logging, hn⟩

end States

/-! ## 3. Rules -/

section Lift

variable {α : Type} {sb : Superblock} {w : World} {L B : List Nat} {k : Ks} {n : Nat}
  {A : Halt → Prop} {h : Handle} {name : List UInt8} {m : FsM α}

variable {Q : α → Fs → Prop}

/-- A routine of the file system leaves the locks alone. -/
theorem lift_sat {E : Panic → Fs → Prop} (h : (m k.fs).Sat Q E) :
    (lift m k).Sat (fun a k' => Q a k'.fs ∧ k'.locked = k.locked)
      fun e k' => ∃ p, e = .panic p ∧ E p k'.fs := by
  unfold lift
  cases hm : m k.fs with
  | ok a s =>
    rw [hm] at h
    exact ⟨h, rfl⟩
  | fail p s =>
    rw [hm] at h
    exact ⟨p, rfl, h⟩

/-- The failures of a routine of the file system. -/
theorem fails_of_stops {e : Halt}
    (h : ∃ p, e = .panic p ∧ Stops n (fun p => A (.panic p)) p k.fs) : Fails n A e k := by
  obtain ⟨p, rfl, hst⟩ := h
  refine ⟨hst.want, fun q hq => ?_, hst.logging⟩
  cases hq
  exact hst.honest

/-- **A rule of the file system is a rule here.** -/
theorem lift_at (h : (m k.fs).Sat Q (Stops n fun p => A (.panic p))) :
    (lift m k).Sat (fun a k' => Q a k'.fs ∧ k'.locked = k.locked) (Fails n A) :=
  (lift_sat h).mono (fun _ _ hq => hq) fun _ _ hp => fails_of_stops hp

theorem lift_inode_bind {β : Type} (ip : Nat) (f : Inode → KM β) :
    (lift (inode ip) >>= f) k = f (k.fs.itable ip) k := rfl

end Lift

section Rules

variable {sb : Superblock} {w : World} {L B : List Nat} {k : Ks} {n i : Nat}
  {A : Halt → Prop} {h : Handle} {name : List UInt8}

theorem iget_at (hk : At sb w L B k) (hi : i < sb.ninodes)
    (hfull : igetSlot k.fs.itable i = none → A (.panic .igetNoInodes)) (hn : B.length ≤ n) :
    (lift (iget i) k).Sat (fun ip k' => At sb (w.take ⟨ip, i⟩) L B k') (Fails n A) :=
  (lift_at (iget_scene hk.scene hi hfull hn)).imp fun _ _ hq => ⟨hq.1, hq.2.trans hk.locked⟩

theorem idup_at (hk : At sb w L B k) (hm : h ∈ w.held) :
    (lift (idup h.slot) k).Sat (fun ip k' => ip = h.slot ∧ At sb (w.take h) L B k') (Fails n A) :=
  (lift_at (idup_scene hk.scene hm)).imp fun _ _ hq => ⟨hq.1.1, hq.1.2, hq.2.trans hk.locked⟩

/-- The reading part of `ilock`. -/
theorem ilock_of_ref {ip : Nat} {s : Fs} (hr : 0 < (s.itable ip).ref) :
    HaiOS.ilock ip s = iload ip s := by
  simp only [HaiOS.ilock, inode, Routine.gets_bind]
  rw [if_neg (by omega)]

/-- **`ilock`**. -/
theorem ilock_at (hA : Wants A) (hk : At sb w L B k) (hm : h ∈ w.held)
    (ht : (w.dins h.inum).type = 0 → A (.panic .ilockNoType)) (hL : h.slot ∈ L → A .deadlock)
    (hn : B.length ≤ n) :
    (ilock h.slot k).Sat (fun _ k' => h.slot ∉ L ∧ At sb (w.lock h.slot) (h.slot :: L) B k')
      (Fails n A) := by
  have hr := hk.sees.ref_pos hm
  unfold ilock
  rw [lift_inode_bind, if_neg (by omega)]
  by_cases hin : h.slot ∈ L
  · have hstop : acquiresleep h.slot k = .fail .deadlock k := by
      unfold acquiresleep
      rw [hk.locked, if_pos hin]
    rw [Routine.bind_fail hstop]
    exact hk.stop (hL hin) (fun p h0 => by cases h0) hn
  · have hgo : acquiresleep h.slot k = .ok () { k with locked := h.slot :: k.locked } := by
      unfold acquiresleep
      rw [if_neg (by rw [hk.locked]; exact hin)]
    rw [Routine.bind_ok hgo]
    have hs := ilock_scene (P := fun p => A (.panic p)) hA hk.scene hm ht hn
    rw [ilock_of_ref hr] at hs
    refine (lift_at (k := { k with locked := h.slot :: k.locked }) hs).imp fun _ k' hq => ?_
    refine ⟨hin, hq.1, hq.2.trans ?_⟩
    rw [← hk.locked]

/-- **`iunlock`**. -/
theorem iunlock_at (hk : At sb w L B k) (hm : h ∈ w.held) (hL : h.slot ∈ L) :
    (iunlock h.slot k).Sat (fun _ k' => At sb w (L.erase h.slot) B k') (Fails n A) := by
  have hr := hk.sees.ref_pos hm
  unfold iunlock
  rw [Routine.read_bind, if_neg (by rw [hk.locked]; push Not; exact ⟨hL, by omega⟩)]
  exact ⟨hk.scene, by rw [← hk.locked]⟩

/-- `iput` takes the lock of an inode that it frees. -/
theorem iput_sat {ip : Nat} {Q : Fs → Prop} {E : Panic → Fs → Prop}
    (h : (HaiOS.iput ip k.fs).Sat (fun _ s => Q s) E)
    (hL : (k.fs.itable ip).last → ip ∉ k.locked) :
    (iput ip k).Sat (fun _ k' => Q k'.fs ∧ k'.locked = k.locked)
      fun e k' => ∃ p, e = .panic p ∧ E p k'.fs := by
  unfold iput ifreeLast
  unfold HaiOS.iput HaiOS.ifreeLast at h
  by_cases hl : (k.fs.itable ip).last
  · have hgo : acquiresleep ip k = .ok () { k with locked := ip :: k.locked } := by
      unfold acquiresleep
      rw [if_neg (hL hl)]
    rw [Routine.bind_run, lift_inode_bind, if_pos hl, Routine.bind_ok hgo]
    simp only [inode, Routine.bind_run, Routine.gets, if_pos hl] at h ⊢
    unfold lift
    cases hf : ifree ip k.fs with
    | ok a s =>
      rw [hf] at h
      exact ⟨h, List.erase_cons_head ..⟩
    | fail p s =>
      rw [hf] at h
      exact ⟨p, rfl, h⟩
  · rw [Routine.bind_run, lift_inode_bind, if_neg hl]
    simp only [inode, Routine.bind_run, Routine.gets, if_neg hl] at h ⊢
    exact ⟨h, rfl⟩

/-- **`iput`**. -/
theorem iput_at (hA : Wants A) (hk : At sb w L B k) (hm : h ∈ w.held)
    (hlast : w.Last h → h.slot ∈ w.read ∧ Covers sb B h.inum) (hL : w.Last h → h.slot ∉ L)
    (hn : B.length ≤ n) :
    (iput h.slot k).Sat (fun _ k' => At sb (w.put h) L B k') (Fails n A) := by
  refine (iput_sat (iput_scene (P := fun p => A (.panic p)) hA hk.scene hm hlast hn) fun hl => ?_).mono
    (fun _ _ hq => ⟨hq.1, hq.2.trans hk.locked⟩) fun _ _ hp => fails_of_stops hp
  rw [hk.locked]
  exact hL (hk.sees.last_of_memory hm hl)

/-- **A reference that was taken before is dropped.** -/
theorem iput_back_at {R : Set Nat} (hA : Wants A) (hw : w.Closed)
    (hk : At sb ((w.take h).seen R) L B k) (hR : w.read ⊆ R)
    (hkept : w.Kept h) (hn : B.length ≤ n) :
    (iput h.slot k).Sat (fun _ k' => At sb w L B k') (Fails n A) := by
  refine (iput_sat (iput_back_scene (P := fun p => A (.panic p)) hA hw hk.scene hR hkept hn)
    fun hl => ?_).mono (fun _ _ hq => ⟨hq.1, hq.2.trans hk.locked⟩) fun _ _ hp => fails_of_stops hp
  exact absurd hl (hkept.not_last hk.sees)

/-- **`dirlookup`**. -/
theorem dirlookup_at (hA : Wants A) (hk : At sb w L B k) (hd : OpenDir sb w h)
    (hfull : ∀ i off s1, scan name (dirents (w.files h.inum)) = some (i, off) → Sees sb w s1 →
      igetSlot s1.itable i = none → A (.panic .igetNoInodes)) (hn : B.length ≤ n) :
    (lift (dirlookup h.slot name) k).Sat (fun r k' =>
      match scan name (dirents (w.files h.inum)) with
      | none => r = none ∧ At sb w L B k'
      | some (i, off) => ∃ ip, r = some (ip, off) ∧ At sb (w.take ⟨ip, i⟩) L B k') (Fails n A) := by
  refine (lift_at (dirlookup_scene (P := fun p => A (.panic p)) hA hk.scene hd hfull hn)).imp
    fun r k' hq => ?_
  obtain ⟨hq, hlocked⟩ := hq
  cases hsc : scan name (dirents (w.files h.inum)) with
  | none =>
    rw [hsc] at hq
    exact ⟨hq.1, hq.2, hlocked.trans hk.locked⟩
  | some r =>
    rw [hsc] at hq
    obtain ⟨ip, hr, h'⟩ := hq
    exact ⟨ip, hr, h', hlocked.trans hk.locked⟩

theorem isdirempty_at (hA : Wants A) (hk : At sb w L B k) (hd : OpenDir sb w h) (hn : B.length ≤ n) :
    (lift (isdirempty h.slot) k).Sat (fun r k' =>
      (r = true ↔ ∀ e ∈ (dirents (w.files h.inum)).drop 2, e.live = false) ∧ At sb w L B k')
      (Fails n A) :=
  (lift_at (isdirempty_scene (P := fun p => A (.panic p)) hA hk.scene hd hn)).imp fun _ _ hq =>
    ⟨hq.1.1, hq.1.2, hq.2.trans hk.locked⟩

theorem amend_at {f : Dinode → Dinode} (hA : Wants A) (hf : Dinode.Amends f) (hk : At sb w L B k)
    (hm : h ∈ w.held) (hr : h.slot ∈ w.read) (hb : iblock sb h.inum ∈ B) (hn : B.length ≤ n) :
    (lift (amend h.slot f) k).Sat
      (fun _ k' => At sb (w.setDin h.inum (f (w.dins h.inum))) L B k') (Fails n A) :=
  (lift_at (amend_scene (P := fun p => A (.panic p)) hA hf hk.scene hm hr hb hn)).imp fun _ _ hq =>
    ⟨hq.1, hq.2.trans hk.locked⟩

theorem itrunc_at (hA : Wants A) (hk : At sb w L B k) (hm : h ∈ w.held) (hr : h.slot ∈ w.read)
    (hc : Covers sb B h.inum) (hn : B.length ≤ n) :
    (lift (itrunc h.slot) k).Sat
      (fun _ k' => At sb (w.setFile h.inum (w.dins h.inum).truncated []) L B k') (Fails n A) :=
  (lift_at (itrunc_scene (P := fun p => A (.panic p)) hA hk.scene hm hr hc hn)).imp fun _ _ hq =>
    ⟨hq.1, hq.2.trans hk.locked⟩

theorem ialloc_at {type : Int16} (hA : Resources A) (hk : At sb w L B k) (hn : B.length + 1 ≤ n) :
    (lift (ialloc type) k).Sat (fun r k' => match r with
      | none => At sb w L B k'
      | some ip => ∃ i, 1 ≤ i ∧ i < sb.ninodes ∧ (w.dins i).type = 0 ∧
          At sb ((w.take ⟨ip, i⟩).setDin i (Dinode.fresh type)) L (iblock sb i :: B) k')
      (Fails n A) := by
  refine (lift_at (ialloc_scene (P := fun p => A (.panic p)) hA hk.scene hn)).imp fun r k' hq => ?_
  obtain ⟨hq, hlocked⟩ := hq
  cases r with
  | none => exact ⟨hq, hlocked.trans hk.locked⟩
  | some ip =>
    obtain ⟨i, h1, h2, h0, h'⟩ := hq
    exact ⟨i, h1, h2, h0, h', hlocked.trans hk.locked⟩

/-- **`dirlink`**; an inode that is found keeps its links or its other references. -/
theorem dirlink_at {inum : Nat} (hA : Resources A) (hk : At sb w L B k) (hd : OpenDir sb w h)
    (hput : ∀ ip i off, scan name (dirents (w.files h.inum)) = some (i, off) →
      (∀ h' ∈ w.held, h'.inum = i → h' = ⟨ip, i⟩) → w.Kept ⟨ip, i⟩)
    (hc : Covers sb B h.inum) (hn : B.length + 1 ≤ n) :
    (dirlink h.slot name inum k).Sat (fun r k' => ∃ b,
      (r = -1 ∧ ∃ d', (w.dins h.inum).Resummed d' ∧ At sb (w.setDin h.inum d') L (b :: B) k') ∨
      (r = 0 ∧ scan name (dirents (w.files h.inum)) = none ∧ ∃ d' j, (w.dins h.inum).Linked d' ∧
        j ≤ (dirents (w.files h.inum)).length ∧
        (∀ e, (dirents (w.files h.inum))[j]? = some e → e.live = false) ∧
        At sb (w.setFile h.inum d'
          (overwrite (w.files h.inum) (DIRENT_SIZE * j) (newDirent name inum).bytes)) L (b :: B) k'))
      (Fails n A) := by
  refine (dirlookup_at hA.wants hk hd (fun _ _ _ _ _ _ => hA _ rfl) (by omega)).bind
    fun r k1 hq => ?_
  cases hsc : scan name (dirents (w.files h.inum)) with
  | some r' =>
    obtain ⟨i, off⟩ := r'
    rw [hsc] at hq
    obtain ⟨ip, rfl, h1⟩ := hq
    have hkept := hput ip i off hsc fun h' hm' hi =>
      h1.sees.eq_of_inum (Multiset.mem_cons_of_mem hm') (Multiset.mem_cons_self _ _) hi
    refine (iput_back_at (h := ⟨ip, i⟩) (R := w.read) hA.wants hk.sees.closed h1
      (fun _ hr => hr) hkept (by omega)).bind fun _ k2 h2 => ?_
    exact ⟨0, Or.inl ⟨rfl, _, .refl _, by
      rw [World.setDin_self]
      exact h2.mono (List.subset_cons_self _ _)⟩⟩
  | none =>
    rw [hsc] at hq
    obtain ⟨rfl, h1⟩ := hq
    refine (lift_at (dirlinkNew_scene (P := fun p => A (.panic p)) hA h1.scene hd hc hn)).imp
      fun r k2 hq2 => ?_
    obtain ⟨⟨b, ⟨hr, d', hsum, h2⟩ | ⟨hr, d', j, hlink, hj, hfree, h2⟩⟩, hlocked⟩ := hq2
    · exact ⟨b, Or.inl ⟨hr, d', hsum, h2, hlocked.trans h1.locked⟩⟩
    · exact ⟨b, Or.inr ⟨hr, rfl, d', j, hlink, hj, hfree, h2, hlocked.trans h1.locked⟩⟩

end Rules

/-! ## 4. Transactions -/

/-- The blocks of the bitmap. -/
def bitmapBlocks (sb : Superblock) : List Nat :=
  (List.range ((sb.size + BPB - 1) / BPB)).map (· + sb.bmapstart)

section Transactions

variable {α : Type} {sb : Superblock} {w : World} {B : List Nat} {k : Ks} {A : Halt → Prop}

theorem mem_bitmapBlocks {b : Nat} (hb : b < sb.size) : bblock sb b ∈ bitmapBlocks sb := by
  refine List.mem_map.mpr ⟨b / BPB, List.mem_range.mpr ?_, rfl⟩
  simp only [BPB, BSIZE]
  omega

/-- **The bitmap fits in one block.** -/
theorem length_bitmapBlocks (h : sb.size ≤ BPB) : (bitmapBlocks sb).length ≤ 1 := by
  unfold bitmapBlocks
  rw [List.length_map, List.length_range]
  simp only [BPB, BSIZE] at *
  omega

/-- **`begin_op`** opens a transaction that has logged nothing. -/
theorem beginOp_idle (hk : Idle sb w k) :
    ∃ k', beginOp k = .ok () k' ∧ k'.fs.log.lh = [] ∧ At sb w [] (bitmapBlocks sb) k' := by
  obtain ⟨hout, hlh⟩ := hk.log
  have hgo : k.fs.log.beginOp = some { k.fs.log with outstanding := 1 } := by
    unfold Log.beginOp
    rw [if_neg (by rw [hk.sees.ok.inv.idle]; decide), if_neg (by rw [hout, hlh]; decide), hout]
    rfl
  have hrun : HaiOS.beginOp k.fs = .ok true { k.fs with log := { k.fs.log with outstanding := 1 } } := by
    unfold HaiOS.beginOp
    rw [hgo]
  have hs := (beginOp_sees hk.sees).of_ok hrun
  refine ⟨{ k with fs := { k.fs with log := { k.fs.log with outstanding := 1 } } }, ?_, hlh,
    ⟨hs, rfl, ?_, ?_⟩, hk.locked⟩
  · unfold beginOp
    rw [Routine.bind_run]
    unfold lift
    rw [hrun]
    rfl
  · show k.fs.log.lh.Nodup
    rw [hlh]
    exact List.nodup_nil
  · show k.fs.log.lh ⊆ _
    rw [hlh]
    exact List.nil_subset _

/-- **`end_op`** commits. -/
theorem endOp_at (hA : Resources A) (hk : At sb w [] B k) :
    (lift endOp k).Sat (fun _ k' => Idle sb w k') fun e _ => A e := by
  have hs := (endOp_file (P := Resource) (fun _ _ hp => hp) hk.sees.ok).both
    (hk.sees.ok.inv.commits hk.logging.op)
  refine (lift_sat hs).mono (fun _ k' hq => ?_) fun e k' hp => ?_
  · obtain ⟨⟨⟨hview, hsame⟩, hc⟩, hlocked⟩ := hq
    refine ⟨hk.sees.of_same hsame hview.itable, hlocked.trans hk.locked, ?_⟩
    rw [hc.log]
    exact ⟨rfl, rfl⟩
  · obtain ⟨p, rfl, hp, -⟩ := hp
    exact hA p hp

/-- **A transaction**, by what its body does. -/
theorem transaction_idle {m : KM α} {Q : α → Ks → Prop} {n : Nat} (hA : Resources A)
    (hk : Idle sb w k)
    (hm : ∀ k1, At sb w [] (bitmapBlocks sb) k1 →
      (m k1).Sat (fun a k2 => ∃ w' B, At sb w' [] B k2 ∧ ∀ k3, Idle sb w' k3 → Q a k3)
        (Fails n A)) :
    (transaction m k).Sat Q fun e _ => A e := by
  obtain ⟨k1, hrun, -, h1⟩ := beginOp_idle hk
  unfold transaction
  rw [Routine.bind_ok hrun]
  refine ((hm k1 h1).mono (fun _ _ hq => hq) fun _ _ hp => hp.allowed).bind
    fun a k2 hq => ?_
  obtain ⟨w', B', h2, hQ⟩ := hq
  exact (endOp_at hA h2).bind fun _ k3 h3 => hQ k3 h3

end Transactions

/-! ## 5. Calm worlds -/

/-- **A tree at rest**, as the calls find it: directories consist of entries, an allocated inode
    without links is in use, and what is in use is allocated. They leave it so (`Rests.step`). -/
structure Calm (sb : Superblock) (w : World) : Prop where
  dirs : Cache.DirsOk sb.ninodes w.dins w.files
  steady : ∀ i, (w.dins i).type ≠ 0 → (w.dins i).nlink = 0 →
    ∃ h ∈ w.held, h.inum = i ∧ h.slot ∈ w.read
  used : ∀ h ∈ w.held, (w.dins h.inum).type ≠ 0
  rootIn : ROOTINO < sb.ninodes

section Calm

variable {sb : Superblock} {w : World} {L B : List Nat} {k : Ks} {n : Nat} {A : Halt → Prop}
  {h : Handle}

/-- No reference that a call takes and drops frees an inode. -/
theorem Calm.kept (hw : Calm sb w) (he : ∀ h' ∈ w.held, h'.inum = h.inum → h' = h) : w.Kept h := by
  by_cases ht : (w.dins h.inum).type = 0
  · exact Or.inr (Or.inr ht)
  by_cases h0 : (w.dins h.inum).nlink = 0
  · obtain ⟨h', hm', hi, -⟩ := hw.steady h.inum ht h0
    exact Or.inl (he h' hm' hi ▸ hm')
  · exact Or.inr (Or.inl h0)

theorem Calm.kept_taken {s : Fs} {R : Set Nat} (hw : Calm sb w) (hs : Sees sb ((w.take h).seen R) s) :
    w.Kept h :=
  hw.kept fun _ hm' hi => hs.eq_of_inum (Multiset.mem_cons_of_mem hm') (Multiset.mem_cons_self _ _) hi

/-- **`iunlockput`** of a reference that was taken before. -/
theorem iunlockput_back_at {R : Set Nat} (hA : Wants A) (hw : w.Closed)
    (hk : At sb ((w.take h).seen R) (h.slot :: L) B k) (hR : w.read ⊆ R)
    (hkept : w.Kept h) (hn : B.length ≤ n) :
    (iunlockput h.slot k).Sat (fun _ k' => At sb w L B k') (Fails n A) := by
  refine (iunlock_at hk (Multiset.mem_cons_self h w.held) List.mem_cons_self).bind
    fun _ k1 h1 => ?_
  rw [List.erase_cons_head] at h1
  exact iput_back_at hA hw h1 hR hkept hn

/-- An inode changes, and its links only while there is a reference to it. -/
theorem Calm.change {i : Nat} {d' : Dinode} {l : List UInt8} (hw : Calm sb w)
    (ht : d'.type = (w.dins i).type)
    (hl : d'.nlink = (w.dins i).nlink ∨ ∃ h ∈ w.held, h.inum = i ∧ h.slot ∈ w.read)
    (hd : Cache.DirsOk sb.ninodes (update w.dins i d') (update w.files i l)) :
    Calm sb (w.setFile i d' l) := by
  refine ⟨hd, fun j hj h0 => ?_, fun g hg => ?_, hw.rootIn⟩
  · change (update w.dins i d' j).type ≠ 0 at hj
    change (update w.dins i d' j).nlink = 0 at h0
    by_cases he : j = i
    · subst he
      rw [update_self] at hj h0
      exact hl.elim (fun hl => hw.steady j (ht ▸ hj) (hl ▸ h0)) id
    · rw [update_of_ne he] at hj h0
      exact hw.steady j hj h0
  · show (update w.dins i d' g.inum).type ≠ 0
    by_cases he : g.inum = i
    · rw [he, update_self, ht, ← he]
      exact hw.used g hg
    · rw [update_of_ne he]
      exact hw.used g hg

/-- The links of an inode change, while there is a reference to it. -/
theorem Calm.relink {d' : Dinode} (hw : Calm sb w) (hm : h ∈ w.held) (hr : h.slot ∈ w.read)
    (ht : d'.type = (w.dins h.inum).type) : Calm sb (w.setDin h.inum d') := by
  have hx := hw.change (l := w.files h.inum) ht (Or.inr ⟨h, hm, rfl, hr⟩)
    (by rw [update_eq_self]; exact hw.dirs.setDin fun hd => ht ▸ hd)
  unfold World.setFile at hx
  rwa [update_eq_self] at hx

/-- A locked inode is one more in use. -/
theorem Calm.lock (hw : Calm sb w) (ht : (w.dins h.inum).type ≠ 0) :
    Calm sb ((w.take h).lock h.slot) := by
  refine ⟨hw.dirs, fun i hi h0 => ?_, fun g hg => ?_, hw.rootIn⟩
  · obtain ⟨g, hg, he, hr⟩ := hw.steady i hi h0
    exact ⟨g, Multiset.mem_cons_of_mem hg, he, Set.mem_insert_of_mem _ hr⟩
  · rcases Multiset.mem_cons.mp hg with rfl | hg
    · exact ht
    · exact hw.used g hg

/-- A reference is dropped; the inode is free after the last one, when it has no links. -/
theorem Calm.put {s : Fs} (hw : Calm sb w) (hs : Sees sb w s) (hm : h ∈ w.held) : Calm sb (w.put h) := by
  have hstay : ∀ g ∈ w.held, g.slot ∈ w.read → (g = h → w.held.count h ≠ 1) →
      g ∈ w.held.erase h ∧ g.slot ∈ stillRead w.held w.read h := fun g hg hr hno => by
    by_cases e : g = h
    · subst e
      have h2 : g ∈ w.held.erase g := Multiset.count_pos.mp (by
        have h0 := Multiset.count_pos.mpr hg
        have h1 := hno rfl
        rw [Multiset.count_erase_self]
        omega)
      exact ⟨h2, hr, Or.inl h2⟩
    · exact ⟨(Multiset.mem_erase_of_ne e).mpr hg, hr, Or.inr fun es => e (hs.refs.eq_of_slot hg hm es)⟩
  unfold World.put
  split
  · rename_i hl
    have hd : ∀ i, i ≠ h.inum → ((w.drop h).setFile h.inum (w.dins h.inum).freed []).dins i = w.dins i :=
      fun i hi => update_of_ne hi _ _
    refine ⟨hw.dirs.update (fun h0 => by cases h0) (fun h0 => by cases h0), fun i hi h0 => ?_,
      fun g hg => ?_, hw.rootIn⟩
    · have hne : i ≠ h.inum := fun e => hi (by
        subst e
        show (update w.dins h.inum (w.dins h.inum).freed h.inum).type = 0
        rw [update_self]
        rfl)
      rw [hd i hne] at hi h0
      obtain ⟨g, hg, rfl, hr⟩ := hw.steady i hi h0
      obtain ⟨hg', hr'⟩ := hstay g hg hr fun e => absurd (congrArg Handle.inum e) hne
      exact ⟨g, hg', rfl, hr'⟩
    · have hg' := Multiset.mem_of_mem_erase hg
      rw [hd _ fun e => ?_]
      · exact hw.used g hg'
      · obtain rfl := hs.eq_of_inum hg' hm e
        have h1 := Multiset.count_pos.mpr hg
        rw [show ((w.drop g).setFile g.inum (w.dins g.inum).freed []).held = w.held.erase g from rfl,
          Multiset.count_erase_self, hl.1] at h1
        omega
  · rename_i hl
    refine ⟨hw.dirs, fun i hi h0 => ?_, fun g hg => hw.used g (Multiset.mem_of_mem_erase hg), hw.rootIn⟩
    obtain ⟨g, hg, rfl, hr⟩ := hw.steady i hi h0
    obtain ⟨hg', hr'⟩ := hstay g hg hr fun e h1 => hl ⟨h1, e ▸ h0⟩
    exact ⟨g, hg', rfl, hr'⟩

end Calm

end HaiOS.Sysfile
