/-
  File:      HaiOS/Sysfile/Budget.lean
  Subject:   NO OPERATION LOGS MORE THAN MAXOPBLOCKS BLOCKS (kernel/file.c: filewrite; kernel/sysfile.c:
             sys_open, sys_link, sys_unlink, sys_mkdir, sys_mknod; kernel/fs.c: iput, ireclaim).

  `log_write` keeps a block that is there already, so between `begin_op` and `end_op` the log has
  every block that was passed to it once.

  * `Body` -- the operations between `begin_op` and `end_op`; `blocksLogged` -- what a run has logged;
  * `log_budget` -- so all of them fit, the calls when the bitmap is one block.
-/
import HaiOS.Sysfile.Open
import HaiOS.Sysfile.Home

namespace HaiOS.Sysfile

open Lib

/-! ## 1. The operations -/

/-- `sys_open` inside the transaction; `room` says whether `filealloc` and `fdalloc` succeed. -/
def openBody (cwd : Nat) (path : List UInt8) (omode : UInt32) (room : Bool) : KM Unit := do
  let r ← openInode cwd path omode
  match r with
  | none => pure ()
  | some ip => openRest ip omode room

/-- `max` of `filewrite`, the bytes of one turn of its loop. -/
abbrev maxChunk : Nat := ((MAXOPBLOCKS - 1 - 1 - 2) / 2) * BSIZE

/-- A turn of the loop of `filewrite`. -/
def writeChunk (ip : Nat) (src : Src) (off n1 : UInt32) : KM Int32 := do
  ilock ip
  let r ← lift (writei ip src off n1)
  iunlock ip
  pure r

/-- A turn of the loop of `ireclaim`. -/
def reclaimBody (ip : Nat) : KM Unit := do
  ilock ip
  iunlock ip
  iput ip

/-- The calls with a path. -/
inductive Body where
  | openFile (path : List UInt8) (omode : UInt32) (room : Bool)
  | link (old new : List UInt8)
  | unlink (path : List UInt8)
  | mkdir (path : Option (List UInt8))
  | mknod (path : Option (List UInt8)) (major minor : Int16)

/-- What a call does between `begin_op` and `end_op`. -/
def Body.run (cwd : Nat) : Body → KM Unit
  | .openFile path omode room => openBody cwd path omode room
  | .link old new => do
    let _ ← Sysfile.link cwd old new
    pure ()
  | .unlink path => do
    let _ ← Sysfile.unlink cwd path
    pure ()
  | .mkdir path => do
    let _ ← make cwd path T_DIR 0 0
    pure ()
  | .mknod path major minor => do
    let _ ← make cwd path T_DEVICE major minor
    pure ()

/-- The number of blocks in the log when a run ends, by return or by a panic. -/
def blocksLogged {α : Type} (o : Outcome Halt Ks α) : Nat := o.last.fs.log.lh.length

/-! ## 2. What they log -/

section Logs

variable {α : Type} {sb : Superblock} {w : World} {B : List Nat} {k k1 : Ks} {n : Nat} {c h : Handle}

/-- The log has at most `n` blocks. -/
def Logged (n : Nat) (k : Ks) : Prop := ∃ B, Logging B k.fs ∧ B.length ≤ n

theorem At.logged {L : List Nat} (h : At sb w L B k) (hn : B.length ≤ n) : Logged n k :=
  ⟨B, h.logging, hn⟩

variable {o : Outcome Halt Ks α}

theorem blocksLogged_le (h : o.Sat (fun _ k => Logged n k) fun _ k => Logged n k) :
    blocksLogged o ≤ n := by
  cases o with
  | ok a k' =>
    obtain ⟨B, hl, hn⟩ := h
    exact hl.length_le.trans hn
  | fail e k' =>
    obtain ⟨B, hl, hn⟩ := h
    exact hl.length_le.trans hn

/-- What a rule says of the log. -/
theorem sat_logged {A : Halt → Prop} (h : o.Sat (fun _ k => Logged n k) (Fails n A)) :
    o.Sat (fun _ k => Logged n k) fun _ k => Logged n k :=
  h.mono (fun _ _ hq => hq) fun _ _ hp => hp.logging

theorem allows_all (w : World) (i : Nat) : Allows w i fun _ => True :=
  ⟨fun _ _ => trivial, Or.inr fun _ => trivial⟩

theorem wants_all : Wants fun _ => True := fun _ _ => trivial

theorem make_logs {path : Option (List UInt8)} {type major minor : Int16} (hw : Calm sb w)
    (hk : At sb w [] B k) (hc : c ∈ w.held) (hbit : ∀ b < sb.size, bblock sb b ∈ B) (ht : type ≠ 0)
    (hfile : type ≠ T_FILE) :
    ((do let _ ← make c.slot path type major minor
         pure () : KM Unit) k).Sat (fun _ k' => Logged (B.length + 5) k')
      (Fails (B.length + 5) fun _ => True) := by
  cases path with
  | none => exact hk.logged (Nat.le_add_right _ _)
  | some p =>
    refine (make_at (allows_all _ _) ht hfile hw hk hc hbit (Nat.le_refl _)).bind
      fun r k1 hq => ?_
    obtain ⟨w', B', hn, h1, -⟩ := hq
    exact h1.logged hn

/-- **The calls**: five blocks at most beside the bitmap. -/
theorem body_logs (hw : Calm sb w) (hk : At sb w [] B k) (hc : c ∈ w.held)
    (hbit : ∀ b < sb.size, bblock sb b ∈ B) (b : Body) :
    (b.run c.slot k).Sat (fun _ k' => Logged (B.length + 5) k') (Fails (B.length + 5) fun _ => True) := by
  have hA := allows_all w
  cases b with
  | openFile path omode room =>
    refine (openInode_at (hA _) hw hk hc hbit (Nat.le_refl _)).bind fun r k1 hq => ?_
    rcases hq with ⟨rfl, w', B', hn, -, h1⟩ | ⟨h, w', B', rfl, hn, hcov, ho, h1⟩
    · exact h1.logged hn
    · exact (openRest_at wants_all h1 ho.mem ho.read hcov hn).imp fun _ _ h2 => h2.logged hn
  | link old new =>
    refine (link_at (hA _) (hA _) (Or.inl fun _ => trivial) hw hk hc hbit (by omega)).bind
      fun r k1 hq => ?_
    obtain ⟨w', B', hn, h1, -⟩ := hq
    exact h1.logged hn
  | unlink path =>
    refine (unlink_at (hA _) hw hk hc hbit (by omega)).bind fun r k1 hq => ?_
    obtain ⟨w', B', hn, h1, -⟩ := hq
    exact h1.logged hn
  | mkdir path => exact make_logs hw hk hc hbit (by decide) (by decide)
  | mknod path major minor => exact make_logs hw hk hc hbit (by decide) (by decide)

/-- **`iput`** of any reference: the inode beside the bitmap. -/
theorem iput_logged (hk : At sb w [] B k) (hm : h ∈ w.held) (hbit : ∀ b < sb.size, bblock sb b ∈ B) :
    (iput h.slot k).Sat (fun _ k' => Logged (B.length + 1) k') fun _ k' => Logged (B.length + 1) k' := by
  have hcov : Covers sb (iblock sb h.inum :: B) h.inum :=
    ⟨List.mem_cons_self, fun b hb => List.mem_cons_of_mem _ (hbit b hb)⟩
  have hput := iput_logs (hk.scene.mono (List.subset_cons_self (iblock sb h.inum) B)) hm fun _ => hcov
  refine (iput_sat hput fun _ => by rw [hk.locked]; exact List.not_mem_nil).mono
    (fun _ k' hq => ⟨_, hq.1.1, Nat.le_refl _⟩) fun e k' hp => ?_
  obtain ⟨p, -, hl, -⟩ := hp
  exact ⟨_, hl, Nat.le_refl _⟩

/-- **A turn of `ireclaim`**: the same. -/
theorem reclaimBody_logs (hk : At sb w [] B k) (hm : h ∈ w.held) (hbit : ∀ b < sb.size, bblock sb b ∈ B) :
    (reclaimBody h.slot k).Sat (fun _ k' => Logged (B.length + 1) k')
      fun _ k' => Logged (B.length + 1) k' := by
  refine ((ilock_at (A := fun _ => True) wants_all hk hm (fun _ => trivial)
    (fun _ => trivial) (Nat.le_refl _)).mono (fun _ _ hq => hq)
    fun _ _ hp => hp.logging.imp fun _ hB => ⟨hB.1, hB.2.trans (Nat.le_succ _)⟩).bind fun _ k1 hq1 => ?_
  obtain ⟨-, h1⟩ := hq1
  refine ((iunlock_at (n := B.length + 1) (A := fun _ => True) h1 hm
    List.mem_cons_self).mono (fun _ _ hq => hq) fun _ _ hp => hp.logging).bind fun _ k2 h2 => ?_
  rw [List.erase_cons_head] at h2
  exact iput_logged h2 hm hbit

/-! ## 3. A piece of `filewrite` -/

theorem writei_refused {s : Fs} {ip : Nat} {src : Src} {off n : UInt32}
    (h : ¬ writeOk (s.itable ip).din off n) : writei ip src off n s = .ok (-1) s := by
  simp only [writei, inode, Routine.gets_bind]
  by_cases h1 : (s.itable ip).din.size < off ∨ off + n < off
  · rw [if_pos h1]
    rfl
  · rw [if_neg h1, if_pos (by by_contra h2; exact h ⟨h1, h2⟩)]
    rfl

/-- **Four data blocks, their bits, and the inode.** -/
theorem length_touched {s : Fs} {ip : Nat} {off n : UInt32} (hs : Sound (s.itable ip).din)
    (hok : writeOk (s.itable ip).din off n) (hn : n.toNat ≤ maxChunk) :
    (touched s ip off n).length ≤ 9 := by
  have hoff : off.toNat ≤ (s.itable ip).din.size.toNat :=
    UInt32.le_iff_toNat_le.mp (UInt32.not_lt.mp fun h => hok.1 (Or.inl h))
  have hlen := length_written (n := n) hs hoff
  unfold written at hlen
  unfold touched
  simp only [List.length_append, List.length_cons, List.length_map] at hlen ⊢
  simp only [maxChunk, MAXOPBLOCKS, BSIZE] at *
  omega

/-- A write logs no other block, whatever its source. -/
theorem writei_touched {s : Fs} {ip : Nat} {src : Src} {off n : UInt32} (h : FilesOk All s)
    (hl : Locked s ip) (hlog : Logging [] s) :
    (writei ip src off n s).Sat (fun _ s' => Logging (touched s ip off n) s')
      fun _ s' => Logging (touched s ip off n) s' := by
  have hok := h.inv.ok
  -- the data blocks are left out of account: a source that faults spoils their buffers
  have hmeta : FsOk (fun b => b < s.sb.dataStart) s :=
    ⟨hok.layout, fun _ hb => hb, hok.reserved, ⟨⟨hok.ready.cached.bufs, fun b _ => hok.ready.cached.clean b
      trivial⟩, hok.ready.nodup, hok.ready.len⟩⟩
  have hrun : (writei ip src off n s).Runs (Touch _ (writeFrame s ip off n)) (fun _ _ => True)
      s _ :=
    writei_runs (fun _ _ _ => trivial) hmeta (h.inv.holds hl) (h.sound_eq hl)
      (Or.inl fun b hb hlt => absurd hlt (Nat.not_lt.mpr hb)) (writeFrame_ok (h.sound_eq hl))
      List.mem_cons_self fun _ => trivial
  have hlog' : Logging (touched s ip off n) s := hlog.mono (List.nil_subset _)
  exact Outcome.Sat.mono hrun (fun _ _ hq => hlog'.touch hq.1 fun _ hc => hc)
    fun _ _ hp => hlog'.touch hp.1 fun _ hc => hc

theorem iunlock_logged (ip : Nat) (hk : Logged n k) :
    (iunlock ip k).Sat (fun _ k' => Logged n k') fun _ k' => Logged n k' := by
  unfold iunlock
  rw [Routine.read_bind]
  split <;> exact hk

/-- **A piece of `filewrite`** logs nine blocks at most. -/
theorem chunk_logs {src : Src} {off n1 : UInt32} (hk : At sb w [] [] k) (hm : h ∈ w.held)
    (hn : n1.toNat ≤ maxChunk) :
    (writeChunk h.slot src off n1 k).Sat (fun _ k' => Logged 9 k') fun _ k' => Logged 9 k' := by
  refine ((ilock_at (n := 9) (A := fun _ => True) wants_all hk hm (fun _ => trivial)
    (fun _ => trivial) (Nat.zero_le _)).mono (fun _ _ hq => hq) fun _ _ hp => hp.logging).bind fun _ k1 hq1 => ?_
  obtain ⟨-, h1⟩ := hq1
  have hl : Locked k1.fs h.slot := h1.sees.locked (Set.mem_insert _ _)
  have hwrite : (writei h.slot src off n1 k1.fs).Sat (fun _ s => ∃ B, Logging B s ∧ B.length ≤ 9)
      fun _ s => ∃ B, Logging B s ∧ B.length ≤ 9 := by
    by_cases hok : writeOk (k1.fs.itable h.slot).din off n1
    · have hlen := length_touched (h1.sees.ok.sound_eq hl) hok hn
      exact (writei_touched h1.sees.ok hl h1.logging).mono (fun _ _ hq => ⟨_, hq, hlen⟩)
        fun _ _ hp => ⟨_, hp, hlen⟩
    · rw [writei_refused hok]
      exact ⟨_, h1.logging, Nat.zero_le _⟩
  refine ((lift_sat hwrite).mono (fun _ _ hq => hq.1) fun e k' hp => ?_).bind fun r k2 h2 => ?_
  · obtain ⟨p, -, hp⟩ := hp
    exact hp
  · exact (iunlock_logged h.slot h2).bind fun _ k3 h3 => h3

/-! ## 4. The budget -/

/-- **The log budget.** For every state between the calls, and what `begin_op` makes of it: a piece of
    `filewrite`, with any source, offset, alignment and superblock, logs at most `MAXOPBLOCKS` blocks.
    When the bitmap is one block, so do the last `iput` of any inode, a turn of `ireclaim`, and
    `sys_open`, `sys_link`, `sys_unlink`, `sys_mkdir` and `sys_mknod` with any arguments. -/
theorem log_budget (hk : Idle sb w k) (hrun : beginOp k = .ok () k1) :
    (∀ h ∈ w.held, ∀ src off n1, n1.toNat ≤ maxChunk →
      blocksLogged (writeChunk h.slot src off n1 k1) ≤ MAXOPBLOCKS) ∧
    (sb.size ≤ BPB →
      (∀ h ∈ w.held, blocksLogged (iput h.slot k1) ≤ MAXOPBLOCKS ∧
        blocksLogged (reclaimBody h.slot k1) ≤ MAXOPBLOCKS) ∧
      (Calm sb w → ∀ c ∈ w.held, ∀ b : Body, blocksLogged (b.run c.slot k1) ≤ MAXOPBLOCKS)) := by
  obtain ⟨k', hrun', hlh, h1⟩ := beginOp_idle hk
  rw [hrun] at hrun'
  cases hrun'
  have hnil : At sb w [] [] k1 := ⟨⟨h1.sees, h1.logging.op, h1.logging.nodup, by rw [hlh]; exact List.nil_subset _⟩,
    h1.locked⟩
  have hbit : ∀ b < sb.size, bblock sb b ∈ bitmapBlocks sb := fun b hb => mem_bitmapBlocks hb
  refine ⟨fun h hm src off n1 hn => ?_, fun hsize => ?_⟩
  · exact (blocksLogged_le (chunk_logs hnil hm hn)).trans (by decide)
  · have hone := length_bitmapBlocks hsize
    refine ⟨fun h hm => ⟨?_, ?_⟩, fun hw c hc b => ?_⟩
    · have := blocksLogged_le (iput_logged h1 hm hbit)
      simp only [MAXOPBLOCKS]
      omega
    · have := blocksLogged_le (reclaimBody_logs h1 hm hbit)
      simp only [MAXOPBLOCKS]
      omega
    · have := blocksLogged_le (sat_logged (body_logs hw h1 hc hbit b))
      simp only [MAXOPBLOCKS]
      omega

end Logs

/-- A directory is made in an empty root: four blocks. -/
theorem log_budget_mkdir : ∃ k1, beginOp (Ks.boot smallSb homeDisk) = .ok () k1 ∧
    blocksLogged ((Body.mkdir (some [97])).run 0 k1) = 4 ∧
    ∀ b : Body, blocksLogged (b.run 0 k1) ≤ MAXOPBLOCKS := by
  have hval : (beginOp (Ks.boot smallSb homeDisk)).value = some () := by decide +kernel
  have hlog : blocksLogged ((Body.mkdir (some [97])).run 0 (beginOp (Ks.boot smallSb homeDisk)).last) = 4 := by
    decide +kernel
  have hbudget := log_budget usable_homeDisk.idle (Outcome.eq_ok hval)
  exact ⟨_, Outcome.eq_ok hval, hlog, (hbudget.2 (by decide)).2 usable_homeDisk.calm rootHandle
    (Multiset.mem_singleton_self _)⟩

end HaiOS.Sysfile
