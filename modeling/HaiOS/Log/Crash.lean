/-
  File:      HaiOS/Log/Crash.lean
  Subject:   CRASH ATOMICITY of the redo log (kernel/log.c).

  Block writes reach the disk one by one and in order. The power may fail after any of them: in
  a commit, and again in each recovery that follows, until one runs to its end.

  * `Call`, `Step` -- calls of `begin_op`, reads, logged writes and `end_op` in any order, and
    power failures during any of them; `Recovers` -- the recoveries after a failure;
  * `Contents` -- what the log is for: the contents that survive and the contents with the open
    transaction, driven by the same events. A failure keeps the open transaction exactly when
    the first `write_head` of its commit has reached the disk;
  * `recovered_commit` -- cut anywhere, the writes of a commit leave a disk that recovery maps
    to the contents before or to those after; `recovers_home` -- interrupted recoveries do not
    change what recovery leads to;
  * `crash_atomic` -- after every run the disk holds the surviving contents.
-/
import HaiOS.Lib.Machine
import HaiOS.Log.Commit

namespace HaiOS.Crash

open Lib Function

/-! ## 1. The machine -/

inductive Call where
  | beginOp
  /-- `bread`, `brelse` -/
  | read (b : Nat)
  /-- `bread`, assign to `bp->data`, `log_write`, `brelse` -/
  | write (b : Nat) (d : Block)
  | endOp

/-- The value is `false` when `begin_op` sleeps. -/
def Call.exec : Call → FsM Bool
  | .beginOp => HaiOS.beginOp
  | .read b => do
    let _ ← bread b
    brelse b
    pure true
  | .write b d => do
    let _ ← bread b
    logUpdate b d
    pure true
  | .endOp => do
    HaiOS.endOp
    pure true

/-- The block writes a run from `s` issues, whether it returns or panics. -/
def issued {α : Type} (s : Fs) (o : Outcome Panic Fs α) : List (Nat × Block) :=
  o.last.writes.drop s.writes.length

/-- **From the disk a failure left to the end of a recovery**, through any number of recoveries
    that fail after a part of their writes. -/
inductive Recovers (sb : Superblock) : (Nat → Block) → Fs → Prop where
  | again {disk : Nat → Block} {w : List (Nat × Block)} {s : Fs}
      (hw : w <+: issued (Fs.boot sb disk) (recoverFromLog (Fs.boot sb disk)))
      (h : Recovers sb (applyWrites disk w) s) : Recovers sb disk s
  | done {disk : Nat → Block} {s : Fs} (h : recoverFromLog (Fs.boot sb disk) = .ok () s) :
      Recovers sb disk s

inductive Event where
  /-- the call returned -/
  | returned (c : Call) (r : Bool)
  /-- the power failed during the call, when the writes `w` of it had reached the disk -/
  | crashed (c : Call) (w : List (Nat × Block))

inductive Step : Fs → Event → Fs → Prop where
  | returned {c : Call} {r : Bool} {s s' : Fs} (h : c.exec s = .ok r s') : Step s (.returned c r) s'
  | crashed {c : Call} {w : List (Nat × Block)} {s s' : Fs} (hw : w <+: issued s (c.exec s))
      (h : Recovers s.sb (applyWrites s.disk w) s') : Step s (.crashed c w) s'

/-- The logged block numbers lie outside the log region and fit the header's words. -/
def Event.Ok (sb : Superblock) : Event → Prop
  | .returned (.write b _) _ =>
    ¬ (sb.logstart ≤ b ∧ b ≤ sb.logstart + LOGBLOCKS) ∧ b < 2 ^ 32
  | _ => True

instance (sb : Superblock) : (e : Event) → Decidable (e.Ok sb)
  | .returned (.write _ _) _ => inferInstanceAs (Decidable (¬ _ ∧ _))
  | .returned .beginOp _ => isTrue trivial
  | .returned (.read _) _ => isTrue trivial
  | .returned .endOp _ => isTrue trivial
  | .crashed _ _ => isTrue trivial

/-! ## 2. What the log is for -/

/-- The contents of the blocks, abstractly. -/
structure Contents where
  /-- with all committed transactions -/
  done : Nat → Block
  /-- with the open transaction too -/
  pend : Nat → Block
  /-- system calls in the open transaction -/
  outstanding : Int

/-- Did a header write reach the disk? -/
def headReached (start : Nat) (w : List (Nat × Block)) : Bool := w.any fun x => x.1 == start

def Contents.next (start : Nat) (a : Contents) : Event → Contents
  | .returned .beginOp r => if r then { a with outstanding := a.outstanding + 1 } else a
  | .returned (.read _) _ => a
  | .returned (.write b d) _ => { a with pend := update a.pend b d }
  | .returned .endOp _ =>
    if a.outstanding = 1 then ⟨a.pend, a.pend, 0⟩
    else { a with outstanding := a.outstanding - 1 }
  | .crashed _ w =>
    let done := if headReached start w then a.pend else a.done
    ⟨done, done, 0⟩

/-! ## 3. Disks after a failure -/

theorem prefix_append_cases {α : Type} {w A B : List α} (h : w <+: A ++ B) :
    w <+: A ∨ ∃ v, w = A ++ v ∧ v <+: B := by
  rcases List.prefix_or_prefix_of_prefix h (List.prefix_append A B) with h1 | ⟨v, rfl⟩
  · exact Or.inl h1
  · exact Or.inr ⟨v, rfl, (List.prefix_append_right_inj A).mp h⟩

variable {start : Nat} {w : List (Nat × Block)}

theorem headReached_false (h : ∀ x ∈ w, x.1 ≠ start) :
    headReached start w = false := by
  simpa [headReached] using h

variable {disk : Nat → Block}

/-- With an empty header there is nothing to install. -/
theorem recovered_empty (h : getHead (disk start) = []) :
    recovered start disk = disk := by
  simp [recovered, h, installWrites]

/-- The home blocks after a recovery that is not interrupted. -/
theorem applyWrites_recoverWrites {c : Nat} (hc : ¬ (start ≤ c ∧ c ≤ start + LOGBLOCKS)) :
    applyWrites disk (recoverWrites start disk) c = recovered start disk c := by
  rw [recoverWrites, applyWrites_append, applyWrites_cons, applyWrites_nil,
    update_of_ne (fun e => hc ⟨by omega, by omega⟩)]
  rfl

theorem headOk_nil (start : Nat) : HeadOk start [] := ⟨List.nodup_nil, by simp, by simp⟩

section Commit

variable {s : Fs} {w : List (Nat × Block)}

theorem logWrites_region {v : Nat → Block} {x : Nat × Block} (hlen : s.log.lh.length ≤ LOGBLOCKS)
    (hx : x ∈ logWrites s.log.start v 0 s.log.lh) : s.log.region x.1 ∧ x.1 ≠ s.log.start := by
  obtain ⟨t, -, ht, e⟩ := logWrites_keys hx
  exact ⟨⟨by omega, by omega⟩, by omega⟩

/-- After the writes `w` the header is sound, and recovery leads to the contents `d`. -/
def Lands (s : Fs) (w : List (Nat × Block)) (d : Nat → Block) : Prop :=
  HeadOk s.log.start (getHead (applyWrites s.disk w s.log.start)) ∧
  ∀ c, ¬ s.log.region c → recovered s.log.start (applyWrites s.disk w) c = d c

/-- Cut in `write_log`: the header is still empty. -/
theorem recovered_writeLog (hhead : getHead (s.disk s.log.start) = [])
    (hlen : s.log.lh.length ≤ LOGBLOCKS) (hw : w <+: logWrites s.log.start (view s) 0 s.log.lh) :
    headReached s.log.start w = false ∧ Lands s w s.disk := by
  have hkeys : ∀ x ∈ w, s.log.region x.1 ∧ x.1 ≠ s.log.start := fun x hx =>
    logWrites_region hlen (hw.subset hx)
  have hsame : getHead (applyWrites s.disk w s.log.start) = [] := by
    rw [applyWrites_notMem fun x hx => (hkeys x hx).2, hhead]
  refine ⟨headReached_false fun x hx => (hkeys x hx).2, ?_, fun c hc => ?_⟩
  · rw [hsame]
    exact headOk_nil _
  · rw [recovered_empty hsame]
    exact applyWrites_notMem fun x hx e => hc (e ▸ (hkeys x hx).1)

variable {u : List (Nat × Block)}

/-- The disk once the header is written: the log holds the new contents of the logged blocks. -/
theorem applyWrites_header (head : Block) (hok : HeadOk s.log.start s.log.lh)
    (hu : ∀ x ∈ u, x.1 ∈ s.log.lh) :
    applyWrites s.disk (logWrites s.log.start (view s) 0 s.log.lh ++ (s.log.start, head) :: u)
      s.log.start = head ∧
    installWrites s.log.start (applyWrites s.disk
      (logWrites s.log.start (view s) 0 s.log.lh ++ (s.log.start, head) :: u)) 0 s.log.lh =
      s.log.lh.map fun b => (b, view s b) := by
  have hlen := hok.len
  have hhome : ∀ c, s.log.region c → ∀ x ∈ u, x.1 ≠ c := fun c hc x hx e =>
    hok.home _ (hu x hx) (e ▸ hc)
  rw [applyWrites_append, applyWrites_cons]
  refine ⟨?_, installWrites_eq fun i hi => ?_⟩
  · rw [applyWrites_notMem (hhome _ ⟨le_refl _, by omega⟩), update_self]
  · rw [applyWrites_notMem (hhome _ ⟨by omega, by omega⟩), update_of_ne (by omega)]
    exact applyWrites_logWrites _ _ _ _ hi

/-- A home block that is not logged stays as it is on the disk up to the last header write. -/
theorem applyWrites_other {head : Block} (hok : HeadOk s.log.start s.log.lh)
    (hu : ∀ x ∈ u, x.1 ∈ s.log.lh) {c : Nat} (hc : ¬ s.log.region c) (hm : c ∉ s.log.lh) :
    applyWrites s.disk (logWrites s.log.start (view s) 0 s.log.lh ++ (s.log.start, head) :: u) c =
      s.disk c := by
  refine applyWrites_notMem fun x hx e => ?_
  rcases List.mem_append.mp hx with hx | hx
  · exact hc (e ▸ (logWrites_region hok.len hx).1)
  · rcases List.mem_cons.mp hx with rfl | hx
    · exact hc ⟨le_of_eq e, by rw [← e]; omega⟩
    · exact hm (e ▸ hu x hx)

/-- Cut in `install_trans`: recovery installs what the log holds. -/
theorem recovered_install (hok : HeadOk s.log.start s.log.lh) (hlt : ∀ b ∈ s.log.lh, b < 2 ^ 32)
    (hclean : ∀ b, b ∉ s.log.lh → view s b = s.disk b) (hu : ∀ x ∈ u, x.1 ∈ s.log.lh) (blk : Block)
    (hw : w = logWrites s.log.start (view s) 0 s.log.lh ++ (s.log.start, putHead blk s.log.lh) :: u) :
    Lands s w (view s) := by
  have hlen : s.log.lh.length < 2 ^ 32 := lt_of_le_of_lt hok.len (by decide)
  have hread := getHead_putHead blk hlen hlt
  obtain ⟨h1, h2⟩ := applyWrites_header (putHead blk s.log.lh) hok hu
  rw [← hw] at h1 h2
  rw [Lands, h1, hread]
  refine ⟨hok, fun c hc => ?_⟩
  unfold recovered
  rw [h1, hread, h2, applyWrites_map]
  split
  · rfl
  · rename_i hm
    rw [hw, applyWrites_other hok hu hc hm, hclean c hm]

/-- After the last header write: all is installed and the header is empty. -/
theorem recovered_erased (hok : HeadOk s.log.start s.log.lh)
    (hclean : ∀ b, b ∉ s.log.lh → view s b = s.disk b) (head blk : Block)
    (hw : w = logWrites s.log.start (view s) 0 s.log.lh ++ (s.log.start, head) ::
      (s.log.lh.map (fun b => (b, view s b)) ++ [(s.log.start, putHead blk [])])) :
    Lands s w (view s) := by
  have hsplit : applyWrites s.disk w = update (applyWrites s.disk
      (logWrites s.log.start (view s) 0 s.log.lh ++ (s.log.start, head) ::
        s.log.lh.map fun b => (b, view s b))) s.log.start (putHead blk []) := by
    rw [hw, ← List.cons_append, ← List.append_assoc, applyWrites_append]
    rfl
  have hstart : getHead (applyWrites s.disk w s.log.start) = [] := by
    rw [hw, ← List.cons_append, ← List.append_assoc]
    exact getHead_erased ..
  refine ⟨by rw [hstart]; exact headOk_nil _, fun c hc => ?_⟩
  have hcs : c ≠ s.log.start := fun e => hc ⟨by omega, by omega⟩
  rw [recovered_empty hstart, hsplit, update_of_ne hcs]
  by_cases hm : c ∈ s.log.lh
  · rw [applyWrites_append, applyWrites_cons, applyWrites_map, if_pos hm]
  · rw [applyWrites_other hok (fun x hx => ?_) hc hm, hclean c hm]
    obtain ⟨b, hb, rfl⟩ := List.mem_map.mp hx
    exact hb

/-- **A commit cut after any of its writes.** Recovery then leads to the contents before it, or
    to those after it when a header write has reached the disk. -/
theorem recovered_commit (hhead : getHead (s.disk s.log.start) = [])
    (hok : HeadOk s.log.start s.log.lh) (hlt : ∀ b ∈ s.log.lh, b < 2 ^ 32)
    (hclean : ∀ b, b ∉ s.log.lh → view s b = s.disk b) (hw : w <+: commitWrites s) :
    Lands s w (if headReached s.log.start w then view s else s.disk) := by
  have before : w <+: logWrites s.log.start (view s) 0 s.log.lh →
      Lands s w (if headReached s.log.start w then view s else s.disk) := fun hpre => by
    obtain ⟨hnot, hlands⟩ := recovered_writeLog hhead hok.len hpre
    rwa [hnot, if_neg Bool.false_ne_true]
  unfold commitWrites at hw
  by_cases hnil : s.log.lh = []
  · rw [if_pos hnil] at hw
    exact before (by rw [List.prefix_nil.mp hw]; exact List.nil_prefix)
  rw [if_neg hnil] at hw
  rcases prefix_append_cases hw with hpre | ⟨v, rfl, hv⟩
  · exact before hpre
  rcases List.prefix_cons_iff.mp hv with rfl | ⟨u, rfl, hu⟩
  · exact before (by simp)
  -- from here on the header has reached the disk
  rw [show headReached s.log.start _ = true by simp [headReached]]
  simp only [if_true]
  rcases prefix_append_cases hu with hpre | ⟨u', rfl, hu'⟩
  · refine recovered_install hok hlt hclean (fun x hx => ?_) _ rfl
    obtain ⟨b, hb, rfl⟩ := List.mem_map.mp (hpre.subset hx)
    exact hb
  · rcases List.prefix_cons_iff.mp hu' with rfl | ⟨u'', rfl, hu''⟩
    · refine recovered_install hok hlt hclean (fun x hx => ?_) _ rfl
      rw [List.append_nil] at hx
      obtain ⟨b, hb, rfl⟩ := List.mem_map.mp hx
      exact hb
    · rw [List.prefix_nil.mp hu'']
      exact recovered_erased hok hclean _ _ rfl

end Commit

/-! ## 4. Interrupted recoveries -/

theorem issued_of_issues {α : Type} {E : Prop} {W : List (Nat × Block)} {s : Fs}
    {o : Outcome Panic Fs α} {Q : α → Fs → Prop} (h : Issues E W s o Q) : issued s o <+: W := by
  have hdrop : ∀ {s' : Fs} {w : List (Nat × Block)}, Emits s w s' →
      s'.writes.drop s.writes.length = w := by
    rintro s' w ⟨bc, lh, rfl⟩
    simp
  cases o with
  | ok a s' =>
    obtain rfl : issued s (Outcome.ok a s' : Outcome Panic Fs α) = W := hdrop h.1
    exact List.prefix_refl _
  | fail p s' =>
    obtain ⟨-, w, hw, he⟩ := h
    have e : issued s (Outcome.fail p s' : Outcome Panic Fs α) = w := hdrop he
    rw [e]
    exact hw

/-- The disk of a recovery cut after any of its writes leads to the same contents. -/
theorem recovered_again (hok : HeadOk start (getHead (disk start)))
    (hw : w <+: recoverWrites start disk) :
    HeadOk start (getHead (applyWrites disk w start)) ∧
    ∀ c, ¬ (start ≤ c ∧ c ≤ start + LOGBLOCKS) →
      recovered start (applyWrites disk w) c = recovered start disk c := by
  have cut : w <+: installWrites start disk 0 (getHead (disk start)) →
      HeadOk start (getHead (applyWrites disk w start)) ∧
      ∀ c, ¬ (start ≤ c ∧ c ≤ start + LOGBLOCKS) →
        recovered start (applyWrites disk w) c = recovered start disk c := by
    intro hpre
    have hlen := hok.len
    -- the installs so far do not touch the log region
    have hkeys : ∀ x ∈ w, ¬ (start ≤ x.1 ∧ x.1 ≤ start + LOGBLOCKS) := fun x hx =>
      hok.home _ (installWrites_keys (hpre.subset hx))
    have hstart : applyWrites disk w start = disk start :=
      applyWrites_notMem fun x hx e => hkeys x hx ⟨by omega, by omega⟩
    have hinst : installWrites start (applyWrites disk w) 0 (getHead (disk start)) =
        installWrites start disk 0 (getHead (disk start)) :=
      installWrites_congr fun t _ ht =>
        applyWrites_notMem fun x hx e => hkeys x hx ⟨by omega, by omega⟩
    rw [hstart]
    refine ⟨hok, fun c _ => ?_⟩
    unfold recovered
    rw [hstart, hinst]
    exact applyWrites_congr fun hn => applyWrites_notMem fun x hx => hn x (hpre.subset hx)
  rcases prefix_append_cases hw with hpre | ⟨u, rfl, hu⟩
  · exact cut hpre
  rcases List.prefix_cons_iff.mp hu with rfl | ⟨u', rfl, hu'⟩
  · exact cut (by simp)
  -- the empty header has reached the disk
  rw [List.prefix_nil.mp hu']
  have hstart := getHead_erased disk (installWrites start disk 0 (getHead (disk start))) start
    (disk start)
  rw [hstart]
  refine ⟨headOk_nil _, fun c hc => ?_⟩
  rw [recovered_empty hstart]
  exact applyWrites_recoverWrites hc

variable {sb : Superblock}

theorem recover_boot_issues (hok : HeadOk sb.logstart (getHead (disk sb.logstart))) :
    Issues False (recoverWrites sb.logstart disk) (Fs.boot sb disk)
      (recoverFromLog (Fs.boot sb disk)) fun _ s' =>
        s'.log = ⟨sb.logstart, 0, false, []⟩ ∧ Cached (fun _ => True) (fun _ => 0) s' := by
  have h := recover_issues (boot_cached (fun _ => True) sb disk)
  simp only [boot_log, boot_disk] at h
  exact h hok

/-- A recovery that is not interrupted runs to its end. -/
theorem recover_boot (hok : HeadOk sb.logstart (getHead (disk sb.logstart))) :
    ∃ s, recoverFromLog (Fs.boot sb disk) = .ok () s := by
  have hi := recover_boot_issues hok
  cases ho : recoverFromLog (Fs.boot sb disk) with
  | ok a s => exact ⟨s, rfl⟩
  | fail p s =>
    rw [ho] at hi
    exact hi.1.elim

/-- The memory after a recovery. -/
structure Fresh (sb : Superblock) (s : Fs) : Prop where
  super : s.sb = sb
  log : s.log = ⟨sb.logstart, 0, false, []⟩
  cached : Cached (fun _ => True) (fun _ => 0) s
  head : getHead (s.disk sb.logstart) = []

/-- **However often recovery is interrupted, the run that completes leaves the home blocks as
    the first one would have.** -/
theorem recovers_home {s : Fs} (h : Recovers sb disk s)
    (hok : HeadOk sb.logstart (getHead (disk sb.logstart))) :
    Fresh sb s ∧ ∀ c, ¬ (sb.logstart ≤ c ∧ c ≤ sb.logstart + LOGBLOCKS) →
      s.disk c = recovered sb.logstart disk c := by
  induction h with
  | @again disk w s hw _ ih =>
    have hpre := hw.trans (issued_of_issues (recover_boot_issues hok))
    obtain ⟨hok', hsame⟩ := recovered_again hok hpre
    obtain ⟨hf, hd⟩ := ih hok'
    exact ⟨hf, fun c hc => by rw [hd c hc, hsame c hc]⟩
  | @done disk s h =>
    have hi := recover_boot_issues hok
    rw [h] at hi
    obtain ⟨⟨bc, lh, e⟩, hlog, hc⟩ := hi
    have hdisk : s.disk = applyWrites disk (recoverWrites sb.logstart disk) := by simp [e]
    have hhead : getHead (s.disk sb.logstart) = [] := by
      rw [hdisk]
      exact getHead_erased ..
    refine ⟨⟨by simp [e], hlog, hc, hhead⟩, fun c hc => ?_⟩
    rw [hdisk, applyWrites_recoverWrites hc]

/-! ## 5. The invariant -/

/-- Outside the log region. -/
def Home (sb : Superblock) (c : Nat) : Prop := ¬ (sb.logstart ≤ c ∧ c ≤ sb.logstart + LOGBLOCKS)

instance (sb : Superblock) (c : Nat) : Decidable (Home sb c) := inferInstanceAs (Decidable (¬ _))

/-- **Between calls**: the header on the disk is empty, the disk holds the committed contents
    and the kernel sees those of the open transaction. -/
structure Inv (sb : Superblock) (s : Fs) (a : Contents) : Prop where
  super : s.sb = sb
  start : s.log.start = sb.logstart
  idle : s.log.committing = false
  out : s.log.outstanding = a.outstanding
  ready : Ready (fun _ => True) s
  head : getHead (s.disk sb.logstart) = []
  home : ∀ b ∈ s.log.lh, Home sb b
  lt : ∀ b ∈ s.log.lh, b < 2 ^ 32
  done : ∀ c, Home sb c → s.disk c = a.done c
  pend : ∀ c, Home sb c → view s c = a.pend c

section Step

variable {sb : Superblock} {s s' : Fs} {a : Contents}

theorem Inv.headOk (h : Inv sb s a) : HeadOk sb.logstart s.log.lh :=
  ⟨h.ready.nodup, h.ready.len, h.home⟩

/-- After a recovery the open transaction is gone. -/
theorem Fresh.inv (h : Fresh sb s) {done : Nat → Block} (hd : ∀ c, Home sb c → s.disk c = done c) :
    Inv sb s ⟨done, done, 0⟩ := by
  have hlh : s.log.lh = [] := by rw [h.log]
  have hr : Ready (fun _ => True) s := by
    refine ⟨?_, by simp [hlh], by simp [hlh]⟩
    rw [hlh, pinOf_nil]
    exact h.cached
  refine ⟨h.super, by rw [h.log], by rw [h.log], by rw [h.log], hr, h.head, by simp [hlh],
    by simp [hlh], hd, fun c hc => ?_⟩
  exact (h.cached.clean c trivial rfl).trans (hd c hc)

/-- A read: nothing changes. -/
theorem read_runs (h : Ready (fun _ => True) s) (b : Nat) :
    ((Call.read b).exec s).Runs (Touch (fun _ => True) .nothing) (fun _ _ => True) s
      fun _ s' => Ready (fun _ => True) s' :=
  peek_runs (fun _ _ _ => trivial) (f := fun _ => pure true) h fun _ _ _ hr => touch_pure hr

/-- A logged write. -/
theorem write_runs (h : Ready (fun _ => True) s) (b : Nat) (d : Block) :
    ((Call.write b d).exec s).Runs (Touch (fun _ => True) (.block b)) Exhausted s fun r s' =>
      r = true ∧ view s' = update (view s) b d ∧ Ready (fun _ => True) s' := by
  have hP : ∀ p s, Exhausted p s → Exhausted p s := fun _ _ hp => hp
  refine touch_bind (Frame.nothing_le _) (bread_ready (starved_of hP) h) fun _ s1 ht hq => ?_
  refine touch_bind (Frame.Le.refl _) (logUpdate_runs hP hq.2.2) fun _ s2 _ hq2 => ?_
  refine touch_pure ⟨rfl, ?_, hq2.2.2⟩
  have hv : view s1 = view s := funext fun c => ht.view c trivial fun hf => hf
  rw [hq2.1, hv]

/-- **What a call that returns does.** -/
theorem inv_returned {c : Call} {r : Bool} (hok : Event.Ok sb (.returned c r)) (h : Inv sb s a)
    (hs : c.exec s = .ok r s') : Inv sb s' (a.next sb.logstart (.returned c r)) := by
  cases c with
  | beginOp =>
    simp only [Call.exec, HaiOS.beginOp] at hs
    split at hs
    · rename_i l hl
      obtain ⟨-, -, rfl⟩ := Log.beginOp_some hl
      cases hs
      have h1 : Ready (fun _ => True) { s with log := { s.log with
          outstanding := s.log.outstanding + 1 } } :=
        ⟨⟨h.ready.cached.bufs, h.ready.cached.clean⟩, h.ready.nodup, h.ready.len⟩
      exact ⟨h.super, h.start, h.idle, congrArg (· + 1) h.out, h1, h.head, h.home, h.lt, h.done,
        h.pend⟩
    · cases hs
      exact h
  | read b =>
    obtain ⟨ht, hr⟩ := (read_runs h.ready b).of_ok hs
    have hlog : s'.log = s.log := ht.log_eq fun _ hf => hf
    have hv : view s' = view s := funext fun c => ht.view c trivial fun hf => hf
    exact ⟨ht.sb.trans h.super, by rw [hlog]; exact h.start, by rw [hlog]; exact h.idle,
      by rw [hlog]; exact h.out, hr, by rw [ht.disk]; exact h.head, by rw [hlog]; exact h.home,
      by rw [hlog]; exact h.lt, by rw [ht.disk]; exact h.done, by rw [hv]; exact h.pend⟩
  | write b d =>
    obtain ⟨ht, -, hv, hr⟩ := (write_runs h.ready b d).of_ok hs
    obtain ⟨new, hnew, hmem⟩ := ht.lh
    have hlog := ht.log
    have hin : ∀ c ∈ s'.log.lh, c ∈ s.log.lh ∨ c = b := by
      intro c hc
      rw [hnew] at hc
      exact (List.mem_append.mp hc).imp_right (hmem c)
    refine ⟨ht.sb.trans h.super, by rw [hlog]; exact h.start, by rw [hlog]; exact h.idle,
      by rw [hlog]; exact h.out, hr, by rw [ht.disk]; exact h.head, ?_, ?_,
      by rw [ht.disk]; exact h.done, ?_⟩
    · intro c hc
      rcases hin c hc with hc | rfl
      · exact h.home c hc
      · exact hok.1
    · intro c hc
      rcases hin c hc with hc | rfl
      · exact h.lt c hc
      · exact hok.2
    · intro c hc
      rw [hv]
      by_cases hcb : c = b
      · subst hcb
        simp [Contents.next]
      · simp only [Contents.next, update_of_ne hcb]
        exact h.pend c hc
  | endOp =>
    have hs' : HaiOS.endOp s = .ok () s' := by
      rw [Call.exec, Routine.bind_run] at hs
      cases he : HaiOS.endOp s with
      | ok u s1 =>
        rw [he] at hs
        cases hs
        rfl
      | fail p s1 =>
        rw [he] at hs
        cases hs
    simp only [Contents.next, ← h.out]
    by_cases hout : s.log.outstanding = 1
    · rw [if_pos hout]
      have hreg : ∀ c, ¬ s.log.region c ↔ Home sb c := fun c => by
        unfold Log.region Home
        rw [h.start]
      obtain ⟨-, hc⟩ := (endOp_commits h.ready (fun _ _ => trivial)
        (fun b hb => (hreg b).mpr (h.home b hb)) h.idle hout).of_ok hs'
      have hlh : s'.log.lh = [] := by rw [hc.log]
      have hdisk : ∀ c, Home sb c → s'.disk c = a.pend c := by
        intro c hcH
        rw [hc.disk, applyWrites_commitWrites h.ready.len ((hreg c).mpr hcH), ← h.pend c hcH]
        split
        · rfl
        · rename_i hm
          exact (h.ready.clean trivial hm).symm
      have hhead : getHead (s'.disk sb.logstart) = [] := by
        rw [hc.disk, ← h.start]
        exact getHead_commitWrites (by rw [h.start]; exact h.head)
      refine ⟨hc.sb.trans h.super, by rw [hc.log]; exact h.start, by rw [hc.log],
        by rw [hc.log], hc.ready, hhead, by simp [hlh], by simp [hlh], hdisk, fun c hcH => ?_⟩
      rw [hc.view c trivial ((hreg c).mpr hcH), h.pend c hcH]
    · rw [if_neg hout]
      rw [endOp_more h.idle hout] at hs'
      cases hs'
      have h1 : Ready (fun _ => True) { s with log := { s.log with
          outstanding := s.log.outstanding - 1 } } :=
        ⟨⟨h.ready.cached.bufs, h.ready.cached.clean⟩, h.ready.nodup, h.ready.len⟩
      exact ⟨h.super, h.start, h.idle, rfl, h1, h.head, h.home, h.lt, h.done,
        h.pend⟩

/-- A run that does not write to the disk issues nothing. -/
theorem issued_touch {α : Type} {G : Nat → Prop} {F : Frame} {P : Panic → Fs → Prop}
    {o : Outcome Panic Fs α} {Q : α → Fs → Prop} (h : o.Runs (Touch G F) P s Q) :
    issued s o = [] := by
  have hw : o.last.writes = s.writes := by
    cases o with
    | ok a s' => exact h.1.writes
    | fail p s' => exact h.1.writes
  simp [issued, hw]

/-- **The writes of a call** are those of a commit or none. -/
theorem issued_call (h : Inv sb s a) (c : Call) : issued s (c.exec s) <+: commitWrites s := by
  cases c with
  | beginOp =>
    have hw : (Call.beginOp.exec s).last.writes = s.writes := by
      simp only [Call.exec, HaiOS.beginOp]
      split <;> rfl
    simp [issued, hw]
  | read b =>
    rw [issued_touch (read_runs h.ready b)]
    exact List.nil_prefix
  | write b d =>
    rw [issued_touch (write_runs h.ready b d)]
    exact List.nil_prefix
  | endOp =>
    have hlast : (Call.endOp.exec s).last.writes = (HaiOS.endOp s).last.writes := by
      rw [Call.exec, Routine.bind_run]
      cases HaiOS.endOp s <;> rfl
    by_cases hout : s.log.outstanding = 1
    · have hreg : ∀ b ∈ s.log.lh, ¬ s.log.region b := fun b hb => by
        unfold Log.region
        rw [h.start]
        exact h.home b hb
      have hc := endOp_commits h.ready (fun _ _ => trivial) hreg h.idle hout
      unfold issued
      rw [hlast]
      cases he : HaiOS.endOp s with
      | ok u s1 =>
        rw [he] at hc
        simp [Outcome.last, hc.1]
      | fail p s1 =>
        rw [he] at hc
        obtain ⟨-, w, hw, e⟩ := hc
        simpa [Outcome.last, e] using hw
    · rw [endOp_more h.idle hout] at hlast
      have hw : (Call.endOp.exec s).last.writes = s.writes := hlast
      simp [issued, hw]

variable {w : List (Nat × Block)}

/-- The disk of a power failure leads to the surviving contents. -/
theorem recovered_crash {c : Call} (h : Inv sb s a) (hw : w <+: issued s (c.exec s)) :
    HeadOk sb.logstart (getHead (applyWrites s.disk w sb.logstart)) ∧
    ∀ x, Home sb x → recovered sb.logstart (applyWrites s.disk w) x =
      (a.next sb.logstart (.crashed c w)).done x := by
  have hrc := recovered_commit (w := w) (by rw [h.start]; exact h.head)
    (by rw [h.start]; exact h.headOk) h.lt (fun b hb => h.ready.clean trivial hb)
    (hw.trans (issued_call h c))
  rw [Lands, h.start] at hrc
  refine ⟨hrc.1, fun x hx => ?_⟩
  have hreg : ¬ s.log.region x := by
    unfold Log.region
    rw [h.start]
    exact hx
  rw [hrc.2 x hreg]
  simp only [Contents.next]
  split
  · exact h.pend x hx
  · exact h.done x hx

/-- **What a power failure and the recoveries after it do.** -/
theorem inv_crashed {c : Call} (h : Inv sb s a) (hw : w <+: issued s (c.exec s))
    (hr : Recovers s.sb (applyWrites s.disk w) s') :
    Inv sb s' (a.next sb.logstart (.crashed c w)) := by
  obtain ⟨hok, hrec⟩ := recovered_crash h hw
  rw [h.super] at hr
  obtain ⟨hf, hd⟩ := recovers_home hr hok
  exact hf.inv fun x hx => (hd x hx).trans (hrec x hx)

/-- **Every step keeps the invariant**, the abstract contents following the events. -/
theorem inv_step {e : Event} (hok : e.Ok sb) (h : Inv sb s a) (hs : Step s e s') :
    Inv sb s' (a.next sb.logstart e) := by
  cases hs with
  | returned hc => exact inv_returned hok h hc
  | crashed hw hr => exact inv_crashed h hw hr

end Step

/-! ## 6. The theorem -/

/-- **Crash atomicity.** Start from any disk whose header names home blocks, once recovery has
    run; let calls and power failures come in any order, recoveries fail as often as they may.
    Then the disk holds the surviving contents and the kernel sees those of the open transaction,
    which a failure keeps if and only if its commit has written the header. And whenever the
    power fails, some run of recovery completes. -/
theorem crash_atomic {sb : Superblock} {disk : Nat → Block} {s0 s : Fs} {l : List Event}
    (hok : HeadOk sb.logstart (getHead (disk sb.logstart)))
    (h0 : recoverFromLog (Fs.boot sb disk) = .ok () s0) (hl : ∀ e ∈ l, e.Ok sb)
    (hrun : Trace Step s0 l s) :
    let start : Contents := ⟨recovered sb.logstart disk, recovered sb.logstart disk, 0⟩
    let a := l.foldl (Contents.next sb.logstart) start
    (∀ b, Home sb b → s.disk b = a.done b ∧ view s b = a.pend b) ∧
    ∀ (c : Call) (w : List (Nat × Block)), w <+: issued s (c.exec s) →
      ∃ s', Recovers s.sb (applyWrites s.disk w) s' := by
  intro start a
  obtain ⟨hf, hd⟩ := recovers_home (.done h0) hok
  have hinv : Inv sb s a := Trace.refines (R := Inv sb) (P := Event.Ok sb)
    (fun _ _ _ _ he hi hst => inv_step he hi hst) hrun hl (hf.inv hd)
  refine ⟨fun b hb => ⟨hinv.done b hb, hinv.pend b hb⟩, fun c w hw => ?_⟩
  rw [hinv.super]
  obtain ⟨s', hs'⟩ := recover_boot (recovered_crash hinv hw).1
  exact ⟨s', .done hs'⟩

/-- A transaction that logs block 100. When power fails after the first write of its commit, to the
    log, it is lost; after the second one, the header, it is not. -/
theorem crash_atomic_cut : ∃ (sb : Superblock) (disk : Nat → Block) (s0 : Fs) (d : Block),
    recoverFromLog (Fs.boot sb disk) = .ok () s0 ∧ d 0 ≠ disk 100 0 ∧
    ∀ n, n = 1 ∨ n = 2 → ∃ w s, w.length = n ∧ Trace Step s0
      [.returned .beginOp true, .returned (.write 100 d) true, .crashed .endOp w] s ∧
      s.disk 100 = if n = 1 then disk 100 else d := by
  let sb : Superblock := ⟨200, 100, 32, 31, 2, 33, 50⟩
  let disk : Nat → Block := fun _ _ => 0
  let d : Block := fun _ => 1
  let s0 := (recoverFromLog (Fs.boot sb disk)).last
  let s1 := (Call.beginOp.exec s0).last
  let s2 := ((Call.write 100 d).exec s1).last
  let ws := issued s2 (Call.endOp.exec s2)
  have hhead : getHead (disk sb.logstart) = [] := by decide
  have hok : HeadOk sb.logstart (getHead (disk sb.logstart)) := by
    rw [hhead]
    exact headOk_nil _
  have h0 : recoverFromLog (Fs.boot sb disk) = .ok () s0 := Outcome.eq_ok (by decide +kernel)
  have h1 : Call.beginOp.exec s0 = .ok true s1 := Outcome.eq_ok (by decide +kernel)
  have h2 : (Call.write 100 d).exec s1 = .ok true s2 := Outcome.eq_ok (by decide +kernel)
  obtain ⟨hf, hd⟩ := recovers_home (.done h0) hok
  have i2 := inv_returned (r := true) (by decide) (inv_returned (c := .beginOp) trivial (hf.inv hd) h1) h2
  have hcut : ∀ n, n = 1 ∨ n = 2 → (ws.take n).length = n ∧
      headReached sb.logstart (ws.take n) = decide (n = 2) := by
    rintro n (rfl | rfl) <;> decide +kernel
  refine ⟨sb, disk, s0, d, h0, by decide, fun n hn => ?_⟩
  obtain ⟨hlen, hreached⟩ := hcut n hn
  have hw : ws.take n <+: ws := List.take_prefix n ws
  obtain ⟨s3, h3⟩ := recover_boot (recovered_crash i2 hw).1
  have htr : Trace Step s0
      [.returned .beginOp true, .returned (.write 100 d) true, .crashed .endOp (ws.take n)] s3 := by
    refine .snoc (.snoc (.snoc (.nil s0) (.returned h1)) (.returned h2)) (.crashed hw ?_)
    rw [i2.super]
    exact .done h3
  have hall := crash_atomic hok h0 (by simp [Event.Ok]; decide) htr
  refine ⟨_, s3, hlen, htr, (hall.1 100 (by decide)).1.trans ?_⟩
  rcases hn with rfl | rfl <;> simp [Contents.next, hreached, recovered_empty hhead]

end HaiOS.Crash
