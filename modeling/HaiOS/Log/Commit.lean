/-
  File:      HaiOS/Log/Commit.lean
  Subject:   COMMIT AND RECOVERY (kernel/log.c): the block writes they issue, in order.

  * `Issues W` -- a run writes exactly the blocks of `W`, or stops after a part of them. Its
    rule for sequences appends the writes;
  * `commit_issues` -- a commit writes the logged blocks to the log, then the header, then the
    blocks to their home locations, then the empty header, and the kernel sees the same
    contents after it as before.
-/
import HaiOS.Fs.Bio

namespace HaiOS

open Lib Function

/-! ## 1. The log header -/

/-- The bytes of a `struct logheader` with the entries in use. -/
def headBytes (lh : List Nat) : List UInt8 := le 4 lh.length ++ lh.flatMap (le 4)

/-- `write_head`'s stores to the header block. -/
def putHead (blk : Block) (lh : List Nat) : Block := patch blk 0 (headBytes lh)

/-- `read_head`'s loads from the header block. -/
def getHead (blk : Block) : List Nat :=
  (List.range (getLE 4 blk 0)).map fun i => getLE 4 blk (4 + 4 * i)

theorem take_drop_flatMap_le (lh : List Nat) (i : Nat) (h : i < lh.length) :
    ((lh.flatMap (le 4)).drop (4 * i)).take 4 = le 4 lh[i] := by
  induction lh generalizing i with
  | nil => simp at h
  | cons b lh ih =>
    cases i with
    | zero => simp
    | succ i =>
      have hd : (le 4 b ++ lh.flatMap (le 4)).drop (4 * (i + 1)) =
          (lh.flatMap (le 4)).drop (4 * i) := by
        rw [List.drop_append, List.drop_eq_nil_of_le (by rw [length_le]; omega), length_le]
        rfl
      rw [List.flatMap_cons, hd, ih i (by simpa using h)]
      rfl

/-- **The header read back is the header written.** -/
theorem getHead_putHead (blk : Block) {lh : List Nat} (hlen : lh.length < 2 ^ 32)
    (hlt : ∀ b ∈ lh, b < 2 ^ 32) : getHead (putHead blk lh) = lh := by
  have hbytes : (headBytes lh).length = 4 + 4 * lh.length := by
    simp [headBytes]
    omega
  have hn : getLE 4 (putHead blk lh) 0 = lh.length := by
    have h := slice_patch_within blk 0 0 4 (headBytes lh) (by omega)
    rw [getLE, putHead, h, List.drop_zero, headBytes, List.take_left' (length_le ..), ofLE_le]
    exact Nat.mod_eq_of_lt hlen
  unfold getHead
  rw [hn]
  refine List.ext_getElem (by simp) fun i h1 h2 => ?_
  have h := slice_patch_within blk 0 (4 + 4 * i) 4 (headBytes lh) (by omega)
  have hd : (headBytes lh).drop (4 + 4 * i) = (lh.flatMap (le 4)).drop (4 * i) := by
    rw [headBytes, List.drop_append, List.drop_eq_nil_of_le (by rw [length_le]; omega), length_le,
      Nat.add_sub_cancel_left]
    rfl
  rw [Nat.zero_add, hd, take_drop_flatMap_le lh i h2] at h
  rw [List.getElem_map, List.getElem_range, getLE, putHead, h, ofLE_le]
  exact Nat.mod_eq_of_lt (hlt _ (List.getElem_mem h2))

/-! ## 2. The routines -/

/-- The loop of `write_log` from `tail` on, with `lh.block[tail .. n)`. -/
def writeLogLoop : Nat → List Nat → FsM Unit
  | _, [] => pure ()
  | tail, b :: rest => do
    let start ← Routine.gets (·.log.start)
    let _ ← bread (start + tail + 1)
    let d ← bread b
    setData (start + tail + 1) d
    bwrite (start + tail + 1)
    brelse b
    brelse (start + tail + 1)
    writeLogLoop (tail + 1) rest

/-- Copy modified blocks from cache to log. -/
def writeLog : FsM Unit := do
  let lh ← Routine.gets (·.log.lh)
  writeLogLoop 0 lh

/-- Write in-memory log header to disk. -/
def writeHead : FsM Unit := do
  let l ← Routine.gets (·.log)
  let d ← bread l.start
  setData l.start (putHead d l.lh)
  bwrite l.start
  brelse l.start

/-- `if(recovering == 0) bunpin(dbuf);` -/
def unpinUnless (recovering : Bool) (b : Nat) : FsM Unit := if recovering then pure () else bunpin b

/-- The loop of `install_trans` from `tail` on, with `lh.block[tail .. n)`. -/
def installLoop (recovering : Bool) : Nat → List Nat → FsM Unit
  | _, [] => pure ()
  | tail, b :: rest => do
    let start ← Routine.gets (·.log.start)
    let d ← bread (start + tail + 1)
    let _ ← bread b
    setData b d
    bwrite b
    unpinUnless recovering b
    brelse (start + tail + 1)
    brelse b
    installLoop recovering (tail + 1) rest

/-- Copy committed blocks from log to their home location. -/
def installTrans (recovering : Bool) : FsM Unit := do
  let lh ← Routine.gets (·.log.lh)
  installLoop recovering 0 lh

/-- Assign to `log.lh`. -/
def Fs.withLh (s : Fs) (lh : List Nat) : Fs := { s with log := { s.log with lh := lh } }

def setLh (lh : List Nat) : FsM Unit := Routine.update fun s => s.withLh lh

@[simp] theorem view_withLh (s : Fs) (lh : List Nat) : view (s.withLh lh) = view s := rfl

@[simp] theorem withLh_log (s : Fs) (lh : List Nat) : (s.withLh lh).log = { s.log with lh := lh } := rfl

variable {G : Nat → Prop} {s s' : Fs}

theorem Cached.withLh {pin : Nat → Nat} (h : Cached G pin s) (lh : List Nat) :
    Cached G pin (s.withLh lh) := ⟨h.bufs, h.clean⟩

/-- Read the log header from disk into the in-memory log header. -/
def readHead : FsM Unit := do
  let start ← Routine.gets (·.log.start)
  let d ← bread start
  setLh (getHead d)
  brelse start

def recoverFromLog : FsM Unit := do
  readHead
  installTrans true
  setLh []
  writeHead

def commit : FsM Unit := do
  let lh ← Routine.gets (·.log.lh)
  if 0 < lh.length then do
    writeLog
    writeHead
    installTrans false
    setLh []
    writeHead
  else pure ()

/-- `begin_op` of a process that need not wait; `false` when it sleeps. -/
def beginOp : FsM Bool := fun s =>
  match s.log.beginOp with
  | some l => .ok true { s with log := l }
  | none => .ok false s

def endOp : FsM Unit := fun s =>
  match s.log.endOp with
  | .error p => .fail p s
  | .ok (l, false) => .ok () { s with log := l }
  | .ok (l, true) =>
    (do commit
        Routine.update fun s => { s with log := s.log.committed }) { s with log := l }

/-! `commit` needs buffers for the blocks of the log; that is the only way it can fail. -/

section Fails

theorem bread_fails (b : Nat) : FailsOnly (· = Panic.bgetNoBuffers) (bread b) := by
  refine FailsOnly.bind (fun s => ?_) fun _ => (failsOnly_update _).bind fun _ => failsOnly_gets _
  unfold bget
  split
  · trivial
  · split
    · trivial
    · rfl

theorem writeLogLoop_fails (l : List Nat) (tail : Nat) :
    FailsOnly (· = Panic.bgetNoBuffers) (writeLogLoop tail l) := by
  induction l generalizing tail with
  | nil => exact failsOnly_pure _
  | cons b l ih =>
    exact (failsOnly_gets _).bind fun start => (bread_fails _).bind fun _ =>
      (bread_fails _).bind fun _ => (failsOnly_update _).bind fun _ =>
      (failsOnly_update _).bind fun _ => (failsOnly_update _).bind fun _ =>
      (failsOnly_update _).bind fun _ => ih _

theorem writeHead_fails : FailsOnly (· = Panic.bgetNoBuffers) writeHead :=
  (failsOnly_gets _).bind fun _ => (bread_fails _).bind fun _ => (failsOnly_update _).bind fun _ =>
    (failsOnly_update _).bind fun _ => failsOnly_update _

theorem installLoop_fails (recovering : Bool) (l : List Nat) (tail : Nat) :
    FailsOnly (· = Panic.bgetNoBuffers) (installLoop recovering tail l) := by
  induction l generalizing tail with
  | nil => exact failsOnly_pure _
  | cons b l ih =>
    exact (failsOnly_gets _).bind fun start => (bread_fails _).bind fun _ =>
      (bread_fails _).bind fun _ => (failsOnly_update _).bind fun _ =>
      (failsOnly_update _).bind fun _ =>
      (failsOnly_ite (failsOnly_pure _) (failsOnly_update _)).bind fun _ =>
      (failsOnly_update _).bind fun _ => (failsOnly_update _).bind fun _ => ih _

theorem commit_fails : FailsOnly (· = Panic.bgetNoBuffers) commit :=
  (failsOnly_gets _).bind fun _ => failsOnly_ite
    (((failsOnly_gets _).bind fun l => writeLogLoop_fails l 0).bind fun _ =>
      writeHead_fails.bind fun _ =>
      ((failsOnly_gets _).bind fun l => installLoop_fails false l 0).bind fun _ =>
      (failsOnly_update _).bind fun _ => writeHead_fails) (failsOnly_pure _)

theorem endOp_fails : FailsOnly (fun p => p = Panic.bgetNoBuffers ∨ p = .logCommitting) endOp := by
  intro s
  unfold endOp
  cases h : s.log.endOp with
  | error p =>
    refine Or.inr ?_
    unfold Log.endOp at h
    dsimp only at h
    split at h
    · exact (Except.error.inj h).symm
    · split at h <;> cases h
  | ok r =>
    obtain ⟨l, doCommit⟩ := r
    cases doCommit with
    | false => trivial
    | true =>
      exact ((commit_fails _).mono (fun _ _ _ => trivial) fun _ _ hp => Or.inl hp).bind
        fun _ _ _ => trivial

end Fails

/-! ## 3. The writes of a run -/

/-- The disk after the block writes `w`, in order. -/
def applyWrites (disk : Nat → Block) (w : List (Nat × Block)) : Nat → Block :=
  w.foldl (fun d x => update d x.1 x.2) disk

@[simp] theorem applyWrites_nil (disk : Nat → Block) : applyWrites disk [] = disk := rfl

theorem applyWrites_cons (disk : Nat → Block) (x : Nat × Block) (w : List (Nat × Block)) :
    applyWrites disk (x :: w) = applyWrites (update disk x.1 x.2) w := rfl

theorem applyWrites_append (disk : Nat → Block) (w w' : List (Nat × Block)) :
    applyWrites disk (w ++ w') = applyWrites (applyWrites disk w) w' := List.foldl_append

variable {w : List (Nat × Block)}

theorem applyWrites_notMem {disk : Nat → Block} {b : Nat} (h : ∀ x ∈ w, x.1 ≠ b) :
    applyWrites disk w b = disk b := by
  induction w generalizing disk with
  | nil => rfl
  | cons x w ih =>
    have hx : b ≠ x.1 := fun e => h x List.mem_cons_self e.symm
    rw [applyWrites_cons]
    refine (ih fun y hy => h y (List.mem_cons_of_mem _ hy)).trans ?_
    exact update_of_ne hx _ _

variable {c start tail : Nat}

/-- An install depends only on what it installs, and on the block itself elsewhere. -/
theorem applyWrites_congr {d d' : Nat → Block} (h : (∀ x ∈ w, x.1 ≠ c) → d c = d' c) :
    applyWrites d w c = applyWrites d' w c := by
  induction w generalizing d d' with
  | nil => exact h (by simp)
  | cons x w ih =>
    rw [applyWrites_cons, applyWrites_cons]
    refine ih fun hw => ?_
    by_cases hx : c = x.1
    · subst hx
      rw [update_self, update_self]
    · rw [update_of_ne hx, update_of_ne hx]
      refine h fun y hy => ?_
      rcases List.mem_cons.mp hy with rfl | hy
      · exact Ne.symm hx
      · exact hw y hy

theorem applyWrites_map (d v : Nat → Block) (l : List Nat) (c : Nat) :
    applyWrites d (l.map fun b => (b, v b)) c = if c ∈ l then v c else d c := by
  induction l generalizing d with
  | nil => simp
  | cons b l ih =>
    rw [List.map_cons, applyWrites_cons, ih]
    by_cases hcb : c = b
    · subst hcb
      simp
    · simp [hcb]

/-- What `write_log` writes, with the contents `v`. -/
def logWrites (start : Nat) (v : Nat → Block) : Nat → List Nat → List (Nat × Block)
  | _, [] => []
  | tail, b :: rest => (start + tail + 1, v b) :: logWrites start v (tail + 1) rest

/-- What `install_trans` writes, with the contents `v`. -/
def installWrites (start : Nat) (v : Nat → Block) : Nat → List Nat → List (Nat × Block)
  | _, [] => []
  | tail, b :: rest => (b, v (start + tail + 1)) :: installWrites start v (tail + 1) rest

variable {v v' : Nat → Block} {l : List Nat}

theorem logWrites_congr (tail : Nat) (h : ∀ b ∈ l, v b = v' b) :
    logWrites start v tail l = logWrites start v' tail l := by
  induction l generalizing tail with
  | nil => rfl
  | cons b l ih =>
    simp only [logWrites]
    rw [h b List.mem_cons_self, ih (tail + 1) fun c hc => h c (List.mem_cons_of_mem _ hc)]

theorem logWrites_keys {x : Nat × Block} (hx : x ∈ logWrites start v tail l) :
    ∃ t, tail ≤ t ∧ t < tail + l.length ∧ x.1 = start + t + 1 := by
  induction l generalizing tail with
  | nil => simp [logWrites] at hx
  | cons b l ih =>
    rw [List.length_cons]
    rcases List.mem_cons.mp hx with rfl | hx
    · exact ⟨tail, le_refl _, by omega, rfl⟩
    · obtain ⟨t, h1, h2, h3⟩ := ih hx
      exact ⟨t, by omega, by omega, h3⟩

/-- The log blocks after `write_log`. -/
theorem applyWrites_logWrites (disk v : Nat → Block) (start tail : Nat) {i : Nat}
    (hi : i < l.length) :
    applyWrites disk (logWrites start v tail l) (start + (tail + i) + 1) = v l[i] := by
  induction l generalizing tail i disk with
  | nil => simp at hi
  | cons b l ih =>
    cases i with
    | zero =>
      rw [logWrites, applyWrites_cons]
      refine (applyWrites_notMem fun x hx => ?_).trans (update_self _ _ _)
      obtain ⟨t, h1, -, h3⟩ := logWrites_keys hx
      omega
    | succ i =>
      have h := ih (update disk (start + tail + 1) (v b)) (tail + 1) (i := i)
        (by simpa using hi)
      rw [show start + (tail + (i + 1)) + 1 = start + (tail + 1 + i) + 1 by omega]
      exact h

theorem installWrites_keys {x : Nat × Block} (hx : x ∈ installWrites start v tail l) : x.1 ∈ l := by
  induction l generalizing tail with
  | nil => simp [installWrites] at hx
  | cons b l ih =>
    rcases List.mem_cons.mp hx with rfl | hx
    · exact List.mem_cons_self
    · exact List.mem_cons_of_mem _ (ih hx)

theorem installWrites_eq (h : ∀ (i : Nat) (hi : i < l.length), v (start + (tail + i) + 1) = v' l[i])
    :
    installWrites start v tail l = l.map fun b => (b, v' b) := by
  induction l generalizing tail with
  | nil => rfl
  | cons b l ih =>
    have h0 := h 0 (by simp)
    simp only [installWrites, List.map_cons]
    rw [ih fun i hi => ?_]
    · exact congrArg (fun d => (b, d) :: _) h0
    · have := h (i + 1) (by simpa using hi)
      rw [show start + (tail + 1 + i) + 1 = start + (tail + (i + 1)) + 1 by omega]
      exact this

theorem installWrites_congr
    (h : ∀ t, tail ≤ t → t < tail + l.length → v (start + t + 1) = v' (start + t + 1)) :
    installWrites start v tail l = installWrites start v' tail l := by
  induction l generalizing tail with
  | nil => rfl
  | cons b l ih =>
    rw [List.length_cons] at h
    simp only [installWrites]
    rw [h tail (le_refl _) (by omega), ih fun t h1 h2 => h t (by omega) (by omega)]

/-- `s'` is `s` after the block writes `w`; beside the disk only the cache and `log.lh` may
    differ. -/
def Emits (s : Fs) (w : List (Nat × Block)) (s' : Fs) : Prop :=
  ∃ bc lh, s' = { s with
    disk := applyWrites s.disk w
    writes := s.writes ++ w
    bcache := bc
    log := { s.log with lh := lh } }

theorem Emits.trans {s s' s'' : Fs} {w w' : List (Nat × Block)} (h : Emits s w s')
    (h' : Emits s' w' s'') : Emits s (w ++ w') s'' := by
  obtain ⟨bc, lh, rfl⟩ := h
  obtain ⟨bc', lh', rfl⟩ := h'
  refine ⟨bc', lh', ?_⟩
  simp only [applyWrites_append, List.append_assoc]

theorem Emits.disk (h : Emits s w s') :
    s'.disk = applyWrites s.disk w := by
  obtain ⟨bc, lh, rfl⟩ := h
  rfl

theorem Emits.refl (s : Fs) : Emits s [] s := ⟨s.bcache, s.log.lh, by simp⟩

theorem Recached.emits (h : Recached s s') : Emits s [] s' := by
  obtain ⟨l, rfl⟩ := h
  exact ⟨l, s.log.lh, by simp⟩

theorem emits_setLh (s : Fs) (lh : List Nat) : Emits s [] (s.withLh lh) :=
  ⟨s.bcache, lh, by simp [Fs.withLh]⟩

theorem emits_write (s : Fs) (b : Nat) (d : Block) : Emits s [(b, d)] (s.write b d) :=
  ⟨s.bcache, s.log.lh, rfl⟩

theorem Touch.emits (h : Touch G .nothing s s') : Emits s [] s' := by
  refine ⟨s'.bcache, s'.log.lh, ?_⟩
  have h1 := h.itable_eq fun _ hf => hf
  have h2 := h.errs fun hf => hf
  cases s'
  simp only [applyWrites_nil, List.append_nil, Fs.mk.injEq]
  exact ⟨h.sb, h.disk, h.writes, trivial, h.log, h1, h2⟩

/-- **The run issues the writes `W`**; one that stops early has issued a part of them, from
    the beginning. With `E` false it does not stop early. -/
def Issues {α : Type} (E : Prop) (W : List (Nat × Block)) (s : Fs) (o : Outcome Panic Fs α)
    (Q : α → Fs → Prop) : Prop :=
  o.Sat (fun a s' => Emits s W s' ∧ Q a s') fun _ s' => E ∧ ∃ w, w <+: W ∧ Emits s w s'

section Issues

variable {α β : Type} {E : Prop} {W V : List (Nat × Block)} {s : Fs} {Q : α → Fs → Prop}
  {R : β → Fs → Prop}

/-- The writes of a run that comes after the writes `W`. -/
theorem Issues.after {o : Outcome Panic Fs β} {s' : Fs} (he : Emits s W s')
    (h : Issues E V s' o R) : Issues E (W ++ V) s o R := by
  refine h.mono (fun b s'' hb => ⟨he.trans hb.1, hb.2⟩) fun p s'' hp => ?_
  obtain ⟨hE, w, hw, hew⟩ := hp
  exact ⟨hE, W ++ w, (List.prefix_append_right_inj W).mpr hw, he.trans hew⟩

theorem Issues.bind {m : FsM α} {f : α → FsM β} (h : Issues E W s (m s) Q)
    (hf : ∀ a s', Emits s W s' → Q a s' → Issues E V s' (f a s') R) :
    Issues E (W ++ V) s ((m >>= f) s) R := by
  rw [Routine.bind_run]
  cases hm : m s with
  | ok a s' =>
    rw [hm] at h
    exact (hf a s' h.1 h.2).after h.1
  | fail p s' =>
    rw [hm] at h
    obtain ⟨hE, w, hw, hew⟩ := h
    exact ⟨hE, w, hw.trans (List.prefix_append W V), hew⟩

/-- A statement that cannot fail. -/
theorem Issues.step {m : FsM α} {f : α → FsM β} {a : α} {s' : Fs} (hm : m s = .ok a s')
    (he : Emits s W s') (h : Issues E V s' (f a s') R) :
    Issues E (W ++ V) s ((m >>= f) s) R := by
  rw [Routine.bind_ok hm]
  exact h.after he

theorem Issues.imp {o : Outcome Panic Fs α} {Q' : α → Fs → Prop} (h : Issues E W s o Q)
    (hQ : ∀ a s', Emits s W s' → Q a s' → Q' a s') : Issues E W s o Q' :=
  Outcome.Sat.imp h fun a s' hq => ⟨hq.1, hQ a s' hq.1 hq.2⟩

theorem issues_pure {a : α} (h : Q a s) : Issues E [] s ((pure a : FsM α) s) Q := ⟨Emits.refl s, h⟩

end Issues

section Rules

variable {G : Nat → Prop} {E : Prop} {pin : Nat → Nat} {s : Fs} {b : Nat}

theorem Crowded.mono {pin' : Nat → Nat} (h : Crowded pin) (hle : ∀ c, pin c ≤ pin' c) :
    Crowded pin' := by
  obtain ⟨nos, hn, hlen, hpos⟩ := h
  exact ⟨nos, hn, hlen, fun c hc => Nat.lt_of_lt_of_le (hpos c hc) (hle c)⟩

theorem le_update_succ (pin : Nat → Nat) (b c : Nat) :
    pin c ≤ update pin b (pin b + 1) c := by
  by_cases hcb : c = b
  · subst hcb
    simp
  · rw [update_of_ne hcb]

theorem bread_issues (hE : pin b = 0 → Crowded pin → E) (h : Cached G pin s) :
    Issues E [] s (bread b s) fun d s' =>
    d = view s b ∧ view s' b = view s b ∧ (∀ c, G c ∨ 0 < pin c → view s' c = view s c) ∧
    s'.log = s.log ∧ Cached G (update pin b (pin b + 1)) s' := by
  have hr := bread_runs (P := fun _ _ => E) (b := b) hE h
  refine Outcome.Sat.mono hr (fun d s' hq => ?_) fun p s' hp =>
    ⟨hp.2, [], List.prefix_refl _, hp.1.emits⟩
  obtain ⟨ht, hd, hv, hpin, hc⟩ := hq
  refine ⟨ht.emits, hd, hv, fun c hc => ?_, ht.log_eq fun _ hf => hf, hc⟩
  rcases hc with hG | hp
  · exact ht.view c hG fun hf => hf
  · exact hpin c hp

variable {W : List (Nat × Block)} {Q : Unit → Fs → Prop}

/-- One turn of the loop of `write_log`: `lb` is the log block, `b` the pinned home block. -/
theorem writeLog_turn {lb : Nat} {k : FsM Unit} {W : List (Nat × Block)} {Q : Unit → Fs → Prop}
    (hE : Crowded pin → E) (h : Cached G pin s) (hb : 0 < pin b) (hl0 : pin lb = 0)
    (hk : ∀ s', Emits s [(lb, view s b)] s' → s'.log = s.log → Cached G pin s' →
      (∀ c, G c ∨ 0 < pin c → c ≠ lb → view s' c = view s c) → Issues E W s' (k s') Q) :
    Issues E ((lb, view s b) :: W) s ((do
      let _ ← bread lb
      let d ← bread b
      setData lb d
      bwrite lb
      brelse b
      brelse lb
      k : FsM Unit) s) Q := by
  have hne : b ≠ lb := fun e => by
    subst e
    omega
  refine (bread_issues (fun _ => hE) h).bind (V := (lb, view s b) :: W) fun _ s1 e1 h1 => ?_
  obtain ⟨-, -, hv1, hl1, hc1⟩ := h1
  -- the home block is pinned, so it has a buffer
  refine (bread_issues (fun h0 => ?_) hc1).bind (V := (lb, view s b) :: W) fun d s2 e2 h2 => ?_
  · rw [update_of_ne hne] at h0
    omega
  obtain ⟨hd, hvb2, hv2, hl2, hc2⟩ := h2
  have hd' : d = view s b := by rw [hd, hv1 b (Or.inr hb)]
  subst hd'
  -- the log block gets the contents of the home block, in the cache and on the disk
  have hpt : 0 < update (update pin lb (pin lb + 1)) b
      (update pin lb (pin lb + 1) b + 1) lb := by
    rw [update_of_ne (Ne.symm hne)]
    simp
  obtain ⟨s3, r3, q3, hv3, hc3⟩ := setData_cached hc2 hpt (view s b)
  refine Issues.step (W := []) r3 q3.emits ?_
  obtain ⟨r4, hv4, hc4⟩ := bwrite_cached hc3 hpt
  have hlb : view s3 lb = view s b := by rw [hv3, update_self]
  rw [hlb] at r4 hv4 hc4
  refine Issues.step (W := [(lb, view s b)]) r4 (emits_write _ _ _) ?_
  -- the two references are given back
  have hpb : 0 < update (update pin lb (pin lb + 1)) b
      (update pin lb (pin lb + 1) b + 1) b := by simp
  obtain ⟨s5, r5, q5, hv5, hc5⟩ := brelse_cached hc4 hpb fun h1 => by
    rw [update_self, update_of_ne hne] at h1
    omega
  refine Issues.step (W := []) r5 q5.emits ?_
  have hpins : update (update (update pin lb (pin lb + 1)) b
      (update pin lb (pin lb + 1) b + 1)) b
      (update (update pin lb (pin lb + 1)) b
        (update pin lb (pin lb + 1) b + 1) b - 1) = update pin lb (pin lb + 1) := by
    simp
  rw [hpins] at hc5
  obtain ⟨s6, r6, q6, hv6, hc6⟩ := brelse_cached hc5 (b := lb) (by simp) fun _ _ => by
    rw [hv5, hv4, hlb, q5.disk, Fs.write_disk, update_self]
  refine Issues.step (W := []) r6 q6.emits ?_
  have hpins2 : update (update pin lb (pin lb + 1)) lb
      (update pin lb (pin lb + 1) lb - 1) = pin := by simp
  rw [hpins2] at hc6
  refine hk s6 ?_ ?_ hc6 ?_
  · have e3 := (((e1.trans e2).trans q3.emits).trans (emits_write s3 lb (view s b))).trans
      (q5.emits.trans q6.emits)
    simpa using e3
  · rw [q6.log, q5.log, Fs.write_log, q3.log, hl2, hl1]
  · intro c hG hct
    rw [hv6, hv5, hv4, hv3, update_of_ne hct]
    have hG1 : G c ∨ 0 < update pin lb (pin lb + 1) c := by
      rwa [update_of_ne hct]
    rw [hv2 c hG1, hv1 c hG]

theorem unpinUnless_cached (recovering : Bool) (h : Cached G pin s) (hp : 0 < pin b)
    (hc : recovering = false → pin b ≠ 1) :
    ∃ s', unpinUnless recovering b s = .ok () s' ∧ Recached s s' ∧ view s' = view s ∧
      Cached G (update pin b (if recovering then pin b else pin b - 1)) s' := by
  cases recovering with
  | true =>
    refine ⟨s, rfl, ⟨s.bcache, rfl⟩, rfl, ?_⟩
    simpa using h
  | false => exact bunpin_cached h hp fun h1 => absurd h1 (hc rfl)

variable {recovering : Bool}

/-- One turn of the loop of `install_trans`: `lb` is the log block, `b` the home block, which
    a commit has pinned and recovery has not. -/
theorem install_turn {recovering : Bool} {lb : Nat} {k : FsM Unit} {W : List (Nat × Block)}
    {Q : Unit → Fs → Prop} (hE : Crowded pin → E)
    (hR : recovering = true → Crowded (update pin lb (pin lb + 1)) → E)
    (h : Cached G pin s) (hne : b ≠ lb)
    (hb : recovering = false → 0 < pin b) (hl0 : pin lb = 0) (hlG : G lb)
    (hk : ∀ s', Emits s [(b, view s lb)] s' → s'.log = s.log →
      Cached G (update pin b (if recovering then pin b else pin b - 1)) s' →
      (∀ c, G c ∨ 0 < pin c → view s' c = update (view s) b (view s lb) c) →
      Issues E W s' (k s') Q) :
    Issues E ((b, view s lb) :: W) s ((do
      let d ← bread lb
      let _ ← bread b
      setData b d
      bwrite b
      unpinUnless recovering b
      brelse lb
      brelse b
      k : FsM Unit) s) Q := by
  refine (bread_issues (fun _ => hE) h).bind (V := (b, view s lb) :: W) fun d s1 e1 h1 => ?_
  obtain ⟨rfl, hvl1, hv1, hl1, hc1⟩ := h1
  refine (bread_issues (fun h0 => ?_) hc1).bind (V := (b, view s lb) :: W) fun _ s2 e2 h2 => ?_
  · rw [update_of_ne hne] at h0
    cases recovering with
    | true => exact hR rfl
    | false =>
      have := hb rfl
      omega
  obtain ⟨-, -, hv2, hl2, hc2⟩ := h2
  have hp1 : update pin lb (pin lb + 1) b = pin b := update_of_ne hne _ _
  rw [hp1] at hc2
  have hpb : 0 < update (update pin lb (pin lb + 1)) b (pin b + 1) b := by simp
  obtain ⟨s3, r3, q3, hv3, hc3⟩ := setData_cached hc2 hpb (view s lb)
  refine Issues.step (W := []) r3 q3.emits ?_
  obtain ⟨r4, hv4, hc4⟩ := bwrite_cached hc3 hpb
  have hvb : view s3 b = view s lb := by rw [hv3, update_self]
  rw [hvb] at r4 hv4 hc4
  refine Issues.step (W := [(b, view s lb)]) r4 (emits_write _ _ _) ?_
  -- a commit gives the log's reference back here
  obtain ⟨s5, r5, q5, hv5, hc5⟩ := unpinUnless_cached recovering hc4 hpb
    fun hr h1 => by
      rw [update_self] at h1
      have := hb hr
      omega
  refine Issues.step (W := []) r5 q5.emits ?_
  have hlb2 : view s2 lb = s2.disk lb := by
    have hdisk : s2.disk = s.disk := by rw [e2.disk, e1.disk, applyWrites_nil, applyWrites_nil]
    rw [hv2 lb (Or.inl hlG), hvl1, hdisk]
    exact h.clean lb hlG hl0
  have hlbne := Ne.symm hne
  obtain ⟨s6, r6, q6, hv6, hc6⟩ := brelse_cached hc5 (b := lb)
    (by rw [update_of_ne hlbne, update_of_ne hlbne]; simp) fun _ _ => by
      rw [hv5, hv4, hv3, update_of_ne hlbne, q5.disk, Fs.write_disk,
        update_of_ne hlbne, q3.disk, hlb2]
  refine Issues.step (W := []) r6 q6.emits ?_
  obtain ⟨s7, r7, q7, hv7, hc7⟩ := brelse_cached hc6 (b := b)
    (by
      rw [update_of_ne hne, update_self, update_self]
      split
      · omega
      · rename_i hr
        have := hb (by simpa using hr)
        omega) fun _ _ => by
      rw [hv6, hv5, hv4, hvb, q6.disk, q5.disk, Fs.write_disk, update_self]
  refine Issues.step (W := []) r7 q7.emits ?_
  refine hk s7 ?_ ?_ ?_ ?_
  · have e3 := (((e1.trans e2).trans q3.emits).trans (emits_write s3 b (view s lb))).trans
      ((q5.emits.trans q6.emits).trans q7.emits)
    simpa using e3
  · rw [q7.log, q6.log, q5.log, Fs.write_log, q3.log, hl2, hl1]
  · convert hc7 using 1
    funext c
    by_cases hcb : c = b
    · subst hcb
      cases recovering <;> simp [update_of_ne hne]
    · by_cases hcl : c = lb
      · subst hcl
        simp [hcb, hl0]
      · simp [hcb, hcl]
  · intro c hG
    rw [hv7, hv6, hv5, hv4, hv3]
    by_cases hcb : c = b
    · subst hcb
      rw [update_self, update_self]
    · rw [update_of_ne hcb, update_of_ne hcb]
      have hG1 : G c ∨ 0 < update pin lb (pin lb + 1) c := by
        by_cases hcl : c = lb
        · subst hcl
          simp
        · rwa [update_of_ne hcl]
      rw [hv2 c hG1, hv1 c hG]

theorem writeLogLoop_issues (tail : Nat) (rest : List Nat)
    (hE : Crowded pin → E) (h : Cached G pin s) (hpin : ∀ b ∈ rest, 0 < pin b)
    (hlog : ∀ t, tail ≤ t → t < tail + rest.length → pin (s.log.start + t + 1) = 0) :
    Issues E (logWrites s.log.start (view s) tail rest) s (writeLogLoop tail rest s) fun _ s' =>
      s'.log = s.log ∧ Cached G pin s' ∧
      ∀ c, G c ∨ 0 < pin c → (∀ t, tail ≤ t → t < tail + rest.length → c ≠ s.log.start + t + 1) →
        view s' c = view s c := by
  induction rest generalizing tail s with
  | nil => exact issues_pure ⟨rfl, h, fun _ _ _ => rfl⟩
  | cons b rest ih =>
    rw [List.length_cons] at hlog ⊢
    have hb := hpin b List.mem_cons_self
    simp only [writeLogLoop, logWrites, Routine.gets_bind]
    refine writeLog_turn hE h hb (hlog tail (le_refl _) (by omega)) ?_
    intro s1 _ hl1 hc1 hv1
    -- the blocks still to be copied are pinned: they look as before this turn
    have hsame : ∀ c ∈ rest, view s1 c = view s c := by
      intro c hc
      have hp := hpin c (List.mem_cons_of_mem _ hc)
      refine hv1 c (Or.inr hp) fun e => ?_
      have := hlog tail (le_refl _) (by omega)
      rw [← e] at this
      omega
    have hrec := ih (tail + 1) hc1 (fun c hc => hpin c (List.mem_cons_of_mem _ hc))
      fun t h1 h2 => by
        rw [hl1]
        exact hlog t (by omega) (by omega)
    rw [hl1, logWrites_congr (tail + 1) hsame] at hrec
    refine hrec.imp fun _ s2 _ hq => ⟨hq.1, hq.2.1, fun c hG hc => ?_⟩
    rw [hq.2.2 c hG fun t h1 h2 => hc t (by omega) (by omega)]
    exact hv1 c hG (hc tail (le_refl _) (by omega))

theorem writeHead_issues (hE : Crowded pin → E) (h : Cached G pin s) :
    Issues E [(s.log.start, putHead (view s s.log.start) s.log.lh)] s (writeHead s) fun _ s' =>
      s'.log = s.log ∧ Cached G pin s' ∧
      ∀ c, G c ∨ 0 < pin c → c ≠ s.log.start → view s' c = view s c := by
  unfold writeHead
  rw [Routine.gets_bind]
  refine (bread_issues (fun _ => hE) h).bind (V := [_]) fun d s1 e1 h1 => ?_
  obtain ⟨rfl, -, hv1, hl1, hc1⟩ := h1
  generalize hH : putHead (view s s.log.start) s.log.lh = H
  have hp : 0 < update pin s.log.start (pin s.log.start + 1) s.log.start := by simp
  obtain ⟨s2, r2, q2, hv2, hc2⟩ := setData_cached hc1 hp H
  refine Issues.step (W := []) r2 q2.emits ?_
  obtain ⟨r3, hv3, hc3⟩ := bwrite_cached hc2 hp
  have hvs : view s2 s.log.start = H := by rw [hv2, update_self]
  rw [hvs] at r3 hv3 hc3
  refine Issues.step (W := [(s.log.start, H)]) (V := []) r3 (emits_write _ _ _) ?_
  obtain ⟨s4, r4, q4, hv4, hc4⟩ := brelse_cached hc3 hp fun _ _ => by
    rw [hv3, hvs, Fs.write_disk, update_self]
  rw [r4]
  refine ⟨q4.emits, ?_, ?_, fun c hG hc => ?_⟩
  · rw [q4.log, Fs.write_log, q2.log, hl1]
  · simpa using hc4
  · rw [hv4, hv3, hv2, update_of_ne hc, hv1 c hG]

/-- The pins while `rest` is still to be installed: recovery has none. -/
def pinRest (recovering : Bool) (rest : List Nat) : Nat → Nat :=
  if recovering then fun _ => 0 else pinOf rest

theorem pinRest_nil (recovering : Bool) : pinRest recovering [] = fun _ => 0 := by
  cases recovering
  · exact pinOf_nil
  · rfl

theorem pinRest_notMem {rest : List Nat} {c : Nat} (h : c ∉ rest) :
    pinRest recovering rest c = 0 := by
  cases recovering <;> simp [pinRest, pinOf, h]

/-- Installing a block gives its pin back. -/
theorem pinRest_cons {rest : List Nat} (h : b ∉ rest) :
    update (pinRest recovering (b :: rest)) b
      (if recovering then pinRest recovering (b :: rest) b
        else pinRest recovering (b :: rest) b - 1) = pinRest recovering rest := by
  funext c
  cases recovering with
  | true => simp [pinRest]
  | false =>
    by_cases hcb : c = b
    · subst hcb
      simp [pinRest, pinOf, h]
    · simp [pinRest, pinOf, hcb]

theorem installLoop_issues (recovering : Bool) (tail : Nat) (rest : List Nat)
    (hE : ∀ l, l.length ≤ rest.length → Crowded (pinRest recovering l) → E)
    (hR : recovering = true → ∀ l lb, Crowded (update (pinRest recovering l) lb
      (pinRest recovering l lb + 1)) → E)
    (h : Cached G (pinRest recovering rest) s) (hnodup : rest.Nodup)
    (hlog : ∀ t, tail ≤ t → t < tail + rest.length →
      G (s.log.start + t + 1) ∧ s.log.start + t + 1 ∉ rest) :
    Issues E (installWrites s.log.start (view s) tail rest) s (installLoop recovering tail rest s)
      fun _ s' => s'.log = s.log ∧ Cached G (fun _ => 0) s' ∧
        ∀ c, G c →
          view s' c = applyWrites (view s) (installWrites s.log.start (view s) tail rest) c := by
  induction rest generalizing tail s with
  | nil =>
    rw [pinRest_nil] at h
    exact issues_pure ⟨rfl, h, fun _ _ => rfl⟩
  | cons b rest ih =>
    rw [List.length_cons] at hlog
    obtain ⟨hbr, hnr⟩ := List.nodup_cons.mp hnodup
    obtain ⟨htG, htn⟩ := hlog tail (le_refl _) (by omega)
    have hne : b ≠ s.log.start + tail + 1 := fun e => htn (e ▸ List.mem_cons_self)
    simp only [installLoop, installWrites, Routine.gets_bind]
    refine install_turn (hE _ (le_refl _)) (fun hr => hR hr _ _) h hne ?_ (pinRest_notMem htn)
      htG ?_
    · intro hr
      subst hr
      simp [pinRest, pinOf]
    · intro s1 _ hl1 hc1 hv1
      rw [pinRest_cons hbr] at hc1
      have hrec := ih (tail + 1) (fun l hl => hE l (Nat.le_succ_of_le hl)) hc1 hnr
        fun t h1 h2 => by
        rw [hl1]
        obtain ⟨hG, hn⟩ := hlog t (by omega) (by omega)
        exact ⟨hG, fun hm => hn (List.mem_cons_of_mem _ hm)⟩
      -- the log blocks look as before this turn
      have hsame : installWrites s.log.start (view s1) (tail + 1) rest =
          installWrites s.log.start (view s) (tail + 1) rest := by
        refine installWrites_congr fun t h1 h2 => ?_
        obtain ⟨hG, hn⟩ := hlog t (by omega) (by omega)
        rw [hv1 _ (Or.inl hG), update_of_ne]
        exact fun e => hn (e ▸ List.mem_cons_self)
      rw [hl1, hsame] at hrec
      refine hrec.imp fun _ s2 _ hq => ⟨hq.1, hq.2.1, fun c hG => ?_⟩
      rw [hq.2.2 c hG, applyWrites_cons]
      exact applyWrites_congr fun _ => hv1 c (Or.inl hG)

end Rules

/-! ## 4. Commit -/

/-- The blocks of the log region: the header and the log blocks. -/
def Log.region (l : Log) (c : Nat) : Prop := l.start ≤ c ∧ c ≤ l.start + LOGBLOCKS

/-- **The writes of a commit**: the logged blocks to the log, the header, the blocks to their
    home locations, the empty header. -/
def commitWrites (s : Fs) : List (Nat × Block) :=
  let head := putHead (view s s.log.start) s.log.lh
  if s.log.lh = [] then []
  else logWrites s.log.start (view s) 0 s.log.lh ++ ((s.log.start, head) ::
    (s.log.lh.map (fun b => (b, view s b)) ++ [(s.log.start, putHead head [])]))

/-- **A commit issues its writes, and the kernel sees the same contents after it.** It stops early
    only when the pinned buffers leave no other. -/
theorem commit_issues (h : Ready G s) (hG : ∀ c, s.log.region c → G c)
    (hlh : ∀ b ∈ s.log.lh, ¬ s.log.region b) :
    Issues (NBUF ≤ s.log.lh.length) (commitWrites s) s (commit s) fun _ s' =>
      s'.log = { s.log with lh := [] } ∧ Cached G (fun _ => 0) s' ∧
      ∀ c, G c → ¬ s.log.region c → view s' c = view s c := by
  have hlen := h.len
  have hcrowd : ∀ {l : List Nat}, l.length ≤ s.log.lh.length → Crowded (pinOf l) →
      NBUF ≤ s.log.lh.length := fun hl hc => le_trans (crowded_pinOf hc) hl
  unfold commit commitWrites
  rw [Routine.gets_bind]
  by_cases hnil : s.log.lh = []
  · have hz : pinOf s.log.lh = fun _ => 0 := by
      funext c
      simp [pinOf, hnil]
    rw [if_pos hnil, if_neg (by simp [hnil])]
    refine issues_pure ⟨?_, hz ▸ h.cached, fun _ _ _ => rfl⟩
    rw [← hnil]
  · rw [if_neg hnil, if_pos (List.length_pos_iff.mpr hnil)]
    have hreg : ∀ t, t < s.log.lh.length → s.log.region (s.log.start + t + 1) := fun t ht =>
      ⟨by omega, by omega⟩
    have hpin0 : ∀ c, s.log.region c → pinOf s.log.lh c = 0 := fun c hc => by
      have hn : c ∉ s.log.lh := fun hm => hlh c hm hc
      simp [pinOf, hn]
    -- write_log
    have hwl := writeLogLoop_issues 0 s.log.lh (hcrowd (le_refl _)) h.cached
      (fun b hb => by simp [pinOf, hb]) fun t _ ht => hpin0 _ (hreg t (by omega))
    refine Issues.bind (m := writeLog) hwl ?_
    rintro - s1 e1 ⟨hl1, hc1, hv1⟩
    have hstart : view s1 s.log.start = view s s.log.start :=
      hv1 _ (Or.inl (hG _ ⟨le_refl _, by omega⟩)) fun t _ _ => by omega
    have hhome1 : ∀ c, G c → ¬ s.log.region c → view s1 c = view s c := fun c hGc hc =>
      hv1 c (Or.inl hGc) fun t _ ht e => hc (e ▸ hreg t (by omega))
    -- write_head: the commit point
    have hwh := writeHead_issues (hcrowd (le_refl _)) hc1
    rw [hl1, hstart] at hwh
    refine Issues.bind (W := [_]) hwh ?_
    rintro - s2 e2 ⟨hl2, hc2, hv2⟩
    have hlogs : ∀ (i : Nat) (hi : i < s.log.lh.length),
        view s2 (s.log.start + (0 + i) + 1) = view s (s.log.lh[i]) := by
      intro i hi
      have hr := hreg i hi
      have hd := applyWrites_logWrites s.disk (view s) s.log.start 0 hi
      rw [Nat.zero_add] at hd ⊢
      rw [hv2 _ (Or.inl (hG _ hr)) (by omega), hc1.clean _ (hG _ hr) (hpin0 _ hr), e1.disk, hd]
    have hhome2 : ∀ c, G c → ¬ s.log.region c → view s2 c = view s c := fun c hGc hc => by
      rw [hv2 c (Or.inl hGc) fun e => hc ⟨by omega, by omega⟩]
      exact hhome1 c hGc hc
    -- install_trans
    have hin := installLoop_issues (s := s2) (G := G) false 0 s.log.lh
      (fun _ hl => hcrowd hl) (fun hr => by cases hr) hc2 h.nodup fun t _ ht => by
        rw [hl2]
        exact ⟨hG _ (hreg t (by omega)), fun hm => hlh _ hm (hreg t (by omega))⟩
    simp only [hl2, installWrites_eq hlogs] at hin
    have hrun : installTrans false s2 = installLoop false 0 s.log.lh s2 := by
      unfold installTrans
      rw [Routine.gets_bind, hl2]
    rw [← hrun] at hin
    refine Issues.bind hin ?_
    rintro - s3 e3 ⟨hl3, hc3, hv3⟩
    have hhead : view s3 s.log.start = putHead (view s s.log.start) s.log.lh := by
      have hr : s.log.region s.log.start := ⟨le_refl _, by omega⟩
      rw [hv3 _ (hG _ hr), applyWrites_map, if_neg fun hm => hlh _ hm hr,
        hc2.clean _ (hG _ hr) (hpin0 _ hr), e2.disk]
      exact update_self _ _ _
    -- the second write_head: the transaction is erased from the log
    refine Issues.step (W := []) (m := setLh []) rfl (emits_setLh s3 []) ?_
    have hw2 := writeHead_issues (fun hc => hcrowd (Nat.zero_le _) (pinOf_nil ▸ hc))
      (hc3.withLh [])
    simp only [withLh_log, view_withLh, hl3, hhead] at hw2
    refine hw2.imp fun _ s4 _ hq => ⟨hq.1, hq.2.1, fun c hGc hc => ?_⟩
    rw [hq.2.2 c (Or.inl hGc) fun e => hc ⟨by omega, by omega⟩, hv3 c hGc, applyWrites_map]
    split
    · rfl
    · exact hhome2 c hGc hc

/-- The home blocks on the disk after a commit. -/
theorem applyWrites_commitWrites (hlen : s.log.lh.length ≤ LOGBLOCKS) (hc : ¬ s.log.region c) :
    applyWrites s.disk (commitWrites s) c =
      if c ∈ s.log.lh then view s c else s.disk c := by
  have hcs : c ≠ s.log.start := fun e => hc ⟨by omega, by omega⟩
  unfold commitWrites
  by_cases hnil : s.log.lh = []
  · simp [hnil]
  · rw [if_neg hnil, applyWrites_append, applyWrites_cons, applyWrites_append, applyWrites_cons,
      applyWrites_nil, update_of_ne hcs, applyWrites_map]
    split
    · rfl
    · rw [update_of_ne hcs]
      refine applyWrites_notMem fun x hx e => hc ?_
      obtain ⟨t, -, ht, hx⟩ := logWrites_keys hx
      exact ⟨by omega, by omega⟩

/-- The header after the writes that end with an empty one. -/
theorem getHead_erased (disk : Nat → Block) (w : List (Nat × Block)) (start : Nat) (blk : Block) :
    getHead (applyWrites disk (w ++ [(start, putHead blk [])]) start) = [] := by
  rw [applyWrites_append, applyWrites_cons, applyWrites_nil, update_self]
  exact getHead_putHead blk (by simp) (by simp)

theorem getHead_commitWrites (h : getHead (s.disk s.log.start) = []) :
    getHead (applyWrites s.disk (commitWrites s) s.log.start) = [] := by
  unfold commitWrites
  by_cases hnil : s.log.lh = []
  · rw [if_pos hnil]
    exact h
  · rw [if_neg hnil, ← List.cons_append, ← List.append_assoc]
    exact getHead_erased ..

/-- **What a commit leaves**: an empty log, the same contents for the kernel, and the logged
    blocks on the disk. -/
structure Committed (G : Nat → Prop) (s s' : Fs) : Prop where
  sb : s'.sb = s.sb
  itable : s'.itable = s.itable
  errs : s'.checksumErrors = s.checksumErrors
  log : s'.log = ⟨s.log.start, 0, false, []⟩
  ready : Ready G s'
  view : ∀ c, G c → ¬ s.log.region c → view s' c = view s c
  disk : s'.disk = applyWrites s.disk (commitWrites s)

/-- `end_op` with other system calls in the transaction. -/
theorem endOp_more (hidle : s.log.committing = false) (hout : s.log.outstanding ≠ 1) :
    endOp s = .ok () { s with log := { s.log with outstanding := s.log.outstanding - 1 } } := by
  have h1 : ¬ s.log.outstanding - 1 = 0 := by omega
  simp [endOp, Log.endOp, hidle, h1]

/-- The state in which the last `end_op` calls `commit()`. -/
def Fs.committing (s : Fs) : Fs := { s with log := { s.log with outstanding := 0, committing := true } }

theorem endOp_last (hidle : s.log.committing = false) (hout : s.log.outstanding = 1) :
    endOp s = (do
      commit
      Routine.update fun s => { s with log := s.log.committed } : FsM Unit) s.committing := by
  simp [endOp, Log.endOp, hidle, hout, Fs.committing]

/-- **The last `end_op` of a transaction commits it.** -/
theorem endOp_commits (h : Ready G s) (hG : ∀ c, s.log.region c → G c)
    (hlh : ∀ b ∈ s.log.lh, ¬ s.log.region b) (hidle : s.log.committing = false)
    (hout : s.log.outstanding = 1) :
    (endOp s).Sat (fun _ s' => s'.writes = s.writes ++ commitWrites s ∧ Committed G s s')
      fun _ s' => NBUF ≤ s.log.lh.length ∧ ∃ w, w <+: commitWrites s ∧
        s'.writes = s.writes ++ w := by
  have h1 : Ready G s.committing := ⟨⟨h.cached.bufs, h.cached.clean⟩, h.nodup, h.len⟩
  have hi : Issues (NBUF ≤ s.log.lh.length) (commitWrites s) s.committing
      (commit s.committing) _ := commit_issues h1 hG hlh
  rw [endOp_last hidle hout]
  refine (Outcome.Sat.mono hi (fun _ _ hq => hq) fun _ s' hp => ?_).bind ?_
  · obtain ⟨hE, w, hw, bc, lh, rfl⟩ := hp
    exact ⟨hE, w, hw, rfl⟩
  · rintro - s2 ⟨⟨bc, lh, e⟩, hlog, hc, hv⟩
    have hlh : lh = [] := by
      rw [e] at hlog
      exact congrArg Log.lh hlog
    subst hlh
    subst e
    have hb : BufsOk bc (pinOf []) := by
      rw [pinOf_nil]
      exact hc.bufs
    exact ⟨rfl, rfl, rfl, rfl, rfl, ⟨⟨hb, fun c hG _ => hc.clean c hG rfl⟩, List.nodup_nil,
      Nat.zero_le _⟩, hv, rfl⟩

/-! ## 5. Recovery -/

theorem boot_cached (G : Nat → Prop) (sb : Superblock) (disk : Nat → Block) :
    Cached G (fun _ => 0) (Fs.boot sb disk) := by
  have hall : ∀ x ∈ (Fs.boot sb disk).bcache, x = ⟨none, false, 0, fun _ => 0⟩ := fun x hx => by
    rw [boot_bcache] at hx
    exact List.eq_of_mem_replicate hx
  have hnone : cachedNos (Fs.boot sb disk).bcache = [] := by
    refine List.eq_nil_iff_forall_not_mem.mpr fun b hb => ?_
    obtain ⟨x, hx, hxb⟩ := mem_cachedNos.mp hb
    rw [hall x hx] at hxb
    cases hxb
  refine ⟨⟨?_, ?_, ?_, ?_, ?_, fun b hb => absurd hb (by simp)⟩, ?_⟩
  · rw [boot_bcache, List.length_replicate]
  · rw [hnone]
    exact List.nodup_nil
  · intro x hx b hb
    rw [hall x hx] at hb
    cases hb
  · intro x hx _
    rw [hall x hx]
  · intro x hx hn
    rw [hall x hx] at hn
    exact absurd rfl hn
  · intro b _ _
    refine viewOf_notMem ?_
    rw [hnone]
    simp

/-- One reference leaves buffers for other blocks. -/
theorem not_crowded_one (lb : Nat) : ¬ Crowded (update (fun _ => 0) lb 1) := by
  rintro ⟨nos, hn, hlen, hpos⟩
  have hsub : ∀ c ∈ nos, c ∈ [lb] := by
    intro c hc
    by_contra hne
    have h0 := hpos c hc
    rw [update_of_ne (by simpa using hne)] at h0
    exact absurd h0 (by simp)
  have hle : nos.length ≤ 1 := (hn.subperm hsub).length_le
  rw [hlen] at hle
  exact absurd hle (by decide)

/-- The disk as `recover_from_log` would leave its home blocks. -/
def recovered (start : Nat) (disk : Nat → Block) : Nat → Block :=
  applyWrites disk (installWrites start disk 0 (getHead (disk start)))

/-- The header names no block twice and none of the log region. -/
structure HeadOk (start : Nat) (lh : List Nat) : Prop where
  nodup : lh.Nodup
  len : lh.length ≤ LOGBLOCKS
  home : ∀ b ∈ lh, ¬ (start ≤ b ∧ b ≤ start + LOGBLOCKS)

/-- The writes of a recovery: the installs, then the empty header. -/
def recoverWrites (start : Nat) (disk : Nat → Block) : List (Nat × Block) :=
  installWrites start disk 0 (getHead (disk start)) ++ [(start, putHead (disk start) [])]

/-- **Recovery runs to its end and issues its writes.** -/
theorem recover_issues (h : Cached (fun _ => True) (fun _ => 0) s)
    (hok : HeadOk s.log.start (getHead (s.disk s.log.start))) :
    Issues False (recoverWrites s.log.start s.disk) s (recoverFromLog s) fun _ s' =>
      s'.log = { s.log with lh := [] } ∧ Cached (fun _ => True) (fun _ => 0) s' := by
  generalize hlh : getHead (s.disk s.log.start) = lh at hok
  have hview : view s = s.disk := funext fun c => h.clean c trivial rfl
  -- read_head
  have hrd : Issues False [] s (readHead s) fun _ s' =>
      s'.log = { s.log with lh := lh } ∧ Cached (fun _ => True) (fun _ => 0) s' := by
    unfold readHead
    rw [Routine.gets_bind]
    have hb := bread_issues (E := False) (b := s.log.start)
      (fun _ hc => not_crowded_one 0 (hc.mono (le_update_succ _ 0))) h
    refine Issues.bind (V := []) hb ?_
    rintro d s1 e1 ⟨rfl, hv1, -, hl1, hc1⟩
    refine Issues.step (W := []) (V := []) (m := setLh _) rfl (emits_setLh _ _) ?_
    obtain ⟨s2, r2, q2, -, hc2⟩ := brelse_cached (hc1.withLh (getHead (view s s.log.start)))
      (b := s.log.start) (by simp) fun _ _ => by
        have hd1 : (s1.withLh (getHead (view s s.log.start))).disk = s.disk := e1.disk
        rw [view_withLh, hv1, hd1, hview]
    rw [r2]
    refine ⟨q2.emits, ?_, ?_⟩
    · rw [q2.log, withLh_log, hl1, hview, hlh]
    · simpa using hc2
  unfold recoverFromLog recoverWrites
  rw [hlh]
  refine Issues.bind (W := []) hrd ?_
  rintro - s1 e1 ⟨hl1, hc1⟩
  have hview1 : view s1 = s.disk := by
    rw [← e1.disk.trans (applyWrites_nil s.disk)]
    exact funext fun c => hc1.clean c trivial rfl
  -- install_trans
  have hin := installLoop_issues (E := False) (s := s1) (G := fun _ => True) true 0 lh
    (fun _ _ hc => not_crowded_one 0 (hc.mono (le_update_succ _ 0)))
    (fun _ _ lb => not_crowded_one lb) hc1 hok.nodup fun t _ ht => by
      rw [hl1]
      have hlen := hok.len
      exact ⟨trivial, fun hm => hok.home _ hm ⟨by dsimp only; omega, by dsimp only; omega⟩⟩
  simp only [hl1, hview1] at hin
  have hrun : installTrans true s1 = installLoop true 0 lh s1 := by
    unfold installTrans
    rw [Routine.gets_bind, hl1]
  rw [← hrun] at hin
  refine Issues.bind hin ?_
  rintro - s2 e2 ⟨hl2, hc2, hv2⟩
  have hstart : view s2 s.log.start = s.disk s.log.start := by
    rw [hv2 _ trivial]
    refine applyWrites_notMem fun x hx e => ?_
    have hm := installWrites_keys hx
    rw [e] at hm
    exact hok.home _ hm ⟨le_refl _, by omega⟩
  -- the header is cleared
  refine Issues.step (W := []) (m := setLh []) rfl (emits_setLh s2 []) ?_
  have hw2 := writeHead_issues (E := False)
    (fun hc => not_crowded_one 0 (hc.mono (le_update_succ _ 0))) (hc2.withLh [])
  simp only [withLh_log, view_withLh, hl2, hstart] at hw2
  exact hw2.imp fun _ s3 _ hq => ⟨hq.1, hq.2.1⟩

end HaiOS
