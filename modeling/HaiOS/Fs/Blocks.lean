/-
  File:      HaiOS/Fs/Blocks.lean
  Subject:   BLOCK OWNERSHIP over whole runs of the inode layer (kernel/fs.c).

  * `Step` -- calls of `writei`, `itrunc`, `ialloc`, `iput` and what goes with them, on any
    inodes and in any order; copies may fail anywhere;
  * `block_ownership` -- so after every run a block is in use if and only if it is a metadata
    block or has one place in one file.
-/
import HaiOS.Fs.Calls

namespace HaiOS.Blocks

open Lib Function

/-! ## 1. One call -/

/-- Calls that only read. When the blocks of a file do not cover its size, as an image may have
    it, they allocate blocks that only the inode in memory knows of. -/
def Reads : Call → Bool
  | .readi .. | .fverify _ => true
  | _ => false

/-- A call that returns, other than these. -/
def Step (s s' : Fs) : Prop :=
  ∃ (c : Call) (a : Answer), Reads c = false ∧ c.Legal s ∧ c.exec s = .ok a s'

/-- Blocks of files are blocks they had, or were free. -/
def Fresh (s s' : Fs) : Prop := ∀ i, ∀ b ∈ owner s' i, b ∈ owner s i ∨ bits s b = false

/-- The blocks that the buffer cache may not forget. -/
abbrev Meta (sb : Superblock) (b : Nat) : Prop := b < sb.dataStart

/-- What a call does that returns. -/
def Keeps (sb : Superblock) (s s' : Fs) : Prop := FsInv (Meta sb) s' ∧ s'.sb = sb ∧ Fresh s s'

section OneCall

variable {sb : Superblock} {s : Fs}

theorem fresh_of_dinodes {s' : Fs} (h : dinodes s' = dinodes s) : Fresh s s' := fun i b hb =>
  Or.inl (by rw [owner_congr h] at hb; exact hb)

theorem fresh_of_others {s' : Fs} {G : Nat → Prop} {i : Nat} (h : Others G i s s')
    (hi : ∀ b ∈ owner s' i, b ∈ owner s i ∨ bits s b = false) : Fresh s s' := fun j b hb => by
  by_cases hj : j = i
  · subst hj
    exact hi b hb
  · rw [h.owner hj] at hb
    exact Or.inl hb

/-- A call on the locked inode. -/
theorem locked_keeps {α : Type} {ip : Nat} {m : FsM α} (h : FsInv (Meta sb) s) (hsb : s.sb = sb)
    (hm : ∀ s1, FsInv (Meta sb) s1 → Locked s1 ip → s1.sb = sb →
      (m s1).Sat (fun _ s' => Keeps sb s1 s') fun p _ => layerPanic p = true) :
    (locked ip m s).Sat (fun _ s' => Keeps sb s s') fun p _ => layerPanic p = true := by
  refine locked_sat (fun _ _ h => h) h fun s1 ht h1 hl1 _ => ?_
  obtain ⟨hb, hd, -⟩ := h.ok.still ht (fun _ hf => hf) h1.ok.ready
  refine (hm s1 h1 hl1 (ht.sb.trans hsb)).imp fun _ s2 hk => ⟨hk.1, hk.1, hk.2.1, fun i b hi => ?_⟩
  have := hk.2.2 i b hi
  rwa [owner_congr hd, hb] at this

/-- **One call keeps the invariant and takes only free blocks**; "freeing free block" is not among
    its panics. -/
theorem exec_inv (h : FsInv (Meta sb) s) (hsb : s.sb = sb) {c : Call} (hr : Reads c = false)
    (hc : c.Legal s) :
    (c.exec s).Sat (fun _ s' => Keeps sb s s') fun p _ => layerPanic p = true := by
  have hres : ∀ p (s : Fs), resourcePanic p = true → (fun p (_ : Fs) => layerPanic p = true) p s :=
    fun _ _ => resource_layer
  have hdata : ∀ b, sb.dataStart ≤ b → ¬ Meta sb b := fun b hb hm => absurd hm (by
    omega)
  cases c with
  | beginOp =>
    refine (beginOp_inv (P := fun p _ => layerPanic p = true) h).bind ?_
    rintro _ s1 ⟨h1, k, rfl⟩
    exact ⟨h1, hsb, fresh_of_dinodes rfl⟩
  | endOp =>
    refine (endOp_inv hres h).bind fun _ s1 hq => ?_
    exact ⟨hq.1, hq.2.sb.trans hsb, fresh_of_dinodes hq.2.dinodes⟩
  | read b =>
    refine Outcome.Sat.bind (peek_inv (b := b) hres h).sat fun _ s1 hq => ?_
    refine ⟨hq.2, hq.1.sb.trans hsb, fresh_of_dinodes ?_⟩
    exact (h.ok.still hq.1 (fun _ hf => hf) hq.2.ok.ready).2.1
  | iget inum =>
    refine Outcome.Sat.bind (iget_inv hres h hc).sat ?_
    rintro ip s1 ⟨-, h1, -, rfl⟩
    exact ⟨h1, hsb, fresh_of_dinodes rfl⟩
  | idup ip =>
    refine Outcome.Sat.bind (idup_inv (P := fun p _ => layerPanic p = true) h hc).sat ?_
    rintro _ s1 ⟨-, h1, rfl⟩
    exact ⟨h1, hsb, fresh_of_dinodes rfl⟩
  | ialloc type =>
    refine Outcome.Sat.bind (ialloc_inv hres h).sat ?_
    rintro r s1 ⟨ht, h1, hq⟩
    refine ⟨h1, ht.sb.trans hsb, ?_⟩
    cases hf : freeInum s with
    | none =>
      rw [hf] at hq
      exact fresh_of_dinodes (h.ok.still hq.2 (fun _ hf => hf) h1.ok.ready).2.1
    | some i =>
      rw [hf] at hq
      obtain ⟨ip, -, -, -, hd, ho⟩ := hq
      refine fresh_of_others ho fun b hb => ?_
      rw [owner_update hd, update_self] at hb
      split at hb
      · cases hb
      · rw [show blocksOf (Dinode.fresh type).extents.1 = [] from blocksOf_none] at hb
        cases hb
  | iput ip =>
    refine Outcome.Sat.bind (iput_inv hres h).sat fun _ s1 hq => ?_
    obtain ⟨ht, h1, ho, hlast, hnot⟩ := hq
    refine ⟨h1, ht.sb.trans hsb, ?_⟩
    by_cases hl : (s.itable ip).last
    · refine fresh_of_others ho fun b hb => ?_
      rw [owner_update (hlast hl).1, update_self] at hb
      cases hb
    · rw [hnot hl]
      exact fresh_of_dinodes rfl
  | amend ip major minor nlink =>
    refine (locked_keeps h hsb fun s1 h1 hl1 hsb1 => ?_).bind fun _ _ hq => hq
    refine (amend_inv hres (links_amends major minor nlink) h1 hl1).sat.imp fun _ s2 hq => ?_
    obtain ⟨ht, h2, -, ho, hd, -⟩ := hq
    refine ⟨h2, ht.sb.trans hsb1, fresh_of_others ho fun b hb => Or.inl ?_⟩
    rw [owner_update hd, update_self] at hb
    rw [h1.owner_eq hl1]
    split at hb
    · cases hb
    · exact hb
  | writei ip src off n =>
    refine (locked_keeps h hsb fun s1 h1 hl1 hsb1 => ?_).bind fun _ _ hq => hq
    refine (writei_inv hres h1 hl1 (Or.inl (by rw [hsb1]; exact hdata))).sat.imp fun _ s2 hq => ?_
    obtain ⟨ht, h2, -, ho, hf⟩ := hq
    exact ⟨h2, ht.sb.trans hsb1, fresh_of_others ho hf⟩
  | itrunc ip =>
    refine (locked_keeps h hsb fun s1 h1 hl1 hsb1 => ?_).bind fun _ _ hq => hq
    refine (itrunc_inv hres h1 hl1).sat.imp fun _ s2 hq => ?_
    obtain ⟨ht, h2, -, ho, hd, -⟩ := hq
    refine ⟨h2, ht.sb.trans hsb1, fresh_of_others ho fun b hb => ?_⟩
    rw [owner_update hd, update_self,
      show blocksOf (s1.itable ip).truncated.din.extents.1 = [] from blocksOf_cleared _] at hb
    split at hb <;> cases hb
  | readi => cases hr
  | fverify => cases hr

end OneCall

/-! ## 2. Whole runs -/

theorem reach_inv {sb : Superblock} {disk : Nat → Block} (hc : Consistent sb disk) {s : Fs}
    (hr : Reach (· = Fs.boot sb disk) Step s) : FsInv (Meta sb) s ∧ s.sb = sb := by
  refine hr.invariant (I := fun s => FsInv (Meta sb) s ∧ s.sb = sb) ?_ ?_
  · rintro s rfl
    exact ⟨hc.boot fun b hb => hb, boot_sb sb disk⟩
  · rintro s s' ⟨h, hsb⟩ ⟨c, a, hrd, hl, hrun⟩
    have hk := (exec_inv h hsb hrd hl).of_ok hrun
    exact ⟨hk.1, hk.2.1⟩

/-- The block is at one position of the blocks of one allocated inode. -/
def CoveredOnce (s : Fs) (b : Nat) : Prop :=
  ∃! p : Nat × Nat, (dinodes s p.1).type ≠ 0 ∧ (blocksOf (dinodes s p.1).extents.1)[p.2]? = some b

theorem coveredOnce_iff {s : Fs} {b : Nat} :
    CoveredOnce s b ↔ ∃! p : Nat × Nat, (owner s p.1)[p.2]? = some b := by
  unfold CoveredOnce owner
  refine existsUnique_congr fun p => ?_
  by_cases h : (dinodes s p.1).type = 0 <;> simp [h]

/-- **Block ownership.** After every run from a consistent image: a bit is set if and only if the
    block is a metadata block or has one position in one allocated inode; no two inodes share a
    block; the allocators return free blocks only; and the next call takes free blocks only and
    does not panic with "freeing free block". -/
theorem block_ownership {sb : Superblock} {disk : Nat → Block} (hc : Consistent sb disk) {s : Fs}
    (hr : Reach (· = Fs.boot sb disk) Step s) :
    (∀ b < sb.size, bits s b = true ↔ b < sb.dataStart ∨ CoveredOnce s b) ∧
    (∀ i j, i ≠ j → ∀ b ∈ owner s i, b ∉ owner s j) ∧
    (∀ r s', balloc s = .ok r s' → r ≠ 0 → bits s r = false ∧ ∀ i, r ∉ owner s i) ∧
    (∀ b r s', ballocPrefer b s = .ok r s' → r ≠ 0 → bits s r = false ∧ ∀ i, r ∉ owner s i) ∧
    ∀ c : Call, Reads c = false → c.Legal s →
      (∀ a s', c.exec s = .ok a s' → Fresh s s') ∧
      ∀ p s', c.exec s = .fail p s' → p ≠ .freeingFreeBlock := by
  obtain ⟨h, rfl⟩ := reach_inv hc hr
  have hok := h.ok
  have hP : ∀ p (s : Fs), Exhausted p s → (fun (_ : Panic) (_ : Fs) => True) p s :=
    fun _ _ _ => trivial
  have hFall : ∀ c, (⟨fun _ => True, fun _ => True, True⟩ : Frame).blocks c := fun _ => trivial
  refine ⟨fun b hb => ?_, h.owned.disjoint, fun r s' hrun h0 => ?_, fun b r s' hrun h0 => ?_,
    fun c hrd hl => ⟨fun a s' hrun => ?_, fun p s' hrun e => ?_⟩⟩
  · rw [h.owned.exact_position, coveredOnce_iff]
    refine or_congr_left ?_
    unfold Reserved
    omega
  · have hq := ((balloc_runs hP hok.layout hok.metaIn hok.reserved hok.ready
      fun _ _ => ⟨hFall _, hFall _⟩).of_ok hrun).2
    cases hlf : lowestFree s.sb.size (bits s) with
    | none =>
      rw [hlf] at hq
      exact absurd hq.1 h0
    | some b =>
      rw [hlf] at hq
      obtain ⟨rfl, hT⟩ := hq
      exact ⟨hT.free, h.owned.not_mem_of_free hT.free⟩
  · have hq := ((ballocPrefer_runs hP hok.layout hok.metaIn hok.reserved hok.ready
      fun _ => ⟨hFall _, hFall _⟩).of_ok hrun).2
    rcases hq with ⟨h1, -⟩ | ⟨rfl, hT⟩
    · exact absurd h1 h0
    · exact ⟨hT.free, h.owned.not_mem_of_free hT.free⟩
  · exact ((exec_inv h rfl hrd hl).of_ok hrun).2.2
  · have hf := exec_inv h rfl hrd hl
    rw [hrun, e] at hf
    cases hf

/-- A small disk with one file; another file is made and gets its first byte. -/
theorem block_ownership_small :
    ∃ disk s, Consistent smallSb disk ∧ Reach (· = Fs.boot smallSb disk) Step s ∧
      owner s 1 = [35] ∧ owner s 2 = [36] ∧ CoveredOnce s 36 := by
  let d : Dinode := { Dinode.fresh T_FILE with nlink := 1, size := 5, extents := Extents.one 35 1 }
  let disk := image smallSb oneBlock (oneInode d) fun _ _ => 0
  have hc : Consistent smallSb disk := consistent_one (by decide) rfl _
  have hrun : (replay [.iget 1, .beginOp, .ialloc T_FILE, .writei 1 ⟨fun _ => 7, none⟩ 0 1]
      (Fs.boot smallSb disk)).map (fun q => (owner q.2 1, owner q.2 2, bits q.2 36)) =
      some ([35], [36], true) := by decide +kernel
  obtain ⟨⟨as, s⟩, hrep, hq⟩ := Option.map_eq_some_iff.mp hrun
  obtain ⟨h1, h2, hbit⟩ : owner s 1 = [35] ∧ owner s 2 = [36] ∧ bits s 36 = true := by simpa using hq
  obtain ⟨l, hl, hcs, -⟩ := replay_trace hrep
  have hr : Reach (· = Fs.boot smallSb disk) Step s := hl.invariant (P := fun e => Reads e.call = false)
    (fun s e s' he h hs => h.step ⟨e.call, e.answer, he, hs.legal, hs.run⟩)
    (forall_call (P := fun c => Reads c = false) hcs (by simp [Reads])) (.start rfl)
  exact ⟨disk, s, hc, hr, h1, h2, (((block_ownership hc hr).1 36 (by decide)).mp hbit).resolve_left
    (by decide)⟩

end HaiOS.Blocks
