/-
  File:      HaiOS/Dir/Logged.lean
  Subject:   WHAT THE INODE LAYER LOGS (kernel/fs.c, kernel/log.c: log_write).

  * `Logging B s` -- a transaction is open, and what it has logged is among the blocks `B`;
  * `Scene sb w B s` -- the state shows the world `w` and has logged blocks of `B`;
  * `length_touched` -- the blocks of a write: those of the range, and a bitmap block for each new one.
-/
import HaiOS.Dir.Link

namespace HaiOS

open Lib

/-! ## 1. The open transaction -/

/-- **A transaction is open and has logged blocks of `B` only.** -/
structure Logging (B : List Nat) (s : Fs) : Prop where
  op : s.log.outstanding = 1
  nodup : s.log.lh.Nodup
  sub : s.log.lh ⊆ B

/-- The block of inode `i` and the bitmap are in `B`. -/
structure Covers (sb : Superblock) (B : List Nat) (i : Nat) : Prop where
  inode : iblock sb i ∈ B
  bitmap : ∀ b < sb.size, bblock sb b ∈ B

/-- The panics for want of buffers, of room in the log or of a transaction. -/
def Wanting (p : Panic) : Prop :=
  p = .bgetNoBuffers ∨ p = .tooBigTransaction ∨ p = .logWriteOutsideOfTrans

/-- They come only when there is none. -/
def Honest (p : Panic) (s : Fs) : Prop := Wanting p → Exhausted p s

/-- A panic of those in `P`, when `n` blocks at most are logged. -/
structure Stops (n : Nat) (P : Panic → Prop) (p : Panic) (s : Fs) : Prop where
  want : P p
  honest : Honest p s
  logging : ∃ B, Logging B s ∧ B.length ≤ n

/-- **The state shows the world `w`, and has logged blocks of `B`.** -/
structure Scene (sb : Superblock) (w : World) (B : List Nat) (s : Fs) : Prop where
  sees : Sees sb w s
  logging : Logging B s

/-- The blocks `B`, and anything in memory. -/
def Frame.within (B : List Nat) : Frame := ⟨fun c => c ∈ B, fun _ => True, True⟩

section Logging

variable {sb : Superblock} {B B' : List Nat} {s s' : Fs} {p : Panic} {F : Frame}

theorem wanting_of_exhausted (h : Exhausted p s) : Wanting p := by
  rcases h with h | h | h
  · exact Or.inl h.1
  · exact Or.inr (Or.inl h.1)
  · exact Or.inr (Or.inr h.1)

theorem Wanting.resource (h : Wanting p) : resourcePanic p = true := by
  rcases h with rfl | rfl | rfl <;> rfl

theorem honest_of_exhausted (p : Panic) (s : Fs) (h : Exhausted p s) : Honest p s := fun _ => h

theorem exhausted_of_starved (p : Panic) (s : Fs) (h : Starved p s) : Exhausted p s := Or.inl h

theorem honest_other (h1 : p ≠ .bgetNoBuffers) (h2 : p ≠ .tooBigTransaction)
    (h3 : p ≠ .logWriteOutsideOfTrans) : Honest p s := by
  rintro (h | h | h)
  · exact absurd h h1
  · exact absurd h h2
  · exact absurd h h3

theorem Logging.mono (h : Logging B s) (hB : B ⊆ B') : Logging B' s :=
  ⟨h.op, h.nodup, fun _ hc => hB (h.sub hc)⟩

theorem Covers.mono {i : Nat} (h : Covers sb B i) (hB : B ⊆ B') : Covers sb B' i :=
  ⟨hB h.inode, fun b hb => hB (h.bitmap b hb)⟩

theorem Logging.touch {G : Nat → Prop} (h : Logging B s) (ht : Touch G F s s')
    (hF : ∀ c, F.blocks c → c ∈ B) : Logging B s' := by
  obtain ⟨new, hlh, hnew⟩ := ht.lh
  refine ⟨?_, ht.nodup h.nodup, fun c hc => ?_⟩
  · rw [ht.log]
    exact h.op
  · rw [hlh] at hc
    rcases List.mem_append.mp hc with hc | hc
    · exact h.sub hc
    · exact hF c (hnew c hc)

theorem Logging.length_le (h : Logging B s) : s.log.lh.length ≤ B.length :=
  (h.nodup.subperm h.sub).length_le

/-- **A transaction that has logged few blocks wants nothing.** -/
theorem Logging.not_exhausted (h : Logging B s) (hB : B.length < LOGBLOCKS) : ¬ Exhausted p s := by
  have hlen := h.length_le
  rintro (⟨-, hx⟩ | ⟨-, hx⟩ | ⟨-, hx⟩)
  · simp only [NBUF, LOGBLOCKS] at *
    omega
  · omega
  · have := h.op
    omega

variable {α : Type} {o : Outcome Panic Fs α} {Q Q' : α → Fs → Prop}

/-- What a routine with the frame `F` logs. -/
theorem Logging.runs {P : Panic → Fs → Prop} (h : Logging B s) (hr : o.Runs (Touch All F) P s Q)
    (hF : ∀ c, F.blocks c → c ∈ B) :
    o.Sat (fun a s' => Logging B s' ∧ Q a s') fun p s' => Logging B s' ∧ P p s' :=
  Outcome.Sat.mono hr (fun _ _ hq => ⟨h.touch hq.1 hF, hq.2⟩) fun _ _ hp => ⟨h.touch hp.1 hF, hp.2⟩

variable {P : Panic → Prop}

theorem Stops.of_exhausted {n : Nat} (hw : ∀ p, Wanting p → P p) (hx : Exhausted p s)
    (hl : Logging B s) (hn : B.length ≤ n) : Stops n P p s :=
  ⟨hw p (wanting_of_exhausted hx), fun _ => hx, B, hl, hn⟩

/-- **The rule of the world and the rule of the log together**, for a routine that wants nothing
    but buffers and room in the log. -/
theorem scene_of {n : Nat} (hw : ∀ p, Wanting p → P p) (h : o.Sat Q Resource)
    (hl : o.Sat (fun a s' => Logging B s' ∧ Q' a s') fun p s' => Logging B s' ∧ Exhausted p s')
    (hn : B.length ≤ n) :
    o.Sat (fun a s' => Q a s' ∧ Logging B s' ∧ Q' a s') (Stops n P) :=
  (h.both hl).mono (fun _ _ hq => hq) fun _ _ hp => .of_exhausted hw hp.2.2 hp.2.1 hn

/-- The same for a routine that may want other resources. -/
theorem scene_of_resource {n : Nat} (hres : ∀ p, resourcePanic p = true → P p)
    (h : o.Sat Q Resource)
    (hl : o.Sat (fun a s' => Logging B s' ∧ Q' a s') fun p s' => Logging B s' ∧ Honest p s')
    (hn : B.length ≤ n) :
    o.Sat (fun a s' => Q a s' ∧ Logging B s' ∧ Q' a s') (Stops n P) :=
  (h.both hl).mono (fun _ _ hq => hq) fun _ _ hp => ⟨hres _ hp.1, hp.2.2, B, hp.2.1, hn⟩

end Logging

/-! ## 2. Routines that log nothing -/

section Quiet

variable {sb : Superblock} {w : World} {B : List Nat} {s : Fs} {h : Handle} {i n : Nat}
  {name : List UInt8} {P : Panic → Prop}

theorem Scene.mono {B' : List Nat} (hs : Scene sb w B s) (hB : B ⊆ B') : Scene sb w B' s :=
  ⟨hs.sees, hs.logging.mono hB⟩

theorem Scene.seen {R : Set Nat} (hs : Scene sb w B s) (hle : R ⊆ w.read) : Scene sb (w.seen R) B s :=
  ⟨hs.sees.mono hle, hs.logging⟩

theorem unlogged_sub : ∀ c, Frame.unlogged.blocks c → c ∈ B := fun _ hc => hc.elim

theorem errors_sub : ∀ c, Frame.errors.blocks c → c ∈ B := fun _ hc => hc.elim

theorem iget_scene (hs : Scene sb w B s) (hi : i < sb.ninodes)
    (hfull : igetSlot s.itable i = none → P .igetNoInodes) (hn : B.length ≤ n) :
    (iget i s).Sat (fun ip s' => Scene sb (w.take ⟨ip, i⟩) B s') (Stops n P) := by
  have hrun := iget_sees (P := fun p s => P p ∧ Honest p s) hs.sees hi fun h0 =>
    ⟨hfull h0, honest_other nofun nofun nofun⟩
  exact (hs.logging.runs hrun unlogged_sub).mono (fun _ _ hq => ⟨hq.2, hq.1⟩) fun _ _ hp =>
    ⟨hp.2.1, hp.2.2, B, hp.1, hn⟩

theorem idup_scene (hs : Scene sb w B s) (hm : h ∈ w.held) :
    (idup h.slot s).Sat (fun ip s' => ip = h.slot ∧ Scene sb (w.take h) B s') (Stops n P) := by
  have hrun : idup h.slot s = .ok h.slot (s.setSlot h.slot (s.itable h.slot).dup) := rfl
  have hd := (idup_sees hs.sees hm).of_ok hrun
  rw [hrun]
  exact ⟨rfl, hd.2, hs.logging.touch (G := All) (touch_setSlot s h.slot _) fun _ hc => hc.elim⟩

variable (hw : ∀ p, Wanting p → P p) (hs : Scene sb w B s)
include hw hs

theorem ilock_scene (hm : h ∈ w.held)
    (ht : (w.dins h.inum).type = 0 → P .ilockNoType) (hn : B.length ≤ n) :
    (ilock h.slot s).Sat (fun _ s' => Scene sb (w.lock h.slot) B s') (Stops n P) := by
  have hrun := ilock_reads (P := fun p s => P p ∧ Honest p s)
    (fun p s hp => ⟨hw p (wanting_of_exhausted hp), fun _ => hp⟩) hs.sees hm fun h0 _ =>
      ⟨ht h0, honest_other nofun nofun nofun⟩
  exact (hs.logging.runs hrun unlogged_sub).mono (fun _ _ hq => ⟨hq.2, hq.1⟩) fun _ _ hp =>
    ⟨hp.2.1, hp.2.2, B, hp.1, hn⟩

theorem dirlookup_scene (hd : OpenDir sb w h)
    (hfull : ∀ i off s1, scan name (dirents (w.files h.inum)) = some (i, off) → Sees sb w s1 →
      igetSlot s1.itable i = none → P .igetNoInodes) (hn : B.length ≤ n) :
    (dirlookup h.slot name s).Sat (fun r s' =>
      match scan name (dirents (w.files h.inum)) with
      | none => r = none ∧ Scene sb w B s'
      | some (i, off) => ∃ ip, r = some (ip, off) ∧ Scene sb (w.take ⟨ip, i⟩) B s') (Stops n P) := by
  have hst : ∀ p s, Starved p s → P p ∧ Honest p s := fun p s hp =>
    ⟨hw p (wanting_of_exhausted (exhausted_of_starved p s hp)), fun _ => exhausted_of_starved p s hp⟩
  refine (hs.logging.runs (dirlookup_sees hst hs.sees hd fun i off s1 hsc h1 h0 =>
    ⟨hfull i off s1 hsc h1 h0, honest_other nofun nofun nofun⟩) unlogged_sub).mono (fun r s' hq => ?_)
    fun _ _ hp => ⟨hp.2.1, hp.2.2, B, hp.1, hn⟩
  obtain ⟨hlog, hq⟩ := hq
  cases hsc : scan name (dirents (w.files h.inum)) with
  | none =>
    rw [hsc] at hq
    exact ⟨hq.1, hq.2, hlog⟩
  | some r =>
    rw [hsc] at hq
    obtain ⟨ip, hr, h'⟩ := hq
    exact ⟨ip, hr, h', hlog⟩

theorem isdirempty_scene (hd : OpenDir sb w h) (hn : B.length ≤ n) :
    (isdirempty h.slot s).Sat (fun r s' =>
      (r = true ↔ ∀ e ∈ (dirents (w.files h.inum)).drop 2, e.live = false) ∧ Scene sb w B s')
      (Stops n P) := by
  have hrun := isdirempty_runs exhausted_of_starved (hs.sees.dirAt hd)
  exact (scene_of hw (isdirempty_sees hs.sees hd) (hs.logging.runs hrun errors_sub) hn).imp
    fun _ _ hq => ⟨hq.1.1, hq.1.2, hq.2.1⟩

end Quiet

/-! ## 3. Routines that log the block of their inode -/

section Inode

variable {sb : Superblock} {w : World} {B : List Nat} {s : Fs} {h : Handle} {n : Nat}
  {P : Panic → Prop}

theorem Covers.frees (hc : Covers sb B h.inum) (hs : Sees sb w s) (hm : h ∈ w.held)
    (hx : Holds s (s.itable h.slot)) : Frees (.within B) s h.slot := by
  refine ⟨fun b hb => ?_, ?_⟩ <;> rw [hs.sb]
  · exact hc.bitmap b (hs.sb ▸ (hx.data b hb).2)
  · rw [hs.inum hm]
    exact hc.inode

/-- **`iput`** logs the block of an inode that it frees, and the bitmap. -/
theorem iput_logs (hs : Scene sb w B s) (hm : h ∈ w.held)
    (hlast : (s.itable h.slot).last → Covers sb B h.inum) :
    (iput h.slot s).Sat (fun _ s' => Logging B s' ∧ True)
      fun p s' => Logging B s' ∧ Exhausted p s' := by
  have hinv := hs.sees.ok.inv
  have hholds : (s.itable h.slot).last → Holds s (s.itable h.slot) := fun hl =>
    hinv.holds ⟨hs.sees.ref_pos hm, hl.2.1⟩
  exact hs.logging.runs (F := .within B) ((iput_runs (fun _ _ hp => hp) hinv.ok hholds
    (fun hl => (hlast hl).frees hs.sees hm (hholds hl)) trivial).imp fun _ _ _ _ => trivial) fun _ hc => hc

/-- The code tests the fields in memory. -/
theorem Sees.last_of_memory (hs : Sees sb w s) (hm : h ∈ w.held) (hl : (s.itable h.slot).last) :
    w.Last h := by
  refine ⟨by rw [← hs.refs.count hm]; exact hl.1, ?_⟩
  have hdin : (s.itable h.slot).din = w.dins h.inum := by
    rw [hs.ok.inv.din_eq ⟨hs.ref_pos hm, hl.2.1⟩, hs.inum hm, hs.dins]
  rw [← hdin]
  exact hl.2.2

theorem iput_scene (hw : ∀ p, Wanting p → P p) (hs : Scene sb w B s) (hm : h ∈ w.held)
    (hlast : w.Last h → h.slot ∈ w.read ∧ Covers sb B h.inum) (hn : B.length ≤ n) :
    (iput h.slot s).Sat (fun _ s' => Scene sb (w.put h) B s') (Stops n P) :=
  (scene_of hw (iput_sees hs.sees hm fun hl => (hlast hl).1)
    (iput_logs hs hm fun hl => (hlast (hs.sees.last_of_memory hm hl)).2) hn).imp
    fun _ _ hq => ⟨hq.1, hq.2.1⟩

/-- **A reference that was taken before is dropped**, and nothing is logged. -/
theorem iput_back_scene {R : Set Nat} (hP : ∀ p, Wanting p → P p) (hw : w.Closed)
    (hs : Scene sb ((w.take h).seen R) B s) (hR : w.read ⊆ R) (hk : w.Kept h) (hn : B.length ≤ n) :
    (iput h.slot s).Sat (fun _ s' => Scene sb w B s') (Stops n P) :=
  (scene_of hP (iput_back hw hs.sees hR hk)
    (iput_logs hs (Multiset.mem_cons_self h w.held) fun hl => absurd hl (hk.not_last hs.sees)) hn).imp
    fun _ _ hq => ⟨hq.1, hq.2.1⟩

/-- **Assign to fields of the inode, then `iupdate`.** -/
theorem amend_scene {f : Dinode → Dinode} (hw : ∀ p, Wanting p → P p) (hf : Dinode.Amends f) (hs : Scene sb w B s)
    (hm : h ∈ w.held) (hr : h.slot ∈ w.read) (hb : iblock sb h.inum ∈ B) (hn : B.length ≤ n) :
    (amend h.slot f s).Sat (fun _ s' => Scene sb (w.setDin h.inum (f (w.dins h.inum))) B s')
      (Stops n P) := by
  have hrun : (amend h.slot f s).Runs (Touch All (.within B)) Exhausted s fun _ _ => True := by
    refine touch_bind (Frame.slot_le trivial) (setInode_runs _) fun _ s1 ht1 hq1 => ?_
    have hinum : (s1.itable h.slot).inum = h.inum := by
      rw [hq1, setSlot_itable, Function.update_self]
      exact hs.sees.inum hm
    have hsb : s1.sb = sb := ht1.sb.trans hs.sees.sb
    have hok : FsOk All s1 := by
      rw [hq1]
      exact hs.sees.ok.inv.ok.setSlot _ _
    refine ((iupdate_runs (fun _ _ hp => hp) hok.mounted (by
      rw [hinum, hsb]
      exact hs.sees.inum_lt hm)).mono (fun _ ht => ht.mono (Frame.block_le ?_)) fun _ _ hp => hp).imp
      fun _ _ _ _ => trivial
    rw [hinum, hsb]
    exact hb
  exact (scene_of hw (amend_sees hf hs.sees hm hr) (hs.logging.runs hrun fun _ hc => hc) hn).imp
    fun _ _ hq => ⟨hq.1, hq.2.1⟩

/-- **`itrunc`**. -/
theorem itrunc_scene (hw : ∀ p, Wanting p → P p) (hs : Scene sb w B s) (hm : h ∈ w.held) (hr : h.slot ∈ w.read)
    (hc : Covers sb B h.inum) (hn : B.length ≤ n) :
    (itrunc h.slot s).Sat
      (fun _ s' => Scene sb (w.setFile h.inum (w.dins h.inum).truncated []) B s') (Stops n P) := by
  have hinv := hs.sees.ok.inv
  have hx := hinv.holds (hs.sees.locked hr)
  have hrun : (itrunc h.slot s).Runs (Touch All (.within B)) Exhausted s fun _ _ => True :=
    (itrunc_runs (fun _ _ hp => hp) hinv.ok hx (hc.frees hs.sees hm hx) trivial).imp
      fun _ _ _ _ => trivial
  exact (scene_of hw (itrunc_sees hs.sees hm hr) (hs.logging.runs hrun fun _ hc => hc) hn).imp
    fun _ _ hq => ⟨hq.1, hq.2.1⟩

theorem got_inum {t : Nat → Inode} {i ip : Nat} (hslot : igetSlot t i = some ip) :
    ((t ip).got i).inum = i := by
  unfold Inode.got
  rcases (igetSlot_some hslot).2 with ⟨hr, hi⟩ | ⟨h0, -⟩
  · rw [if_pos hr]
    exact hi
  · rw [if_neg (by omega)]
    rfl

/-- **`ialloc`** logs the block of the new inode. -/
theorem ialloc_scene {type : Int16} (hres : ∀ p, resourcePanic p = true → P p) (hs : Scene sb w B s) (hn : B.length + 1 ≤ n) :
    (ialloc type s).Sat (fun r s' => match r with
      | none => Scene sb w B s'
      | some ip => ∃ i, 1 ≤ i ∧ i < sb.ninodes ∧ (w.dins i).type = 0 ∧
          Scene sb ((w.take ⟨ip, i⟩).setDin i (Dinode.fresh type)) (iblock sb i :: B) s')
      (Stops n P) := by
  have hinv := hs.sees.ok.inv
  cases hf : freeInum s with
  | none =>
    have hrun : (ialloc type s).Runs (Touch All .unlogged) Honest s (Iallocs All type s (freeInum s)) :=
      ialloc_runs honest_of_exhausted hinv.ok (fun i hi => by rw [hf] at hi; cases hi)
        fun _ => honest_other nofun nofun nofun
    refine (scene_of_resource hres (ialloc_sees hs.sees) (hs.logging.runs hrun unlogged_sub) (by omega)).imp
      fun r s' hq => ?_
    obtain ⟨hsees, hlog, hr⟩ := hq
    rw [hf] at hr
    obtain ⟨rfl, -⟩ := hr
    exact ⟨hsees.2, hlog⟩
  | some i =>
    have hl : Logging (iblock sb i :: B) s := hs.logging.mono (List.subset_cons_self _ _)
    have hrun : (ialloc type s).Runs (Touch All (.within (iblock sb i :: B))) Honest s
        (Iallocs All type s (freeInum s)) := by
      refine ialloc_runs honest_of_exhausted hinv.ok (fun j hj => ?_) fun _ =>
        honest_other nofun nofun nofun
      rw [hf] at hj
      cases hj
      rw [hs.sees.sb]
      exact ⟨List.mem_cons_self, fun _ _ => trivial⟩
    refine (scene_of_resource hres (ialloc_sees hs.sees) (hl.runs hrun fun _ hc => hc) (by
      rw [List.length_cons]
      exact hn)).imp fun r s' hq => ?_
    obtain ⟨hsees, hlog, hr⟩ := hq
    rw [hf] at hr
    obtain ⟨ip, rfl, hslot, hit, -⟩ := hr
    obtain ⟨j, h1, h2, h0, hw⟩ := hsees
    -- both speak of the inode in the slot
    have hji : j = i := by
      have hj : (s'.itable ip).inum = j := hw.inum (Multiset.mem_cons_self _ _)
      rw [hit, Function.update_self, got_inum hslot] at hj
      exact hj.symm
    subst hji
    exact ⟨j, h1, h2, h0, hw, hlog⟩

end Inode

/-! ## 4. Writes -/

theorem length_grow (size m : Nat) (used : Nat → Bool) (es : Extents) :
    (grow size m used es).new.length ≤ m := by
  induction m generalizing used es with
  | zero => exact Nat.le_refl 0
  | succ m ih =>
    rcases grow_succ size m used es with ⟨-, hg⟩ | ⟨b, -, -, hg⟩ | ⟨b, es1, -, -, hg⟩
    · rw [hg]
      exact Nat.zero_le _
    · rw [hg]
      exact Nat.succ_le_succ (Nat.zero_le _)
    · rw [hg, List.length_cons]
      exact Nat.succ_le_succ (ih _ _)

/-- The data blocks that a write logs: new ones, and those that it overwrites. -/
def written (s : Fs) (ip : Nat) (off n : UInt32) : List Nat :=
  let hi := off.toNat + n.toNat
  (writePlan s ip hi).new ++
    ((blocksOf (s.itable ip).din.extents.1).take ((hi + BSIZE - 1) / BSIZE)).drop (off.toNat / BSIZE)

section Written

variable {s : Fs} {ip : Nat} {off n : UInt32}

/-- **No more data blocks than the range has.** -/
theorem length_written (hs : Sound (s.itable ip).din) (hoff : off.toNat ≤ (s.itable ip).din.size.toNat) :
    (written s ip off n).length ≤
      (off.toNat + n.toNat + BSIZE - 1) / BSIZE - off.toNat / BSIZE := by
  have hnew := length_grow s.sb.size (needed (off.toNat + n.toNat)
    (blocksOf (s.itable ip).din.extents.1).length) (bits s) (s.itable ip).din.extents
  have hcov := hs.covered
  unfold written
  rw [List.length_append, List.length_drop, List.length_take]
  unfold writePlan growTo
  unfold needed at hnew ⊢
  simp only [BSIZE] at *
  omega

/-- The other blocks are the one of the inode and those of the bitmap. -/
theorem touched_sub {B : List Nat} (hi : iblock s.sb (s.itable ip).inum ∈ B)
    (hb : ∀ b ∈ (writePlan s ip (off.toNat + n.toNat)).new, bblock s.sb b ∈ B) :
    touched s ip off n ⊆ written s ip off n ++ B := by
  intro c hc
  unfold touched at hc
  unfold written
  simp only [List.mem_cons, List.mem_append, List.mem_map] at hc ⊢
  rcases hc with rfl | hc | ⟨b, hb', rfl⟩ | hc
  · exact Or.inr hi
  · exact Or.inl (Or.inl hc)
  · exact Or.inr (hb b hb')
  · exact Or.inl (Or.inr hc)

end Written

section Entries

variable {sb : Superblock} {w : World} {B : List Nat} {s : Fs} {h : Handle} {n : Nat}
  {name : List UInt8} {P : Panic → Prop}

/-- **What a write logs.** -/
theorem writei_logs {src : Src} {off m : UInt32} (hs : Scene sb w B s) (hm : h ∈ w.held)
    (hr : h.slot ∈ w.read) (hc : Covers sb B h.inum) (hwhole : src.Whole m.toNat 0 off.toNat) :
    (writei h.slot src off m s).Sat (fun _ s' => Logging (written s h.slot off m ++ B) s')
      fun p s' => Logging (written s h.slot off m ++ B) s' ∧ Honest p s' := by
  have hinv := hs.sees.ok.inv
  have hl := hs.sees.locked hr
  have hsound := hs.sees.ok.sound_eq hl
  have hrun := writei_runs (G := All) honest_of_exhausted hinv.ok (hinv.holds hl) hsound (Or.inr hwhole)
    (writeFrame_ok hsound) List.mem_cons_self fun _ => honest_other nofun nofun nofun
  refine ((hs.logging.mono (List.subset_append_right _ _)).runs hrun fun c hin => ?_).imp
    fun _ _ hq => hq.1
  refine touched_sub ?_ (fun b hb' => ?_) hin
  · rw [hs.sees.sb, hs.sees.inum hm]
    exact hc.inode
  · have hlt := ((grow_fresh (bits_outside s) _).2 b hb').2
    rw [hs.sees.sb] at hlt ⊢
    exact hc.bitmap b hlt

theorem exists_single {l : List Nat} (hl : l.length ≤ 1) : ∃ b, l ⊆ [b] := by
  match l, hl with
  | [], _ => exact ⟨0, List.nil_subset _⟩
  | [b], _ => exact ⟨b, List.Subset.refl _⟩

/-- **An entry is written**: one block of the directory is logged. -/
theorem putDirent_scene {de : Dirent} {k : Nat} (hres : ∀ p, resourcePanic p = true → P p)
    (hs : Scene sb w B s) (hd : OpenDir sb w h)
    (hde : de.name.length = DIRSIZ) (hk : k ≤ (dirents (w.files h.inum)).length)
    (hc : Covers sb B h.inum) (hn : B.length + 1 ≤ n) :
    (putDirent h.slot de (DIRENT_SIZE * k) s).Sat (fun r s' => ∃ b,
      (r = true ∧ ∃ d', (w.dins h.inum).Linked d' ∧ Scene sb (w.setFile h.inum d'
        (overwrite (w.files h.inum) (DIRENT_SIZE * k) de.bytes)) (b :: B) s') ∨
      (r = false ∧ k = (dirents (w.files h.inum)).length ∧ ∃ d', (w.dins h.inum).Resummed d' ∧
        Scene sb (w.setDin h.inum d') (b :: B) s')) (Stops n P) := by
  have hat := hs.sees.dirAt hd
  have hl := hs.sees.locked hd.read
  obtain ⟨hle, hoff⟩ := hat.off hk
  have hin : (UInt32.ofNat (DIRENT_SIZE * k)).toNat ≤ (s.itable h.slot).din.size.toNat := by
    rw [hoff, hat.size]
    exact hle
  have hlen := length_written (n := 16) (hs.sees.ok.sound_eq hl) hin
  obtain ⟨b, hsub⟩ := exists_single (l := written s h.slot (UInt32.ofNat (DIRENT_SIZE * k)) 16) (by
    refine le_trans hlen ?_
    rw [hoff, show (16 : UInt32).toNat = 16 from rfl]
    simp only [DIRENT_SIZE, BSIZE]
    omega)
  have hsubB : written s h.slot (UInt32.ofNat (DIRENT_SIZE * k)) 16 ++ B ⊆ b :: B := by
    intro c hc
    rcases List.mem_append.mp hc with hc | hc
    · rw [List.mem_singleton.mp (hsub hc)]
      exact List.mem_cons_self
    · exact List.mem_cons_of_mem _ hc
  have hlogs : (putDirent h.slot de (DIRENT_SIZE * k) s).Sat (fun _ s' => Logging (b :: B) s' ∧ True)
      fun p s' => Logging (b :: B) s' ∧ Honest p s' := by
    refine ((writei_logs hs hd.held hd.read hc fun _ e => by cases e).mono
      (fun _ _ hq => hq.mono hsubB) fun _ _ hp => ⟨hp.1.mono hsubB, hp.2⟩).bind fun _ _ hq => ⟨hq, trivial⟩
  refine (scene_of_resource hres (putDirent_sees hs.sees hd hde hk) hlogs hn).imp fun r s' hq => ⟨b, ?_⟩
  obtain ⟨hsees, hlog, -⟩ := hq
  rcases hsees with ⟨hr, d', hlink, h'⟩ | ⟨hr, hend, d', hsum, h'⟩
  · exact Or.inl ⟨hr, d', hlink, h', hlog⟩
  · exact Or.inr ⟨hr, hend, d', hsum, h', hlog⟩

/-- **The name is not there**: a new entry is written, or there is no block for it. -/
theorem dirlinkNew_scene {inum : Nat} (hres : ∀ p, resourcePanic p = true → P p)
    (hs : Scene sb w B s) (hd : OpenDir sb w h)
    (hc : Covers sb B h.inum) (hn : B.length + 1 ≤ n) :
    (dirlinkNew h.slot name inum s).Sat (fun r s' => ∃ b,
      (r = -1 ∧ ∃ d', (w.dins h.inum).Resummed d' ∧ Scene sb (w.setDin h.inum d') (b :: B) s') ∨
      (r = 0 ∧ ∃ d' k, (w.dins h.inum).Linked d' ∧ k ≤ (dirents (w.files h.inum)).length ∧
        (∀ e, (dirents (w.files h.inum))[k]? = some e → e.live = false) ∧
        Scene sb (w.setFile h.inum d'
          (overwrite (w.files h.inum) (DIRENT_SIZE * k) (newDirent name inum).bytes)) (b :: B) s'))
      (Stops n P) := by
  have hat := hs.sees.dirAt hd
  simp only [dirlinkNew, inode, Routine.gets_bind]
  have hspot := emptySpot_runs (k := 0) exhausted_of_starved hat (Nat.zero_le _) hat.fuel
  refine ((hs.logging.runs hspot errors_sub).mono (fun _ _ hq => hq) fun _ _ hp =>
    .of_exhausted (fun p hp => hres p hp.resource) hp.2 hp.1 (by omega)).bind fun off s1 hq => ?_
  obtain ⟨hlog1, ⟨k, rfl, hk, hfree⟩, hread⟩ := hq
  have h1 : Scene sb w B s1 := ⟨hs.sees.of_same hread.read.same hread.itable, hlog1⟩
  refine (putDirent_scene hres h1 hd (length_strncpy _ _) hk hc hn).bind fun done s2 hq2 => ?_
  obtain ⟨b, ⟨rfl, d', hlink, h2⟩ | ⟨rfl, -, d', hsum, h2⟩⟩ := hq2
  · exact ⟨b, Or.inr ⟨rfl, d', k, hlink, hk, hfree, h2⟩⟩
  · exact ⟨b, Or.inl ⟨rfl, d', hsum, h2⟩⟩

end Entries

end HaiOS
