/-
  File:      HaiOS/Fs/Bio.lean
  Subject:   THE BUFFER CACHE (kernel/bio.c) and `log_write` (kernel/log.c).

  The cache is the list of the `NBUF` buffers in LRU order. What the rest of the file system
  needs of it is said here once:

  * `view` -- the contents of a block as the kernel sees them: the cached copy if there is one,
    the disk otherwise;
  * `Cached G held` -- a buffer's `refcnt` counts its pin by the log and the routines in `held`
    that have it, and an unpinned, unheld buffer of a block in `G` is a copy of the disk. So
    recycling such a buffer loses nothing. `G` is every block as long as all that is written
    to a buffer is logged;
  * `Touch` -- the frame: the blocks and inode slots a routine may change.
-/
import HaiOS.Fs.State
import Mathlib.Data.List.Dedup
import Mathlib.Data.List.Perm.Subperm
import Mathlib.Logic.Function.Basic

namespace HaiOS

open Lib Function

/-! ## 1. The routines of bio.c -/

/-- `bget`'s first loop: the buffer that holds block `b`. -/
def findBuf (l : List Buf) (b : Nat) : Option Buf := l.find? fun x => decide (x.blockno = some b)

/-- Change the buffer that holds block `b`. -/
def modifyBuf (b : Nat) (f : Buf → Buf) : List Buf → List Buf
  | [] => []
  | x :: l => if x.blockno = some b then f x :: l else x :: modifyBuf b f l

/-- `bget`'s second loop: change the least recently used buffer with `refcnt == 0`. -/
def recycle (f : Buf → Buf) : List Buf → Option (List Buf)
  | [] => none
  | x :: l =>
    match recycle f l with
    | some l' => some (x :: l')
    | none => if x.refcnt = 0 then some (f x :: l) else none

def bget (b : Nat) : FsM Unit := fun s =>
  match findBuf s.bcache b with
  | some _ =>
    .ok () { s with bcache := modifyBuf b (fun x => { x with refcnt := x.refcnt + 1 }) s.bcache }
  | none =>
    match recycle (fun x => { x with blockno := some b, valid := false, refcnt := 1 })
        s.bcache with
    | some l => .ok () { s with bcache := l }
    | none => .fail .bgetNoBuffers s

/-- `bp->data` of the buffer of block `b`. -/
def bufData (s : Fs) (b : Nat) : Block := ((findBuf s.bcache b).map Buf.data).getD fun _ => 0

/-- `if(!b->valid) { virtio_disk_rw(b, 0); b->valid = 1; }` -/
def fill (b : Nat) : FsM Unit := Routine.update fun s =>
  let f := fun x : Buf => if x.valid then x else { x with data := s.disk b, valid := true }
  { s with bcache := modifyBuf b f s.bcache }

/-- The locked buffer of block `b`; the value is its `data`. -/
def bread (b : Nat) : FsM Block := do
  bget b
  fill b
  Routine.gets fun s => bufData s b

/-- Assign to `bp->data`. -/
def setData (b : Nat) (d : Block) : FsM Unit := Routine.update fun s =>
  { s with bcache := modifyBuf b (fun x => { x with data := d }) s.bcache }

/-- The block `d` reaches the disk as block `b`. -/
def Fs.write (s : Fs) (b : Nat) (d : Block) : Fs :=
  { s with disk := update s.disk b d, writes := s.writes ++ [(b, d)] }

@[simp] theorem Fs.write_disk (s : Fs) (b : Nat) (d : Block) :
    (s.write b d).disk = update s.disk b d := rfl

@[simp] theorem Fs.write_log (s : Fs) (b : Nat) (d : Block) : (s.write b d).log = s.log := rfl

/-- `virtio_disk_rw(b, 1)`. -/
def bwrite (b : Nat) : FsM Unit := Routine.update fun s => s.write b (bufData s b)

/-- Unlink the buffer of `b` and put it behind `bcache.head`. -/
def toFront (b : Nat) (l : List Buf) : List Buf :=
  l.filter (fun x => decide (x.blockno = some b)) ++
    l.filter (fun x => !decide (x.blockno = some b))

def brelse (b : Nat) : FsM Unit := Routine.update fun s =>
  let l := modifyBuf b (fun x => { x with refcnt := x.refcnt - 1 }) s.bcache
  { s with bcache := if (findBuf l b).map Buf.refcnt = some 0 then toFront b l else l }

def bpin (b : Nat) : FsM Unit := Routine.update fun s =>
  { s with bcache := modifyBuf b (fun x => { x with refcnt := x.refcnt + 1 }) s.bcache }

def bunpin (b : Nat) : FsM Unit := Routine.update fun s =>
  { s with bcache := modifyBuf b (fun x => { x with refcnt := x.refcnt - 1 }) s.bcache }

/-- `log_write` of the buffer of block `b`. -/
def logWrite (b : Nat) : FsM Unit := fun s =>
  match s.log.logWrite b with
  | .error p => .fail p s
  | .ok (l, true) => bpin b { s with log := l }
  | .ok (l, false) => .ok () { s with log := l }

/-- The idiom of log.c for a buffer that is held: modify `bp->data`, `log_write(bp)`,
    `brelse(bp)`. -/
def logUpdate (b : Nat) (d : Block) : FsM Unit := do
  setData b d
  logWrite b
  brelse b

/-- Modify `bp->data` of a buffer that is held and `brelse(bp)`, without `log_write`. -/
def abandon (b : Nat) (d : Block) : FsM Unit := do
  setData b d
  brelse b

/-! ## 2. Lists of buffers

Every routine replaces one buffer and may move it. So the lemmas speak of the list up to
order: `l` is `x` and the rest `r`, and after the routine it is `x'` and `r`. -/

variable {l r l' : List Buf} {b : Nat} {x : Buf}

theorem findBuf_some (h : findBuf l b = some x) :
    x ∈ l ∧ x.blockno = some b := by
  have hp := List.find?_some h
  exact ⟨List.mem_of_find?_eq_some h, by simpa using hp⟩

theorem findBuf_none (h : findBuf l b = none) :
    ∀ x ∈ l, x.blockno ≠ some b := by
  intro x hx
  have := List.find?_eq_none.mp h x hx
  simpa using this

theorem findBuf_cons_self (h : x.blockno = some b) :
    findBuf (x :: r) b = some x := by
  simp [findBuf, h]

theorem findBuf_cons_ne (h : x.blockno ≠ some b) :
    findBuf (x :: r) b = findBuf r b := by
  simp [findBuf, h]

/-- The block numbers in the cache. -/
def cachedNos (l : List Buf) : List Nat := l.filterMap Buf.blockno

theorem mem_cachedNos : b ∈ cachedNos l ↔ ∃ x ∈ l, x.blockno = some b := by
  simp [cachedNos]

/-- No two buffers hold the same block, so the block decides the buffer. -/
theorem findBuf_of_mem (hn : (cachedNos l).Nodup) (hx : x ∈ l) (hb : x.blockno = some b) :
    findBuf l b = some x := by
  induction l with
  | nil => cases hx
  | cons y l ih =>
    by_cases hy : y.blockno = some b
    · -- a second buffer of block `b` would repeat its number
      rcases List.mem_cons.mp hx with rfl | hxl
      · exact findBuf_cons_self hb
      · exfalso
        have hnot : b ∉ cachedNos l := by
          simp only [cachedNos, List.filterMap_cons, hy, List.nodup_cons] at hn
          exact hn.1
        exact hnot (mem_cachedNos.mpr ⟨x, hxl, hb⟩)
    · rcases List.mem_cons.mp hx with rfl | hxl
      · exact absurd hb hy
      · have hn' : (cachedNos l).Nodup := by
          unfold cachedNos at hn ⊢
          rw [List.filterMap_cons] at hn
          split at hn
          · exact hn
          · exact (List.nodup_cons.mp hn).2
        rw [findBuf_cons_ne hy]
        exact ih hn' hxl

theorem findBuf_perm (hn : (cachedNos l).Nodup) (hp : l.Perm l') (b : Nat) :
    findBuf l b = findBuf l' b := by
  have hn' : (cachedNos l').Nodup := (hp.filterMap _).nodup_iff.mp hn
  cases h : findBuf l b with
  | none =>
    symm
    apply List.find?_eq_none.mpr
    intro x hx
    simpa using findBuf_none h x (hp.mem_iff.mpr hx)
  | some x =>
    obtain ⟨hx, hb⟩ := findBuf_some h
    exact (findBuf_of_mem hn' (hp.mem_iff.mp hx) hb).symm

theorem modifyBuf_perm (f : Buf → Buf) (h : findBuf l b = some x) :
    ∃ r, l.Perm (x :: r) ∧ (modifyBuf b f l).Perm (f x :: r) := by
  induction l with
  | nil => cases h
  | cons y l ih =>
    by_cases hy : y.blockno = some b
    · rw [findBuf_cons_self hy] at h
      obtain rfl : y = x := Option.some.inj h
      exact ⟨l, List.Perm.refl _, by simp [modifyBuf, hy]⟩
    · rw [findBuf_cons_ne hy] at h
      obtain ⟨r, h1, h2⟩ := ih h
      refine ⟨y :: r, (h1.cons y).trans (List.Perm.swap x y r), ?_⟩
      simp only [modifyBuf, hy, if_false]
      exact (h2.cons y).trans (List.Perm.swap (f x) y r)

/-- The buffer of block `b` is changed, the others stay. -/
theorem modifyBuf_set (f : Buf → Buf) (hn : (cachedNos l).Nodup) (hl : l.Perm (x :: r))
    (hb : x.blockno = some b) :
    (modifyBuf b f l).Perm (f x :: r) := by
  have hx : findBuf l b = some x := findBuf_of_mem hn (hl.mem_iff.mpr List.mem_cons_self) hb
  obtain ⟨r', h1, h2⟩ := modifyBuf_perm f hx
  have hr : r'.Perm r := (h1.symm.trans hl).cons_inv
  exact h2.trans (hr.cons _)

theorem recycle_perm {f : Buf → Buf} (h : recycle f l = some l') :
    ∃ x r, l.Perm (x :: r) ∧ l'.Perm (f x :: r) ∧ x.refcnt = 0 := by
  induction l generalizing l' with
  | nil => cases h
  | cons y l ih =>
    simp only [recycle] at h
    split at h
    · rename_i l1 hl1
      obtain ⟨x, r, h1, h2, h0⟩ := ih hl1
      obtain rfl : y :: l1 = l' := Option.some.inj h
      exact ⟨x, y :: r, (h1.cons y).trans (List.Perm.swap x y r),
        (h2.cons y).trans (List.Perm.swap (f x) y r), h0⟩
    · split at h
      · rename_i h0
        obtain rfl : f y :: l = l' := Option.some.inj h
        exact ⟨y, l, List.Perm.refl _, List.Perm.refl _, h0⟩
      · cases h

theorem recycle_none {f : Buf → Buf} (h : recycle f l = none) :
    ∀ x ∈ l, x.refcnt ≠ 0 := by
  induction l with
  | nil => simp
  | cons y l ih =>
    simp only [recycle] at h
    split at h
    · cases h
    · rename_i hl
      split at h
      · cases h
      · rename_i h0
        intro x hx
        rcases List.mem_cons.mp hx with rfl | hxl
        · exact h0
        · exact ih hl x hxl

theorem toFront_perm (b : Nat) (l : List Buf) : (toFront b l).Perm l :=
  List.filter_append_perm _ l

/-! ## 3. Reference counts and contents -/

/-- **The cache is consistent**, with `pin b` references to the buffer of block `b`. -/
structure BufsOk (l : List Buf) (pin : Nat → Nat) : Prop where
  count : l.length = NBUF
  nodup : (cachedNos l).Nodup
  refs : ∀ x ∈ l, ∀ b, x.blockno = some b → x.refcnt = pin b
  unused : ∀ x ∈ l, x.blockno = none → x.refcnt = 0
  valid : ∀ x ∈ l, x.blockno ≠ none → x.valid = true
  cached : ∀ b, 0 < pin b → b ∈ cachedNos l

/-- What the kernel sees of block `b`. -/
def viewOf (l : List Buf) (disk : Nat → Block) (b : Nat) : Block :=
  ((findBuf l b).map Buf.data).getD (disk b)

section Replace

variable {l l' r : List Buf} {x x' : Buf} {b : Nat} {pin : Nat → Nat} {disk : Nat → Block}

theorem BufsOk.exists_perm (h : BufsOk l pin) (hb : 0 < pin b) :
    ∃ x r, l.Perm (x :: r) ∧ x.blockno = some b := by
  obtain ⟨x, hx, hxb⟩ := mem_cachedNos.mp (h.cached b hb)
  obtain ⟨l1, l2, rfl⟩ := List.append_of_mem hx
  exact ⟨x, l1 ++ l2, List.perm_middle, hxb⟩

theorem cachedNos_perm (hl : l.Perm l') : (cachedNos l).Perm (cachedNos l') := hl.filterMap _

section

variable (h : BufsOk l pin) (hl : l.Perm (x :: r))
include h hl

theorem BufsOk.ne_of_mem_rest (hb : x.blockno = some b)
    {y : Buf} (hy : y ∈ r) : y.blockno ≠ some b := by
  intro hyb
  have hn := (cachedNos_perm hl).nodup_iff.mp h.nodup
  simp only [cachedNos, List.filterMap_cons, hb, List.nodup_cons] at hn
  exact hn.1 (List.mem_filterMap.mpr ⟨y, hy, hyb⟩)

/-- **Changing the count and the contents of one buffer.** -/
theorem BufsOk.set (hb : x.blockno = some b)
    (hl' : l'.Perm (x' :: r)) (hb' : x'.blockno = some b) (hv : x'.valid = true) :
    BufsOk l' (update pin b x'.refcnt) := by
  have hnos : (cachedNos l').Perm (cachedNos l) := by
    refine (cachedNos_perm hl').trans ?_
    refine List.Perm.trans ?_ (cachedNos_perm hl).symm
    simp [cachedNos, hb, hb']
  have hmem : ∀ y ∈ l', y = x' ∨ (y ∈ r ∧ y ∈ l) := by
    intro y hy
    rcases List.mem_cons.mp (hl'.mem_iff.mp hy) with e | hr
    · exact Or.inl e
    · exact Or.inr ⟨hr, hl.mem_iff.mpr (List.mem_cons_of_mem _ hr)⟩
  refine ⟨?_, hnos.nodup_iff.mpr h.nodup, ?_, ?_, ?_, ?_⟩
  · rw [← h.count, hl'.length_eq, hl.length_eq]
    rfl
  · intro y hy c hc
    rcases hmem y hy with rfl | ⟨hr, hyl⟩
    · obtain rfl : b = c := Option.some.inj (hb'.symm.trans hc)
      simp
    · have hcb : c ≠ b := fun e => h.ne_of_mem_rest hl hb hr (e ▸ hc)
      rw [update_of_ne hcb]
      exact h.refs y hyl c hc
  · intro y hy hc
    rcases hmem y hy with rfl | ⟨-, hyl⟩
    · rw [hb'] at hc
      cases hc
    · exact h.unused y hyl hc
  · intro y hy hc
    rcases hmem y hy with rfl | ⟨-, hyl⟩
    · exact hv
    · exact h.valid y hyl hc
  · intro c hc
    rw [hnos.mem_iff]
    by_cases hcb : c = b
    · subst hcb
      exact mem_cachedNos.mpr ⟨x, hl.mem_iff.mpr List.mem_cons_self, hb⟩
    · rw [update_of_ne hcb] at hc
      exact h.cached c hc

/-- **Loading block `b` into an unreferenced buffer.** -/
theorem BufsOk.load (h0 : x.refcnt = 0)
    (hb : b ∉ cachedNos l) (hl' : l'.Perm (x' :: r)) (hb' : x'.blockno = some b)
    (hv : x'.valid = true) : BufsOk l' (update pin b x'.refcnt) := by
  have hsub : ∀ y ∈ r, y ∈ l := fun y hy => hl.mem_iff.mpr (List.mem_cons_of_mem _ hy)
  have hrest : ∀ y ∈ r, y.blockno ≠ some b := fun y hy e =>
    hb (mem_cachedNos.mpr ⟨y, hsub y hy, e⟩)
  have hmem : ∀ y ∈ l', y = x' ∨ y ∈ r := fun y hy => List.mem_cons.mp (hl'.mem_iff.mp hy)
  refine ⟨?_, ?_, ?_, ?_, ?_, ?_⟩
  · rw [← h.count, hl'.length_eq, hl.length_eq]
    rfl
  · have hn := (cachedNos_perm hl).nodup_iff.mp h.nodup
    have hnr : (cachedNos r).Nodup :=
      hn.sublist ((List.sublist_cons_self x r).filterMap _)
    rw [(cachedNos_perm hl').nodup_iff]
    simp only [cachedNos, List.filterMap_cons, hb', List.nodup_cons]
    exact ⟨fun hm => by
      obtain ⟨y, hy, hyb⟩ := mem_cachedNos.mp hm
      exact hrest y hy hyb, hnr⟩
  · intro y hy c hc
    rcases hmem y hy with rfl | hr
    · obtain rfl : b = c := Option.some.inj (hb'.symm.trans hc)
      simp
    · have hcb : c ≠ b := fun e => hrest y hr (e ▸ hc)
      rw [update_of_ne hcb]
      exact h.refs y (hsub y hr) c hc
  · intro y hy hc
    rcases hmem y hy with rfl | hr
    · rw [hb'] at hc
      cases hc
    · exact h.unused y (hsub y hr) hc
  · intro y hy hc
    rcases hmem y hy with rfl | hr
    · exact hv
    · exact h.valid y (hsub y hr) hc
  · intro c hc
    rw [mem_cachedNos]
    by_cases hcb : c = b
    · subst hcb
      exact ⟨x', hl'.mem_iff.mpr List.mem_cons_self, hb'⟩
    · -- a block that is referenced was not in the recycled buffer
      rw [update_of_ne hcb] at hc
      obtain ⟨y, hy, hyc⟩ := mem_cachedNos.mp (h.cached c hc)
      rcases List.mem_cons.mp (hl.mem_iff.mp hy) with rfl | hr
      · have := h.refs y hy c hyc
        omega
      · exact ⟨y, hl'.mem_iff.mpr (List.mem_cons_of_mem _ hr), hyc⟩

theorem BufsOk.viewOf_mem (hb : x.blockno = some b) : viewOf l disk b = x.data := by
  unfold viewOf
  rw [findBuf_of_mem h.nodup (hl.mem_iff.mpr List.mem_cons_self) hb]
  rfl

end

theorem viewOf_notMem (hb : b ∉ cachedNos l) : viewOf l disk b = disk b := by
  have hf : findBuf l b = none := by
    apply List.find?_eq_none.mpr
    intro y hy
    have : y.blockno ≠ some b := fun e => hb (mem_cachedNos.mpr ⟨y, hy, e⟩)
    simpa using this
  simp [viewOf, hf]

/-- A block that neither of the two buffers holds looks the same. -/
theorem viewOf_rest (hn : (cachedNos l).Nodup) (hn' : (cachedNos l').Nodup) (hl : l.Perm (x :: r))
    (hl' : l'.Perm (x' :: r)) {c : Nat} (hc : x.blockno ≠ some c) (hc' : x'.blockno ≠ some c) :
    viewOf l' disk c = viewOf l disk c := by
  unfold viewOf
  rw [findBuf_perm hn hl, findBuf_perm hn' hl', findBuf_cons_ne hc, findBuf_cons_ne hc']

end Replace

/-- What the kernel sees of block `b`: the cached copy, or else the disk. -/
def view (s : Fs) (b : Nat) : Block := viewOf s.bcache s.disk b

/-- **The cache is consistent, with `pin b` references to the buffer of block `b`, and an
    unreferenced buffer of a block in `G` is a copy of the disk.** -/
structure Cached (G : Nat → Prop) (pin : Nat → Nat) (s : Fs) : Prop where
  bufs : BufsOk s.bcache pin
  clean : ∀ b, G b → pin b = 0 → view s b = s.disk b

/-- `NBUF` blocks are referenced: no buffer is left for another one. -/
def Crowded (pin : Nat → Nat) : Prop :=
  ∃ nos : List Nat, nos.Nodup ∧ nos.length = NBUF ∧ ∀ b ∈ nos, 0 < pin b

theorem BufsOk.crowded {pin : Nat → Nat} (h : BufsOk l pin) (hall : ∀ x ∈ l, x.refcnt ≠ 0) :
    Crowded pin := by
  refine ⟨cachedNos l, h.nodup, ?_, ?_⟩
  · rw [← h.count]
    unfold cachedNos
    rw [List.filterMap_length_eq_length]
    intro x hx
    have hsome : x.blockno ≠ none := fun e => hall x hx (h.unused x hx e)
    exact Option.isSome_iff_ne_none.mpr hsome
  · intro b hb
    obtain ⟨x, hx, hxb⟩ := mem_cachedNos.mp hb
    have h1 := h.refs x hx b hxb
    have h2 := hall x hx
    omega

/-! ## 4. Frames -/

/-- What a routine may change: blocks, slots of the inode table, the error counter. -/
structure Frame where
  blocks : Nat → Prop
  slots : Nat → Prop
  errs : Prop

namespace Frame

def nothing : Frame := ⟨fun _ => False, fun _ => False, False⟩

/-- One block. -/
def block (b : Nat) : Frame := ⟨fun c => c = b, fun _ => False, False⟩

structure Le (F F' : Frame) : Prop where
  blocks : ∀ b, F.blocks b → F'.blocks b
  slots : ∀ i, F.slots i → F'.slots i
  errs : F.errs → F'.errs

theorem Le.refl (F : Frame) : F.Le F := ⟨fun _ h => h, fun _ h => h, fun h => h⟩

theorem nothing_le (F : Frame) : nothing.Le F := ⟨fun _ h => h.elim, fun _ h => h.elim, fun h => h.elim⟩

theorem block_le {F : Frame} {b : Nat} (h : F.blocks b) : (block b).Le F :=
  ⟨fun c e => by subst e; exact h, fun _ h => h.elim, fun h => h.elim⟩

end Frame

/-- **`s'` comes from `s` by changes inside the frame.** Nothing is written to the disk; blocks
    are only added to the log, and only those of the frame. The buffer of a block outside `G` may be
    recycled, and what is on the disk is seen again. -/
structure Touch (G : Nat → Prop) (F : Frame) (s s' : Fs) : Prop where
  sb : s'.sb = s.sb
  disk : s'.disk = s.disk
  writes : s'.writes = s.writes
  log : s'.log = { s.log with lh := s'.log.lh }
  lh : ∃ new, s'.log.lh = s.log.lh ++ new ∧ ∀ b ∈ new, F.blocks b
  nodup : s.log.lh.Nodup → s'.log.lh.Nodup
  seen : ∀ b, ¬ F.blocks b → view s' b = view s b ∨ ¬ G b ∧ view s' b = s.disk b
  slots : ∀ i, ¬ F.slots i → s'.itable i = s.itable i
  errs : ¬ F.errs → s'.checksumErrors = s.checksumErrors

namespace Touch

variable {G : Nat → Prop} {F F' : Frame} {s s' s'' : Fs}

theorem refl (s : Fs) : Touch G F s s :=
  ⟨rfl, rfl, rfl, rfl, ⟨[], by simp, by simp⟩, fun h => h, fun _ _ => Or.inl rfl, fun _ _ => rfl,
    fun _ => rfl⟩

section

variable (h : Touch G F s s')
include h

/-- The blocks of `G` outside the frame stay. -/
theorem view (b : Nat) (hG : G b) (hb : ¬ F.blocks b) : HaiOS.view s' b = HaiOS.view s b :=
  (h.seen b hb).resolve_right fun hn => hn.1 hG

theorem trans (h' : Touch G F s' s'') : Touch G F s s'' := by
  obtain ⟨l1, e1, m1⟩ := h.lh
  obtain ⟨l2, e2, m2⟩ := h'.lh
  refine ⟨h'.sb.trans h.sb, h'.disk.trans h.disk, h'.writes.trans h.writes, ?_,
    ⟨l1 ++ l2, ?_, ?_⟩, fun hn => h'.nodup (h.nodup hn), ?_, ?_, ?_⟩
  · rw [h'.log, h.log]
  · rw [e2, e1, List.append_assoc]
  · intro b hb
    rcases List.mem_append.mp hb with hb | hb
    · exact m1 b hb
    · exact m2 b hb
  · intro b hb
    rcases h'.seen b hb with e | ⟨hG, e⟩
    · rw [e]
      exact h.seen b hb
    · exact Or.inr ⟨hG, by rw [e, h.disk]⟩
  · exact fun i hi => (h'.slots i hi).trans (h.slots i hi)
  · exact fun hn => (h'.errs hn).trans (h.errs hn)

theorem mono (hle : F.Le F') : Touch G F' s s' := by
  obtain ⟨l, e, m⟩ := h.lh
  exact ⟨h.sb, h.disk, h.writes, h.log, ⟨l, e, fun b hb => hle.blocks b (m b hb)⟩, h.nodup,
    fun b hb => h.seen b fun hf => hb (hle.blocks b hf),
    fun i hi => h.slots i fun hf => hi (hle.slots i hf), fun hn => h.errs fun hf => hn (hle.errs hf)⟩

/-- With no block in the frame the log stays. -/
theorem weaken {G' : Nat → Prop} (hG : ∀ c, ¬ F.blocks c → G' c → G c) : Touch G' F s s' :=
  ⟨h.sb, h.disk, h.writes, h.log, h.lh, h.nodup, fun c hc =>
    (h.seen c hc).imp id fun e => ⟨fun hG' => e.1 (hG c hc hG'), e.2⟩, h.slots, h.errs⟩

theorem log_eq (hF : ∀ b, ¬ F.blocks b) : s'.log = s.log := by
  obtain ⟨l, e, m⟩ := h.lh
  have hl : l = [] := List.eq_nil_iff_forall_not_mem.mpr fun b hb => hF b (m b hb)
  rw [h.log, e, hl, List.append_nil]

theorem mem_lh {b : Nat} (hb : b ∈ s.log.lh) : b ∈ s'.log.lh := by
  obtain ⟨l, e, -⟩ := h.lh
  rw [e]
  exact List.mem_append_left _ hb

theorem itable_eq (hF : ∀ i, ¬ F.slots i) : s'.itable = s.itable :=
  funext fun i => h.slots i (hF i)

end

/-- A block is changed after a step that changes nothing. -/
theorem update_view (h : Touch G .nothing s s') {b : Nat} {d : Block} {c : Nat} (hG : G c) :
    update (HaiOS.view s') b d c = update (HaiOS.view s) b d c := by
  by_cases hcb : c = b
  · subst hcb
    rw [update_self, update_self]
  · rw [update_of_ne hcb, update_of_ne hcb]
    exact h.view c hG fun hf => hf

end Touch

variable {P : Panic → Fs → Prop}

/-- **The rule for sequences of file system routines**: a part with a smaller frame first. -/
theorem touch_bind {α β : Type} {G : Nat → Prop} {F F' : Frame} {s : Fs} {m : FsM α} {f : α → FsM β}
    {Q : α → Fs → Prop} {Q' : β → Fs → Prop} (hle : F'.Le F) (h : (m s).Runs (Touch G F') P s Q)
    (hf : ∀ a s', Touch G F' s s' → Q a s' → (f a s').Runs (Touch G F) P s' Q') :
    ((m >>= f) s).Runs (Touch G F) P s Q' := by
  have h1 : (m s).Runs (Touch G F) P s fun a s' => Touch G F' s s' ∧ Q a s' :=
    Outcome.Sat.mono h (fun a s' hq => ⟨hq.1.mono hle, hq⟩) fun p s' hp => ⟨hp.1.mono hle, hp.2⟩
  exact Outcome.Runs.bind Touch.trans h1 fun a s' _ hq => hf a s' hq.1 hq.2

theorem touch_pure {α : Type} {G : Nat → Prop} {F : Frame} {s : Fs} {a : α} {Q : α → Fs → Prop}
    (h : Q a s) : ((pure a : FsM α) s).Runs (Touch G F) P s Q :=
  runs_pure Touch.refl h

/-! ## 5. One rule for each routine -/

section Rules

variable {G : Nat → Prop} {F : Frame} {P : Panic → Fs → Prop} {pin : Nat → Nat} {s : Fs} {b : Nat}

variable {l' l r : List Buf}

/-- A change of the cache alone. -/
theorem touch_bcache {l' : List Buf}
    (hview : ∀ c, ¬ F.blocks c →
      viewOf l' s.disk c = view s c ∨ ¬ G c ∧ viewOf l' s.disk c = s.disk c) :
    Touch G F s { s with bcache := l' } :=
  ⟨rfl, rfl, rfl, rfl, ⟨[], by simp, by simp⟩, fun h => h, hview, fun _ _ => rfl, fun _ => rfl⟩

theorem bufData_of_perm {x : Buf} (hs : s.bcache = l) (hn : (cachedNos l).Nodup)
    (hl : l.Perm (x :: r)) (hb : x.blockno = some b) : bufData s b = x.data := by
  unfold bufData
  rw [hs, findBuf_of_mem hn (hl.mem_iff.mpr List.mem_cons_self) hb]
  rfl

/-- `bread` of a block that is cached: one more reference. -/
theorem bread_hit {x : Buf} (h : BufsOk s.bcache pin) (hl : s.bcache.Perm (x :: r))
    (hb : x.blockno = some b) : ∃ l', bread b s = .ok x.data { s with bcache := l' } ∧
      l'.Perm ({ x with refcnt := x.refcnt + 1 } :: r) := by
  have hx : x ∈ s.bcache := hl.mem_iff.mpr List.mem_cons_self
  have hf : findBuf s.bcache b = some x := findBuf_of_mem h.nodup hx hb
  have hv : x.valid = true := h.valid x hx (by rw [hb]; simp)
  have h1 := modifyBuf_set (fun x => { x with refcnt := x.refcnt + 1 }) h.nodup hl hb
  have ok1 := h.set hl hb h1 hb hv
  -- the buffer is valid, so nothing is read
  have h2 := modifyBuf_set
    (fun x => if x.valid then x else { x with data := s.disk b, valid := true }) ok1.nodup h1 hb
  dsimp only at h2
  rw [if_pos hv] at h2
  have ok2 := h.set hl hb h2 hb hv
  refine ⟨_, ?_, h2⟩
  have hd := bufData_of_perm (s := { s with bcache := _ }) rfl ok2.nodup h2 hb
  simp only [bread, bget, Routine.bind_run, hf, fill, Routine.update, Routine.gets]
  exact congrArg (fun d => Outcome.ok d _) hd

/-- `bread` of a block that is not cached: an unreferenced buffer is recycled, or there is
    none. -/
theorem bread_miss (h : BufsOk s.bcache pin) (hb : b ∉ cachedNos s.bcache) :
    (∃ x r l', s.bcache.Perm (x :: r) ∧ x.refcnt = 0 ∧
      bread b s = .ok (s.disk b) { s with bcache := l' } ∧
      l'.Perm (⟨some b, true, 1, s.disk b⟩ :: r)) ∨
    (Crowded pin ∧ bread b s = .fail .bgetNoBuffers s) := by
  have hf : findBuf s.bcache b = none := by
    cases hc : findBuf s.bcache b with
    | none => rfl
    | some x =>
      obtain ⟨hx, hxb⟩ := findBuf_some hc
      exact absurd (mem_cachedNos.mpr ⟨x, hx, hxb⟩) hb
  cases hr : recycle (fun x => { x with blockno := some b, valid := false, refcnt := 1 })
      s.bcache with
  | none =>
    refine Or.inr ⟨h.crowded (recycle_none hr), ?_⟩
    simp only [bread, bget, Routine.bind_run, hf, hr]
  | some l1 =>
    obtain ⟨x, r, hl, h1, h0⟩ := recycle_perm hr
    have hn1 : (cachedNos l1).Nodup := by
      have ok := h.load hl h0 hb (List.Perm.refl (⟨some b, true, 1, x.data⟩ :: r)) rfl rfl
      rw [(cachedNos_perm h1).nodup_iff]
      exact ok.nodup
    have h2 := modifyBuf_set
      (fun x => if x.valid then x else { x with data := s.disk b, valid := true }) hn1 h1 rfl
    simp only [Bool.false_eq_true, if_false] at h2
    have ok2 := h.load hl h0 hb h2 rfl rfl
    have hd := bufData_of_perm (s := { s with bcache := _ }) rfl ok2.nodup h2 rfl
    refine Or.inl ⟨x, r, _, hl, h0, ?_, h2⟩
    simp only [bread, bget, Routine.bind_run, hf, hr, fill, Routine.update, Routine.gets]
    exact congrArg (fun d => Outcome.ok d _) hd

/-- **`bread`** returns what the kernel sees of the block and takes a reference to it. It cannot
    fail for a block that is referenced already. -/
theorem bread_runs (hP : pin b = 0 → Crowded pin → P .bgetNoBuffers s) (h : Cached G pin s) :
    (bread b s).Runs (Touch G .nothing) P s fun d s' =>
      d = view s b ∧ view s' b = view s b ∧ (∀ c, 0 < pin c → view s' c = view s c) ∧
      Cached G (update pin b (pin b + 1)) s' := by
  by_cases hc : b ∈ cachedNos s.bcache
  · obtain ⟨x, hx, hb⟩ := mem_cachedNos.mp hc
    obtain ⟨l1, l2, e⟩ := List.append_of_mem hx
    have hl : s.bcache.Perm (x :: (l1 ++ l2)) := by
      rw [e]
      exact List.perm_middle
    obtain ⟨l', hrun, hl'⟩ := bread_hit h.bufs hl hb
    have ok := h.bufs.set hl hb hl' hb (h.bufs.valid x hx (by rw [hb]; simp))
    have hview : ∀ c, viewOf l' s.disk c = view s c := by
      intro c
      by_cases hcb : c = b
      · subst hcb
        rw [ok.viewOf_mem hl' hb, view, h.bufs.viewOf_mem hl hb]
      · have hne : x.blockno ≠ some c := by
          rw [hb]
          exact fun e => hcb (Option.some.inj e).symm
        exact viewOf_rest h.bufs.nodup ok.nodup hl hl' hne hne
    rw [h.bufs.refs x hx b hb] at ok
    rw [hrun]
    refine ⟨touch_bcache fun c _ => Or.inl (hview c), ?_, hview b, fun c _ => hview c, ok, ?_⟩
    · rw [view, h.bufs.viewOf_mem hl hb]
    · intro c hG hp
      have hcb : c ≠ b := fun e => by subst e; simp at hp
      rw [update_of_ne hcb] at hp
      exact (hview c).trans (h.clean c hG hp)
  · have hpb : pin b = 0 := by
      by_contra hp
      exact hc (h.bufs.cached b (Nat.pos_of_ne_zero hp))
    rcases bread_miss h.bufs hc with ⟨x, r, l', hl, h0, hrun, hl'⟩ | ⟨hcr, hrun⟩
    · have ok := h.bufs.load hl h0 hc hl' rfl rfl
      have hx : x ∈ s.bcache := hl.mem_iff.mpr List.mem_cons_self
      have hself : viewOf l' s.disk b = s.disk b := ok.viewOf_mem hl' rfl
      have hb : view s b = s.disk b := viewOf_notMem hc
      -- the recycled buffer held an unreferenced block, which looks the same on the disk
      have hseen : ∀ c,
          viewOf l' s.disk c = view s c ∨ pin c = 0 ∧ viewOf l' s.disk c = s.disk c := by
        intro c
        by_cases hcb : c = b
        · subst hcb
          rw [hself, hb]
          exact Or.inl rfl
        · have hne : (⟨some b, true, 1, s.disk b⟩ : Buf).blockno ≠ some c :=
            fun e => hcb (Option.some.inj e).symm
          by_cases hxc : x.blockno = some c
          · have hp : pin c = 0 := by rw [← h.bufs.refs x hx c hxc, h0]
            refine Or.inr ⟨hp, viewOf_notMem fun hm => ?_⟩
            obtain ⟨y, hy, hyc⟩ := mem_cachedNos.mp hm
            rcases List.mem_cons.mp (hl'.mem_iff.mp hy) with rfl | hyr
            · exact hne hyc
            · exact h.bufs.ne_of_mem_rest hl hxc hyr hyc
          · exact Or.inl (viewOf_rest h.bufs.nodup ok.nodup hl hl' hxc hne)
      have hview : ∀ c, G c ∨ 0 < pin c → viewOf l' s.disk c = view s c := fun c hG =>
        (hseen c).elim id fun ⟨hp, e⟩ => by rw [e, h.clean c (hG.resolve_right (by omega)) hp]
      rw [hrun]
      refine ⟨touch_bcache fun c _ => ?_, hb.symm, hself.trans hb.symm,
        fun c hp => hview c (Or.inr hp), ?_, ?_⟩
      · by_cases hG : G c
        · exact Or.inl (hview c (Or.inl hG))
        · exact (hseen c).imp id fun e => ⟨hG, e.2⟩
      · rw [hpb]
        exact ok
      · intro c hG hp
        have hcb : c ≠ b := fun e => by subst e; simp at hp
        rw [update_of_ne hcb] at hp
        exact (hview c (Or.inl hG)).trans (h.clean c hG hp)
    · rw [hrun]
      exact ⟨Touch.refl s, hP hpb hcr⟩

/-- A new count for the buffer of a referenced block. -/
theorem BufsOk.recount (h : BufsOk l pin) (hp : 0 < pin b) (k : Nat → Nat)
    (hl' : l'.Perm (modifyBuf b (fun x => { x with refcnt := k x.refcnt }) l)) :
    BufsOk l' (update pin b (k (pin b))) ∧
    ∀ disk c, viewOf l' disk c = viewOf l disk c := by
  obtain ⟨x, r, hl, hb⟩ := h.exists_perm hp
  have hx : x ∈ l := hl.mem_iff.mpr List.mem_cons_self
  have h1 := hl'.trans (modifyBuf_set (fun x => { x with refcnt := k x.refcnt }) h.nodup hl hb)
  have ok := h.set hl hb h1 hb (h.valid x hx (by rw [hb]; simp))
  rw [h.refs x hx b hb] at ok
  refine ⟨ok, fun disk c => ?_⟩
  by_cases hcb : c = b
  · subst hcb
    rw [ok.viewOf_mem h1 hb, h.viewOf_mem hl hb]
  · have hne : x.blockno ≠ some c := by
      rw [hb]
      exact fun e => hcb (Option.some.inj e).symm
    exact viewOf_rest h.nodup ok.nodup hl h1 hne hne

/-- New contents for the buffer of a referenced block. -/
theorem BufsOk.redata (h : BufsOk l pin) (hp : 0 < pin b) (d : Block) :
    BufsOk (modifyBuf b (fun x => { x with data := d }) l) pin ∧
    ∀ disk, viewOf (modifyBuf b (fun x => { x with data := d }) l) disk =
      update (viewOf l disk) b d := by
  obtain ⟨x, r, hl, hb⟩ := h.exists_perm hp
  have hx : x ∈ l := hl.mem_iff.mpr List.mem_cons_self
  have h1 := modifyBuf_set (fun x => { x with data := d }) h.nodup hl hb
  have ok := h.set hl hb h1 hb (h.valid x hx (by rw [hb]; simp))
  rw [h.refs x hx b hb, update_eq_self] at ok
  refine ⟨ok, fun disk => funext fun c => ?_⟩
  by_cases hcb : c = b
  · subst hcb
    rw [ok.viewOf_mem h1 hb, update_self]
  · have hne : x.blockno ≠ some c := by
      rw [hb]
      exact fun e => hcb (Option.some.inj e).symm
    rw [update_of_ne hcb]
    exact viewOf_rest h.nodup ok.nodup hl h1 hne hne

theorem brelse_perm (b : Nat) (l : List Buf) :
    (if (findBuf l b).map Buf.refcnt = some 0 then toFront b l else l).Perm l := by
  split
  · exact toFront_perm b l
  · exact List.Perm.refl l

theorem BufsOk.bufData_eq (h : BufsOk s.bcache pin) (hp : 0 < pin b) : bufData s b = view s b := by
  obtain ⟨x, r, hl, hb⟩ := h.exists_perm hp
  rw [bufData_of_perm rfl h.nodup hl hb, view, h.viewOf_mem hl hb]

/-- `s'` is `s` but for the buffers. -/
def Recached (s s' : Fs) : Prop := ∃ l, s' = { s with bcache := l }

variable {s' : Fs}

theorem Recached.disk (h : Recached s s') : s'.disk = s.disk := by
  obtain ⟨l, rfl⟩ := h
  rfl

theorem Recached.log (h : Recached s s') : s'.log = s.log := by
  obtain ⟨l, rfl⟩ := h
  rfl

theorem Recached.touch (h : Recached s s') (hview : ∀ c, ¬ F.blocks c → view s' c = view s c) :
    Touch G F s s' := by
  obtain ⟨l, rfl⟩ := h
  exact touch_bcache fun c hc => Or.inl (hview c hc)

section

variable (h : Cached G pin s) (hp : 0 < pin b) (hc : pin b = 1 → G b → view s b = s.disk b)
include h hp hc

/-- The buffer of block `b` loses a reference; when that was the last one it is a copy of the
    disk. -/
theorem Cached.unpin
    (hl' : l'.Perm (modifyBuf b (fun x => { x with refcnt := x.refcnt - 1 }) s.bcache)) :
    view { s with bcache := l' } = view s ∧
    Cached G (update pin b (pin b - 1)) { s with bcache := l' } := by
  obtain ⟨ok, hview⟩ := h.bufs.recount hp (fun k => k - 1) hl'
  refine ⟨funext (hview s.disk), ok, fun c hG h0 => (hview s.disk c).trans ?_⟩
  by_cases hcb : c = b
  · subst hcb
    rw [update_self] at h0
    exact hc (by omega) hG
  · rw [update_of_ne hcb] at h0
    exact h.clean c hG h0

theorem brelse_cached :
    ∃ s', brelse b s = .ok () s' ∧ Recached s s' ∧ view s' = view s ∧
      Cached G (update pin b (pin b - 1)) s' :=
  ⟨_, rfl, ⟨_, rfl⟩, h.unpin hp hc (brelse_perm b _)⟩

theorem bunpin_cached :
    ∃ s', bunpin b s = .ok () s' ∧ Recached s s' ∧ view s' = view s ∧
      Cached G (update pin b (pin b - 1)) s' :=
  ⟨_, rfl, ⟨_, rfl⟩, h.unpin hp hc (List.Perm.refl _)⟩

end

theorem setData_cached (h : Cached G pin s) (hp : 0 < pin b) (d : Block) :
    ∃ s', setData b d s = .ok () s' ∧ Recached s s' ∧ view s' = update (view s) b d ∧
      Cached G pin s' := by
  obtain ⟨ok, hview⟩ := h.bufs.redata hp d
  refine ⟨_, rfl, ⟨_, rfl⟩, hview s.disk, ok, fun c hG h0 => ?_⟩
  have hcb : c ≠ b := fun e => by
    subst e
    omega
  refine (congrFun (hview s.disk) c).trans ?_
  rw [update_of_ne hcb]
  exact h.clean c hG h0

/-- **`bwrite`** puts on the disk what the kernel sees of the block. -/
theorem bwrite_cached (h : Cached G pin s) (hp : 0 < pin b) :
    bwrite b s = .ok () (s.write b (view s b)) ∧ view (s.write b (view s b)) = view s ∧
      Cached G pin (s.write b (view s b)) := by
  have hview : ∀ c, viewOf s.bcache (update s.disk b (view s b)) c = view s c := by
    intro c
    by_cases hcb : c = b
    · subst hcb
      obtain ⟨x, r, hl, hb⟩ := h.bufs.exists_perm hp
      rw [h.bufs.viewOf_mem hl hb, view, h.bufs.viewOf_mem hl hb]
    · simp [view, viewOf, update_of_ne hcb]
  refine ⟨?_, funext hview, h.bufs, fun c hG h0 => (hview c).trans ?_⟩
  · simp only [bwrite, Routine.update, h.bufs.bufData_eq hp]
  · have hcb : c ≠ b := fun e => by
      subst e
      omega
    rw [h.clean c hG h0]
    exact (update_of_ne hcb _ _).symm

/-! ### Between transactions' commits: the log pins the blocks in it -/

/-- The pins of the log. -/
def pinOf (lh : List Nat) (b : Nat) : Nat := if b ∈ lh then 1 else 0

theorem pinOf_nil : pinOf [] = fun _ => 0 := funext fun c => by simp [pinOf]

/-- **No routine holds a buffer.** -/
structure Ready (G : Nat → Prop) (s : Fs) : Prop where
  cached : Cached G (pinOf s.log.lh) s
  nodup : s.log.lh.Nodup
  len : s.log.lh.length ≤ LOGBLOCKS

theorem Ready.mono {G G' : Nat → Prop} {s : Fs} (h : Ready G s) (hle : ∀ c, G' c → G c) :
    Ready G' s :=
  ⟨⟨h.cached.bufs, fun c hc => h.cached.clean c (hle c hc)⟩, h.nodup, h.len⟩

/-- **A routine holds the buffer of block `b`** and has not changed it. -/
structure Holding (G : Nat → Prop) (b : Nat) (s : Fs) : Prop where
  cached : Cached G (update (pinOf s.log.lh) b (pinOf s.log.lh b + 1)) s
  nodup : s.log.lh.Nodup
  len : s.log.lh.length ≤ LOGBLOCKS
  clean : G b → b ∉ s.log.lh → view s b = s.disk b

/-- The file system runs out of buffers or of log space, or logs outside of a transaction. -/
def Exhausted (p : Panic) (s : Fs) : Prop :=
  (p = .bgetNoBuffers ∧ NBUF ≤ s.log.lh.length) ∨
  (p = .tooBigTransaction ∧ LOGBLOCKS ≤ s.log.lh.length) ∨
  (p = .logWriteOutsideOfTrans ∧ s.log.outstanding < 1)

/-- The part of it that a read can meet: all buffers are pinned by the log. -/
def Starved (p : Panic) (s : Fs) : Prop := p = .bgetNoBuffers ∧ NBUF ≤ s.log.lh.length

theorem starved_of {P : Panic → Fs → Prop} (hP : ∀ p s, Exhausted p s → P p s) :
    ∀ p s, Starved p s → P p s := fun p s h => hP p s (Or.inl h)

/-- The log grows by blocks of the frame only. -/
theorem Touch.length_lh {F : Frame} {L : List Nat} (h : Touch G F s s') (hn : s.log.lh.Nodup)
    (hF : ∀ c, F.blocks c → c ∈ L) :
    s'.log.lh.length ≤ (s.log.lh ++ L).dedup.length := by
  obtain ⟨new, hlh, hnew⟩ := h.lh
  have hsub : s'.log.lh ⊆ (s.log.lh ++ L).dedup := by
    intro c hc
    rw [hlh] at hc
    rw [List.mem_dedup, List.mem_append]
    exact (List.mem_append.mp hc).imp id fun hm => hF c (hnew c hm)
  exact ((h.nodup hn).subperm hsub).length_le

/-- A transaction with room for the blocks of the frame is not exhausted. -/
theorem Touch.not_exhausted {F : Frame} {L : List Nat} {p : Panic} (h : Touch G F s s')
    (hn : s.log.lh.Nodup) (hF : ∀ c, F.blocks c → c ∈ L) (hout : 1 ≤ s.log.outstanding)
    (hroom : (s.log.lh ++ L).dedup.length < LOGBLOCKS) : ¬ Exhausted p s' := by
  have hlen := h.length_lh hn hF
  have hout' : s'.log.outstanding = s.log.outstanding := by rw [h.log]
  rintro (⟨-, hx⟩ | ⟨-, hx⟩ | ⟨-, hx⟩)
  · simp only [NBUF, LOGBLOCKS] at *
    omega
  · omega
  · omega

theorem crowded_pinOf {lh : List Nat} (h : Crowded (pinOf lh)) : NBUF ≤ lh.length := by
  obtain ⟨nos, hn, hlen, hpos⟩ := h
  rw [← hlen]
  refine (hn.subperm fun b hb => ?_).length_le
  have := hpos b hb
  unfold pinOf at this
  split at this
  · assumption
  · omega

theorem Ready.clean (h : Ready G s) (hG : G b) (hb : b ∉ s.log.lh) : view s b = s.disk b :=
  h.cached.clean b hG (by simp [pinOf, hb])

/-- **`bread`** when no buffer is held. -/
theorem bread_ready (hS : ∀ p s, Starved p s → P p s) (h : Ready G s) : (bread b s).Runs (Touch G .nothing) P s fun d s' =>
    d = view s b ∧ view s' b = view s b ∧ Holding G b s' := by
  have hcr : Crowded (pinOf s.log.lh) → P .bgetNoBuffers s := fun hc =>
    hS _ _ ⟨rfl, crowded_pinOf hc⟩
  refine (bread_runs (fun _ => hcr) h.cached).imp fun d s' ht hq => ?_
  have hlog : s'.log = s.log := ht.log_eq fun _ hf => hf
  refine ⟨hq.1, hq.2.1, ?_, ?_, ?_, ?_⟩
  · rw [hlog]
    exact hq.2.2.2
  · rw [hlog]
    exact h.nodup
  · rw [hlog]
    exact h.len
  · intro hG hb
    rw [hlog] at hb
    rw [hq.2.1, ht.disk]
    exact h.clean hG hb

/-- **`brelse`** of a buffer that has not been changed. -/
theorem brelse_runs (h : Holding G b s) : (brelse b s).Runs (Touch G .nothing) P s fun _ s' =>
    view s' = view s ∧ Ready G s' := by
  have hp : 0 < update (pinOf s.log.lh) b (pinOf s.log.lh b + 1) b := by simp
  obtain ⟨s', hrun, hre, hview, hok⟩ := brelse_cached h.cached hp fun hb hG =>
    h.clean hG fun hm => by simp [pinOf, hm] at hb
  rw [hrun]
  refine ⟨hre.touch fun c _ => congrFun hview c, hview, ?_, ?_, ?_⟩
  · rw [hre.log]
    simpa using hok
  · rw [hre.log]
    exact h.nodup
  · rw [hre.log]
    exact h.len

/-- The blocks of `G`, without `b` when its contents have changed and are not in the log. -/
def sparing (G : Nat → Prop) (b : Nat) (s s' : Fs) (c : Nat) : Prop :=
  G c ∧ (c = b → b ∈ s.log.lh ∨ view s' b = view s b)

/-- Without `log_write` the buffer may differ from the disk. -/
theorem abandon_runs {d : Block} (h : Holding G b s) :
    (abandon b d s).Runs (Touch G (.block b)) P s fun _ s' =>
      view s' b = d ∧ s'.log = s.log ∧ Ready (sparing G b s s') s' := by
  have hp : 0 < update (pinOf s.log.lh) b (pinOf s.log.lh b + 1) b := by simp
  obtain ⟨s1, hrun, hre, hv, hok⟩ := setData_cached h.cached hp d
  have hh : Holding (sparing G b s s1) b s1 := by
    refine ⟨?_, ?_, ?_, fun hG hb => ?_⟩
    · rw [hre.log]
      exact ⟨hok.bufs, fun c hc => hok.clean c hc.1⟩
    · rw [hre.log]
      exact h.nodup
    · rw [hre.log]
      exact h.len
    · rw [hre.log] at hb
      rw [(hG.2 rfl).resolve_left hb, hre.disk]
      exact h.clean hG.1 hb
  have hset : (setData b d s).Runs (Touch G (.block b)) P s fun _ s' => s' = s1 := by
    rw [hrun]
    exact ⟨hre.touch fun c hc => by rw [hv]; exact update_of_ne hc _ _, rfl⟩
  refine touch_bind (Frame.Le.refl _) hset fun _ s2 _ hq2 => ?_
  subst hq2
  refine ((brelse_runs hh).imp fun _ s3 ht hq => ?_).mono (fun s3 ht => ?_) fun _ _ hp => hp
  · exact ⟨by rw [hq.1, hv, update_self], (ht.log_eq fun _ h => h).trans hre.log, by unfold sparing; rw [hq.1]; exact hq.2⟩
  · exact (ht.mono (Frame.nothing_le _)).weaken fun c hc hG => ⟨hG, fun e => absurd e hc⟩

/-- Read a block: `bread`, look at `bp->data`, `brelse`. -/
theorem peek_runs (hS : ∀ p s, Starved p s → P p s) {α : Type} {f : Block → FsM α}
    {Q : α → Fs → Prop} (h : Ready G s)
    (hf : ∀ s', Touch G .nothing s s' → view s' b = view s b → Ready G s' →
      (f (view s b) s').Runs (Touch G F) P s' Q) :
    ((bread b >>= fun d => brelse b >>= fun _ => f d) s).Runs (Touch G F) P s Q := by
  refine touch_bind (Frame.nothing_le F) (bread_ready hS h) fun d s1 ht hq => ?_
  obtain ⟨rfl, hv, hh⟩ := hq
  refine touch_bind (Frame.nothing_le F) (brelse_runs hh) fun _ s2 ht2 hq2 => ?_
  exact hf s2 (ht.trans ht2) (by rw [hq2.1, hv]) hq2.2

variable (hP : ∀ p s, Exhausted p s → P p s)
include hP

/-- **`log_write`** of the held buffer of block `b`, changed from `s` to `s1`: the block is in
    the log, which pins it. -/
theorem logWrite_runs {s1 : Fs} {d : Block} (hlog : s1.log = s.log) (hdisk : s1.disk = s.disk)
    (h : Holding G b s) (hv : view s1 = update (view s) b d)
    (hok : BufsOk s1.bcache (update (pinOf s.log.lh) b (pinOf s.log.lh b + 1))) :
    (logWrite b s1).Runs (Touch G (.block b)) P s1 fun _ s' =>
      view s' = view s1 ∧ b ∈ s'.log.lh ∧ Holding G b s' := by
  have hclean : ∀ c, G c → c ≠ b → c ∉ s.log.lh → view s1 c = s1.disk c := by
    intro c hG hcb hc
    rw [hv, update_of_ne hcb, hdisk]
    refine h.cached.clean c hG ?_
    rw [update_of_ne hcb]
    simp [pinOf, hc]
  cases hw : s1.log.logWrite b with
  | error p =>
    simp only [logWrite, hw]
    exact ⟨Touch.refl s1, hP _ _ (Or.inr (Log.logWrite_error hw))⟩
  | ok q =>
    obtain ⟨l, new⟩ := q
    obtain ⟨hroom, -, hcase⟩ := Log.logWrite_ok hw
    rcases hcase with ⟨hb, rfl, rfl⟩ | ⟨hb, rfl, rfl⟩
    · simp only [logWrite, hw]
      rw [← hlog] at hok
      refine ⟨Touch.refl s1, rfl, hb, ⟨hok, ?_⟩, ?_, Nat.le_of_lt hroom, fun _ hn => absurd hb hn⟩
      · intro c hG hc
        by_cases hcb : c = b
        · subst hcb
          simp at hc
        · rw [update_of_ne hcb, hlog] at hc
          refine hclean c hG hcb fun hm => ?_
          simp [pinOf, hm] at hc
      · show s1.log.lh.Nodup
        rw [hlog]
        exact h.nodup
    · -- the block is new in the log: one more reference, `bpin`
      simp only [logWrite, hw, bpin, Routine.update]
      have hp : 0 < update (pinOf s.log.lh) b (pinOf s.log.lh b + 1) b := by simp
      obtain ⟨ok2, hview2⟩ := hok.recount hp (fun k => k + 1) (List.Perm.refl _)
      rw [hlog] at hb hroom ⊢
      have hpins : update (update (pinOf s.log.lh) b (pinOf s.log.lh b + 1)) b
          (update (pinOf s.log.lh) b (pinOf s.log.lh b + 1) b + 1) =
          update (pinOf (s.log.lh ++ [b])) b (pinOf (s.log.lh ++ [b]) b + 1) := by
        funext c
        by_cases hcb : c = b
        · subst hcb
          simp [pinOf, hb]
        · simp [pinOf, hcb]
      rw [hpins] at ok2
      have hnodup : (s.log.lh ++ [b]).Nodup := by
        refine List.nodup_append.mpr ⟨h.nodup, by simp, ?_⟩
        intro c hc c' hc' e
        rw [List.mem_singleton.mp hc'] at e
        exact hb (e ▸ hc)
      refine ⟨?_, funext (hview2 s1.disk), by simp, ⟨ok2, ?_⟩, hnodup, ?_, ?_⟩
      · refine ⟨rfl, rfl, rfl, ?_, ⟨[b], ?_, ?_⟩, fun _ => hnodup, fun c _ => Or.inl (hview2 s1.disk c),
          fun _ _ => rfl, fun _ => rfl⟩
        · show (_ : Log) = _
          rw [hlog]
        · show _ = s1.log.lh ++ [b]
          rw [hlog]
        · intro c hc
          exact List.mem_singleton.mp hc
      · intro c hG hc
        refine (hview2 s1.disk c).trans ?_
        by_cases hcb : c = b
        · subst hcb
          simp at hc
        · refine hclean c hG hcb fun hm => ?_
          simp [update_of_ne hcb, pinOf, hm] at hc
      · rw [List.length_append]
        exact hroom
      · intro _ hn
        simp at hn

/-- **Modify, `log_write`, `brelse`**: the block is in the log and its contents are new. -/
theorem logUpdate_runs {d : Block} (h : Holding G b s) :
    (logUpdate b d s).Runs (Touch G (.block b)) P s fun _ s' =>
      view s' = update (view s) b d ∧ b ∈ s'.log.lh ∧ Ready G s' := by
  have hp : 0 < update (pinOf s.log.lh) b (pinOf s.log.lh b + 1) b := by simp
  obtain ⟨s1, hrun, hre, hv, hok⟩ := setData_cached h.cached hp d
  have hset : (setData b d s).Runs (Touch G (.block b)) P s fun _ s' =>
      view s' = update (view s) b d ∧ s'.log = s.log ∧ s'.disk = s.disk ∧
      BufsOk s'.bcache (update (pinOf s.log.lh) b (pinOf s.log.lh b + 1)) := by
    rw [hrun]
    refine ⟨hre.touch fun c hc => ?_, hv, hre.log, hre.disk, hok.bufs⟩
    rw [hv]
    exact update_of_ne hc _ _
  refine touch_bind (Frame.Le.refl _) hset fun _ s1 _ hq => ?_
  obtain ⟨hv1, hlog1, hd1, hok1⟩ := hq
  refine touch_bind (Frame.Le.refl _) (logWrite_runs hP hlog1 hd1 h hv1 hok1)
    fun _ s2 ht2 hq2 => ?_
  obtain ⟨hv2, hb2, hh2⟩ := hq2
  refine ((brelse_runs hh2).imp fun _ s3 ht3 hq3 => ?_).mono
    (fun s3 ht3 => ht3.mono (Frame.nothing_le _)) fun _ _ hp => hp
  exact ⟨by rw [hq3.1, hv2, hv1], ht3.mem_lh hb2, hq3.2⟩

/-- **Read, modify and log a block.** -/
theorem poke_runs (h : Ready G s) (f : Block → Block) :
    ((bread b >>= fun d => logUpdate b (f d)) s).Runs (Touch G (.block b)) P s fun _ s' =>
      (∀ c, G c → view s' c = update (view s) b (f (view s b)) c) ∧
      b ∈ s'.log.lh ∧ Ready G s' := by
  refine touch_bind (Frame.nothing_le _) (bread_ready (starved_of hP) h) fun d s1 ht hq => ?_
  obtain ⟨rfl, -, hh⟩ := hq
  refine (logUpdate_runs hP hh).imp fun _ s2 _ hq2 => ⟨fun c hG => ?_, hq2.2⟩
  rw [hq2.1, ht.update_view hG]

end Rules

end HaiOS
