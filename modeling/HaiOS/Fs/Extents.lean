/-
  File:      HaiOS/Fs/Extents.lean
  Subject:   EXTENT LISTS (kernel/fs.c: extent_append and the arithmetic of bmap).

  A file's blocks are the ranges of its extents, slot after slot: `blocksOf`. Nothing here
  touches the disk.

  * `extentAppend` -- the first empty slot, or else the last extent made longer, or failure;
  * `grow` -- the allocations `bmap` makes for a file that needs `m` more blocks, given which
    blocks are in use: the blocks in order, the extents after them and how it ends.
-/
import HaiOS.Fs.Alloc

namespace HaiOS

open Function

/-! ## 1. Blocks of a file -/

def Extent.blocks (e : Extent) : List Nat := List.range' e.start.toNat e.len.toNat

/-- The blocks of a file, in order. -/
def blocksOf (es : List Extent) : List Nat := es.flatMap Extent.blocks

@[simp] theorem blocksOf_nil : blocksOf [] = [] := rfl

theorem blocksOf_cons (e : Extent) (es : List Extent) : blocksOf (e :: es) = e.blocks ++ blocksOf es :=
  List.flatMap_cons

theorem blocksOf_append (es es' : List Extent) : blocksOf (es ++ es') = blocksOf es ++ blocksOf es' :=
  List.flatMap_append

@[simp] theorem Extent.length_blocks (e : Extent) : e.blocks.length = e.len.toNat :=
  List.length_range'

variable {e : Extent}

theorem Extent.blocks_eq_nil (h : e.len = 0) : e.blocks = [] := by
  simp [Extent.blocks, h]

theorem toNat_ne_zero {v : UInt32} (h : v ≠ 0) : v.toNat ≠ 0 := fun e => h (UInt32.toNat_inj.mp e)

variable {b size m : Nat}

theorem Extent.mem_blocks :
    b ∈ e.blocks ↔ e.start.toNat ≤ b ∧ b < e.start.toNat + e.len.toNat := by
  simp [Extent.blocks, List.mem_range'_1]

/-- Empty slots come last. -/
def Packed (es : List Extent) : Prop := es.Pairwise fun e e' => e.len = 0 → e'.len = 0

instance (es : List Extent) : Decidable (Packed es) := inferInstanceAs (Decidable (List.Pairwise _ _))

variable {es es' : List Extent}

theorem blocksOf_empty (h : ∀ e ∈ es, e.len = 0) : blocksOf es = [] := by
  refine List.eq_nil_iff_forall_not_mem.mpr fun b hb => ?_
  obtain ⟨e, he, hbe⟩ := List.mem_flatMap.mp hb
  rw [Extent.blocks_eq_nil (h e he)] at hbe
  cases hbe

theorem blocksOf_none : blocksOf Extents.none.1 = [] :=
  blocksOf_empty fun e he => by rw [List.eq_of_mem_replicate he]

theorem packed_none : Packed Extents.none.1 := by decide

/-! ## 2. extent_append -/

/-- The first loop: an extent of length 1 in the first empty slot. -/
def fillEmpty (newb : UInt32) : List Extent → Option (List Extent)
  | [] => none
  | e :: es => if e.len = 0 then some (⟨newb, 1⟩ :: es) else (fillEmpty newb es).map (e :: ·)

/-- The second loop, on the slots from the last to the first: the first non-empty one is made
    longer if it ends where the new block starts. -/
def extendLast (newb : UInt32) : List Extent → Option (List Extent)
  | [] => none
  | e :: es =>
    if e.len = 0 then (extendLast newb es).map (e :: ·)
    else if e.start + e.len = newb then some ({ e with len := e.len + 1 } :: es)
    else none

def appendList (newb : UInt32) (es : List Extent) : Option (List Extent) :=
  match fillEmpty newb es with
  | some es' => some es'
  | none => (extendLast newb es.reverse).map List.reverse

variable {newb : UInt32}

theorem length_fillEmpty (h : fillEmpty newb es = some es') :
    es'.length = es.length := by
  induction es generalizing es' with
  | nil => cases h
  | cons e es ih =>
    simp only [fillEmpty] at h
    split at h
    · obtain rfl := Option.some.inj h
      rfl
    · obtain ⟨x, hx, rfl⟩ := Option.map_eq_some_iff.mp h
      simp [ih hx]

theorem length_extendLast (h : extendLast newb es = some es') : es'.length = es.length := by
  induction es generalizing es' with
  | nil => cases h
  | cons e es ih =>
    simp only [extendLast] at h
    split at h
    · obtain ⟨x, hx, rfl⟩ := Option.map_eq_some_iff.mp h
      simp [ih hx]
    · split at h
      · obtain rfl := Option.some.inj h
        rfl
      · cases h

theorem length_appendList (h : appendList newb es = some es') :
    es'.length = es.length := by
  unfold appendList at h
  split at h
  · rename_i x hx
    obtain rfl := Option.some.inj h
    exact length_fillEmpty hx
  · obtain ⟨x, hx, rfl⟩ := Option.map_eq_some_iff.mp h
    rw [List.length_reverse, length_extendLast hx, List.length_reverse]

/-- `extent_append`; `none` is the return of -1. -/
def extentAppend (es : Extents) (newb : Nat) : Option Extents :=
  match h : appendList (UInt32.ofNat newb) es.1 with
  | some l => some ⟨l, (length_appendList h).trans es.2⟩
  | none => none

theorem extentAppend_some {es es' : Extents} {newb : Nat} (h : extentAppend es newb = some es') :
    appendList (UInt32.ofNat newb) es.1 = some es'.1 := by
  unfold extentAppend at h
  split at h
  · rename_i l hl
    obtain rfl := Option.some.inj h
    exact hl
  · cases h

theorem extentAppend_none {es : Extents} {newb : Nat} (h : extentAppend es newb = none) :
    appendList (UInt32.ofNat newb) es.1 = none := by
  unfold extentAppend at h
  split at h
  · cases h
  · assumption

theorem fillEmpty_none (h : fillEmpty newb es = none) :
    ∀ e ∈ es, e.len ≠ 0 := by
  induction es with
  | nil => simp
  | cons e es ih =>
    simp only [fillEmpty] at h
    split at h
    · cases h
    · rename_i he
      intro x hx
      rcases List.mem_cons.mp hx with rfl | hx
      · exact he
      · exact ih (Option.map_eq_none_iff.mp h) x hx

/-- The new block comes somewhere into the file. -/
theorem fillEmpty_perm (h : fillEmpty newb es = some es') :
    (blocksOf es').Perm (blocksOf es ++ [newb.toNat]) := by
  induction es generalizing es' with
  | nil => cases h
  | cons e es ih =>
    simp only [fillEmpty] at h
    split at h
    · rename_i he
      obtain rfl := Option.some.inj h
      rw [blocksOf_cons, blocksOf_cons, Extent.blocks_eq_nil he]
      simp only [Extent.blocks, List.nil_append]
      exact (List.perm_append_comm : ([newb.toNat] ++ blocksOf es).Perm _)
    · obtain ⟨x, hx, rfl⟩ := Option.map_eq_some_iff.mp h
      rw [blocksOf_cons, blocksOf_cons, List.append_assoc]
      exact (ih hx).append_left _

/-- **At the end of it, when the empty slots come last.** -/
theorem fillEmpty_packed (hp : Packed es) (h : fillEmpty newb es = some es') :
    blocksOf es' = blocksOf es ++ [newb.toNat] ∧ Packed es' := by
  induction es generalizing es' with
  | nil => cases h
  | cons e es ih =>
    obtain ⟨hrest, hp'⟩ := List.pairwise_cons.mp hp
    simp only [fillEmpty] at h
    split at h
    · rename_i he
      obtain rfl := Option.some.inj h
      have hnil := blocksOf_empty fun x hx => hrest x hx he
      refine ⟨?_, List.pairwise_cons.mpr ⟨fun _ _ h1 => absurd h1 (by simp), hp'⟩⟩
      rw [blocksOf_cons, blocksOf_cons, hnil, Extent.blocks_eq_nil he]
      simp [Extent.blocks]
    · rename_i he
      obtain ⟨x, hx, rfl⟩ := Option.map_eq_some_iff.mp h
      obtain ⟨h1, h2⟩ := ih hp' hx
      refine ⟨?_, List.pairwise_cons.mpr ⟨fun _ _ h0 => absurd h0 he, h2⟩⟩
      rw [blocksOf_cons, blocksOf_cons, h1, List.append_assoc]

/-- With all slots in use only the last extent can take the block. -/
theorem extendLast_full (hf : ∀ e ∈ es, e.len ≠ 0) (h : extendLast newb es.reverse = some es') :
    ∃ l e, es = l ++ [e] ∧ e.start + e.len = newb ∧
      es'.reverse = l ++ [{ e with len := e.len + 1 }] := by
  rcases List.eq_nil_or_concat es with rfl | ⟨l, e, rfl⟩
  · cases h
  · have he : e.len ≠ 0 := hf e (by simp)
    simp only [List.concat_eq_append, List.reverse_append, List.reverse_cons, List.reverse_nil,
      List.nil_append, List.cons_append, extendLast, if_neg he] at h
    split at h
    · rename_i htail
      obtain rfl := Option.some.inj h
      exact ⟨l, e, List.concat_eq_append, htail, by simp⟩
    · cases h

/-- The end of an extent is a block number, not one that wrapped around. -/
def InRange (es : List Extent) : Prop := ∀ e ∈ es, e.len ≠ 0 → e.start.toNat + e.len.toNat < 2 ^ 31

theorem inRange_of_lt (hs : size < 2 ^ 31) (h : ∀ b ∈ blocksOf es, b < size) : InRange es := by
  intro e he h0
  have hpos := toNat_ne_zero h0
  have hmem : e.start.toNat + e.len.toNat - 1 ∈ blocksOf es :=
    List.mem_flatMap.mpr ⟨e, he, Extent.mem_blocks.mpr ⟨by omega, by omega⟩⟩
  have := h _ hmem
  omega

theorem Extent.blocks_extend (hr : e.start.toNat + e.len.toNat < 2 ^ 31)
    (ht : e.start + e.len = newb) :
    ({ e with len := e.len + 1 } : Extent).blocks = e.blocks ++ [newb.toNat] := by
  have hnew : newb.toNat = e.start.toNat + e.len.toNat := by
    rw [← ht, UInt32.toNat_add, Nat.mod_eq_of_lt (by omega)]
  have hlen : (e.len + 1).toNat = e.len.toNat + 1 := by
    have h1 : (1 : UInt32).toNat = 1 := rfl
    rw [UInt32.toNat_add, h1]
    exact Nat.mod_eq_of_lt (by omega)
  unfold Extent.blocks
  rw [hlen, hnew, List.range'_1_concat]

/-- **Where `extent_append` puts the new block.** -/
theorem appendList_some (hr : InRange es) (h : appendList newb es = some es') :
    (blocksOf es').Perm (blocksOf es ++ [newb.toNat]) ∧
    (Packed es → blocksOf es' = blocksOf es ++ [newb.toNat] ∧ Packed es') := by
  unfold appendList at h
  split at h
  · rename_i x hx
    obtain rfl := Option.some.inj h
    exact ⟨fillEmpty_perm hx, fun hp => fillEmpty_packed hp hx⟩
  · rename_i hfull
    obtain ⟨x, hx, rfl⟩ := Option.map_eq_some_iff.mp h
    have hf := fillEmpty_none hfull
    obtain ⟨l, e, rfl, ht, hrev⟩ := extendLast_full hf hx
    have hblocks : blocksOf x.reverse = blocksOf (l ++ [e]) ++ [newb.toNat] := by
      rw [hrev, blocksOf_append, blocksOf_append, blocksOf_cons, blocksOf_cons,
        Extent.blocks_extend (hr e (by simp) (hf e (by simp))) ht]
      simp
    refine ⟨by rw [hblocks], fun hp => ⟨hblocks, ?_⟩⟩
    obtain ⟨hl, -, -⟩ := List.pairwise_append.mp hp
    rw [hrev]
    refine List.pairwise_append.mpr ⟨hl, by simp, fun a ha _ _ h0 => ?_⟩
    exact absurd h0 (hf a (by simp [ha]))

/-- **When it fails**: all slots in use and the last extent ends elsewhere. -/
theorem appendList_none (h : appendList newb es = none) :
    (∀ e ∈ es, e.len ≠ 0) ∧ ∀ l e, es = l ++ [e] → e.start + e.len ≠ newb := by
  unfold appendList at h
  split at h
  · cases h
  · rename_i hfull
    have hf := fillEmpty_none hfull
    refine ⟨hf, ?_⟩
    rintro l e rfl ht
    have he : e.len ≠ 0 := hf e (by simp)
    simp [extendLast, he, ht] at h

/-! ## 3. Scanning the slots -/

/-- The first loop of `bmap` from logical block `base` on: the block that is `bn`, or else the
    number of blocks and the last non-empty extent. -/
def bmapScan (bn : Nat) : List Extent → Nat → Nat × Nat → Nat ⊕ (Nat × (Nat × Nat))
  | [], base, last => .inr (base, last)
  | e :: es, base, last =>
    if e.len = 0 then bmapScan bn es base last
    else if bn < base + e.len.toNat then .inl (e.start.toNat + (bn - base))
    else bmapScan bn es (base + e.len.toNat) (e.start.toNat, e.len.toNat)

/-- The last non-empty extent. -/
def lastExtent (es : List Extent) (last : Nat × Nat) : Nat × Nat :=
  es.foldl (fun l e => if e.len = 0 then l else (e.start.toNat, e.len.toNat)) last

theorem bmapScan_eq (bn : Nat) (es : List Extent) (base : Nat) (last : Nat × Nat) (h : base ≤ bn) :
    bmapScan bn es base last =
      match (blocksOf es)[bn - base]? with
      | some b => .inl b
      | none => .inr (base + (blocksOf es).length, lastExtent es last) := by
  induction es generalizing base last with
  | nil => simp [bmapScan, lastExtent]
  | cons e es ih =>
    simp only [bmapScan]
    by_cases h0 : e.len = 0
    · rw [if_pos h0, ih base last h, blocksOf_cons, Extent.blocks_eq_nil h0, List.nil_append]
      simp [lastExtent, h0]
    · rw [if_neg h0, blocksOf_cons]
      by_cases hlt : bn < base + e.len.toNat
      · have hin : bn - base < e.blocks.length := by rw [Extent.length_blocks]; omega
        rw [if_pos hlt, List.getElem?_append_left hin, List.getElem?_eq_getElem hin]
        simp [Extent.blocks]
      · have hge : e.blocks.length ≤ bn - base := by rw [Extent.length_blocks]; omega
        have hsub : bn - base - e.blocks.length = bn - (base + e.len.toNat) := by
          rw [Extent.length_blocks]
          omega
        rw [if_neg hlt, ih _ _ (by omega), List.getElem?_append_right hge, hsub,
          List.length_append, Extent.length_blocks, ← Nat.add_assoc]
        simp [lastExtent, h0]

theorem exists_nonempty (h : b ∈ blocksOf es) : ∃ e ∈ es, e.len ≠ 0 := by
  obtain ⟨e, he, hb⟩ := List.mem_flatMap.mp h
  refine ⟨e, he, fun h0 => ?_⟩
  rw [Extent.blocks_eq_nil h0] at hb
  cases hb

theorem lastExtent_congr (h : ∃ e ∈ es, e.len ≠ 0) (l l' : Nat × Nat) :
    lastExtent es l = lastExtent es l' := by
  induction es generalizing l l' with
  | nil => obtain ⟨e, he, -⟩ := h; cases he
  | cons x es ih =>
    simp only [lastExtent, List.foldl_cons]
    by_cases hx : x.len = 0
    · rw [if_pos hx, if_pos hx]
      obtain ⟨e, he, hne⟩ := h
      rcases List.mem_cons.mp he with rfl | he
      · exact absurd hx hne
      · exact ih ⟨e, he, hne⟩ l l'
    · rw [if_neg hx, if_neg hx]

/-! ## 4. Growing a file -/

/-- The blocks of `l` come into use. -/
def mark (used : Nat → Bool) (l : List Nat) : Nat → Bool := fun b => used b || decide (b ∈ l)

@[simp] theorem mark_nil (used : Nat → Bool) : mark used [] = used := by
  funext b
  simp [mark]

theorem mark_mark (used : Nat → Bool) (l l' : List Nat) :
    mark (mark used l) l' = mark used (l ++ l') := by
  funext b
  simp [mark, Bool.or_assoc]

theorem mark_cons (used : Nat → Bool) (b : Nat) (l : List Nat) :
    mark (update used b true) l = mark used (b :: l) := by
  funext c
  by_cases h : c = b <;> simp [mark, h]

variable {used : Nat → Bool}

theorem mark_eq_false {l : List Nat} :
    mark used l b = false ↔ used b = false ∧ b ∉ l := by
  simp [mark]

/-- How the growth of a file ends: all blocks are there, the disk is full, or the extents do not
    take the next block. -/
inductive GrowEnd where
  | done
  | full
  | overflow
  deriving DecidableEq, Repr

structure Growth where
  /-- the blocks allocated, in order -/
  new : List Nat
  es : Extents
  stop : GrowEnd
  deriving DecidableEq

/-- **The allocations of `bmap`** for a file with the extents `es` that needs `m` more blocks. -/
def grow (size : Nat) : Nat → (Nat → Bool) → Extents → Growth
  | 0, _, es => ⟨[], es, .done⟩
  | m + 1, used, es =>
    match nextBlock size used (lastExtent es.1 (0, 0)) with
    | none => ⟨[], es, .full⟩
    | some b =>
      match extentAppend es b with
      | none => ⟨[b], es, .overflow⟩
      | some es' =>
        let g := grow size m (update used b true) es'
        { g with new := b :: g.new }

section Grow

variable {size : Nat} {used : Nat → Bool} {es es' : Extents} {last : Nat × Nat} {b m : Nat}

/-- What a step of `grow` can be. -/
theorem grow_succ (size m : Nat) (used : Nat → Bool) (es : Extents) :
    (nextBlock size used (lastExtent es.1 (0, 0)) = none ∧
      grow size (m + 1) used es = ⟨[], es, .full⟩) ∨
    (∃ b, nextBlock size used (lastExtent es.1 (0, 0)) = some b ∧ extentAppend es b = none ∧
      grow size (m + 1) used es = ⟨[b], es, .overflow⟩) ∨
    (∃ b es', nextBlock size used (lastExtent es.1 (0, 0)) = some b ∧
      extentAppend es b = some es' ∧
      grow size (m + 1) used es =
        ⟨b :: (grow size m (update used b true) es').new,
          (grow size m (update used b true) es').es,
          (grow size m (update used b true) es').stop⟩) := by
  simp only [grow]
  cases hb : nextBlock size used (lastExtent es.1 (0, 0)) with
  | none => exact Or.inl ⟨rfl, rfl⟩
  | some b =>
    cases he : extentAppend es b with
    | none => exact Or.inr (Or.inl ⟨b, rfl, he, by simp only [he]⟩)
    | some es' => exact Or.inr (Or.inr ⟨b, es', rfl, he, by simp only [he]⟩)

variable (hsize : ∀ b, size ≤ b → used b = true)
include hsize

/-- The block taken next is free. -/
theorem nextBlock_free (h : nextBlock size used last = some b) : used b = false ∧ b < size := by
  have hlt : used b = false → b < size := fun hf => by
    by_contra hc
    rw [hsize b (by omega)] at hf
    cases hf
  unfold nextBlock at h
  split at h
  · rename_i hc
    obtain rfl := Option.some.inj h
    exact ⟨hc.2, hlt hc.2⟩
  · have hf := (lowestFree_some.mp h).2.1
    exact ⟨hf, hlt hf⟩

omit hsize in
/-- No block is taken only when none is free. -/
theorem nextBlock_none (h : nextBlock size used last = none) : ∀ b < size, used b = true := by
  unfold nextBlock at h
  split at h
  · cases h
  · exact lowestFree_none.mp h

theorem update_outside (b : Nat) : ∀ c, size ≤ c → update used b true c = true := by
  intro c hc
  by_cases h : c = b
  · rw [h, update_self]
  · rw [update_of_ne h]
    exact hsize c hc

/-- **The new blocks were free**, and no block is taken twice. -/
theorem grow_fresh (m : Nat) :
    (grow size m used es).new.Nodup ∧
    ∀ b ∈ (grow size m used es).new, used b = false ∧ b < size := by
  induction m generalizing used es with
  | zero => simp [grow]
  | succ m ih =>
    rcases grow_succ size m used es with ⟨-, e⟩ | ⟨b, hb, -, e⟩ | ⟨b, es', hb, he, e⟩
    · simp [e]
    · rw [e]
      have := nextBlock_free hsize hb
      simpa using this
    · rw [e]
      obtain ⟨h1, h2⟩ := @ih (update used b true) es'
        (update_outside hsize b)
      have hfree := nextBlock_free hsize hb
      refine ⟨List.nodup_cons.mpr ⟨fun hm => ?_, h1⟩, fun c hc => ?_⟩
      · simpa using (h2 b hm).1
      · rcases List.mem_cons.mp hc with rfl | hc
        · exact hfree
        · obtain ⟨h3, h4⟩ := h2 c hc
          have hne : c ≠ b := fun e => by
            subst e
            simp at h3
          rw [update_of_ne hne] at h3
          exact ⟨h3, h4⟩

/-- One more block in the file. -/
theorem extentAppend_blocks (hs : size < 2 ^ 31) (hlt : ∀ c ∈ blocksOf es.1, c < size)
    (hb : nextBlock size used last = some b) (he : extentAppend es b = some es') :
    (blocksOf es'.1).Perm (blocksOf es.1 ++ [b]) ∧
    (Packed es.1 → blocksOf es'.1 = blocksOf es.1 ++ [b] ∧ Packed es'.1) ∧
    ∀ c ∈ blocksOf es'.1, c < size := by
  have hbs := (nextBlock_free hsize hb).2
  have hnat : (UInt32.ofNat b).toNat = b := UInt32.toNat_ofNat_of_lt' (by
    show b < 4294967296
    omega)
  obtain ⟨h1, h2⟩ := appendList_some (inRange_of_lt hs hlt) (extentAppend_some he)
  rw [hnat] at h1 h2
  refine ⟨h1, h2, fun c hc => ?_⟩
  rcases List.mem_append.mp (h1.mem_iff.mp hc) with hc | hc
  · exact hlt c hc
  · rw [List.mem_singleton.mp hc]
    exact hbs

omit hsize in
theorem grow_done (m : Nat) (h : (grow size m used es).stop = .done) :
    (grow size m used es).new.length = m := by
  induction m generalizing used es with
  | zero => rfl
  | succ m ih =>
    rcases grow_succ size m used es with ⟨hb, e⟩ | ⟨b, -, -, e⟩ | ⟨b, es', -, he, e⟩
    · rw [e] at h
      cases h
    · rw [e] at h
      cases h
    · rw [e] at h ⊢
      exact congrArg Nat.succ (ih h)

/-- **The blocks of the file after its growth**: the new ones come at the end if the empty slots
    do. -/
theorem grow_blocks (hs : size < 2 ^ 31) (m : Nat) (hlt : ∀ b ∈ blocksOf es.1, b < size)
    (hstop : (grow size m used es).stop ≠ .overflow) :
    (blocksOf (grow size m used es).es.1).Perm
      (blocksOf es.1 ++ (grow size m used es).new) ∧
    (Packed es.1 →
      blocksOf (grow size m used es).es.1 = blocksOf es.1 ++ (grow size m used es).new ∧
      Packed (grow size m used es).es.1) := by
  induction m generalizing used es with
  | zero => simp [grow]
  | succ m ih =>
    rcases grow_succ size m used es with ⟨-, e⟩ | ⟨b, -, -, e⟩ | ⟨b, es', hb, he, e⟩
    · simp [e]
    · rw [e] at hstop
      exact absurd rfl hstop
    · rw [e] at hstop ⊢
      obtain ⟨h1, h2, hlt'⟩ := extentAppend_blocks hsize hs hlt hb he
      obtain ⟨h3, h4⟩ := ih (update_outside hsize b) hlt' hstop
      constructor
      · refine h3.trans ?_
        have := h1.append_right (grow size m (update used b true) es').new
        simpa using this
      · intro hp
        obtain ⟨h5, h6⟩ := h2 hp
        obtain ⟨h7, h8⟩ := h4 h6
        refine ⟨?_, h8⟩
        rw [h7, h5, List.append_assoc]
        rfl

end Grow

/-- Growing in two parts. -/
theorem grow_add {size m n : Nat} {es : Extents} (h : (grow size m used es).stop = .done) :
    grow size (m + n) used es =
      ⟨(grow size m used es).new ++
          (grow size n (mark used (grow size m used es).new) (grow size m used es).es).new,
        (grow size n (mark used (grow size m used es).new) (grow size m used es).es).es,
        (grow size n (mark used (grow size m used es).new) (grow size m used es).es).stop⟩ := by
  induction m generalizing used es with
  | zero => simp [grow]
  | succ m ih =>
    rcases grow_succ size m used es with ⟨hb, e⟩ | ⟨b, -, -, e⟩ | ⟨b, es', hb, he, e⟩
    · rw [e] at h
      cases h
    · rw [e] at h
      cases h
    · rw [e] at h
      rw [Nat.succ_add, e]
      have hr := ih h
      simp only [grow, hb, he, hr, mark_cons, List.cons_append]

/-- A growth that has ended early is not continued. -/
theorem grow_stuck {es : Extents} (n : Nat) (h : (grow size m used es).stop ≠ .done) :
    grow size (m + n) used es = grow size m used es := by
  induction m generalizing used es with
  | zero => exact absurd rfl h
  | succ m ih =>
    rw [Nat.succ_add]
    rcases grow_succ size m used es with ⟨hb, e⟩ | ⟨b, hb, he, e⟩ | ⟨b, es', hb, he, e⟩
    · rw [e]
      simp only [grow, hb]
    · rw [e]
      simp only [grow, hb, he]
    · rw [e] at h ⊢
      simp only [grow, hb, he, ih h]

end HaiOS
