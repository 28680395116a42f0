/-
  File:      HaiOS/Fs/Merged.lean
  Subject:   EXTENTS THAT ARE NOT MERGED (kernel/fs.c: extent_append, bmap).

  `extent_append` takes the first empty slot, and looks at the last extent only when no slot is
  empty. `bmap` prefers the block after the last extent. So two blocks that are next to each other
  get an extent each, unless something else has taken the block in between.

  * `runs` -- the number of maximal runs of consecutive blocks;
  * `Merged es` -- no extent ends where the next one starts; then `es` has as many extents as its
    blocks have runs (`length_usedSlots`);
  * `Fenced used es` -- the block after the last extent is in use, or does not matter;
    `grow_merged` -- the extents stay merged if and only if this is so at every append;
  * `extents_merged` -- in every run of `bmap` and `itrunc` of that kind; `extents_unmerged` -- a
    file of two consecutive blocks with two extents.
-/
import HaiOS.Fs.Appends
import Mathlib.Data.List.Chain

namespace HaiOS.Runs

open Lib Appends Function

/-! ## 1. Runs of consecutive blocks -/

/-- The number of maximal runs of consecutive numbers in the list. -/
def runs : List Nat → Nat
  | [] => 0
  | [_] => 1
  | a :: b :: l => (if b = a + 1 then 0 else 1) + runs (b :: l)

theorem runs_range' (a n : Nat) : runs (List.range' a (n + 1)) = 1 := by
  induction n generalizing a with
  | zero => rfl
  | succ n ih =>
    rw [List.range'_succ, List.range'_succ, runs, if_pos rfl, Nat.zero_add, ← List.range'_succ]
    exact ih (a + 1)

/-- A run that ends before `b`. -/
theorem runs_range'_append (a n : Nat) {b : Nat} (l : List Nat) (h : b ≠ a + (n + 1)) :
    runs (List.range' a (n + 1) ++ b :: l) = 1 + runs (b :: l) := by
  induction n generalizing a with
  | zero =>
    show (if b = a + 1 then 0 else 1) + runs (b :: l) = 1 + runs (b :: l)
    rw [if_neg (by omega)]
  | succ n ih =>
    rw [List.range'_succ, List.range'_succ, List.cons_append, List.cons_append, runs, if_pos rfl,
      Nat.zero_add, ← List.cons_append, ← List.range'_succ]
    exact ih (a + 1) (by omega)

/-! ## 2. Merged extents -/

/-- The slots in use. -/
def usedSlots (es : List Extent) : List Extent := es.filter fun e => e.len ≠ 0

/-- The extent `e` does not end where `e'` starts. -/
def Apart (e e' : Extent) : Prop := e.start.toNat + e.len.toNat ≠ e'.start.toNat

instance (e e' : Extent) : Decidable (Apart e e') := inferInstanceAs (Decidable (_ ≠ _))

/-- **No extent ends at the block where the next one starts.** -/
def Merged (es : List Extent) : Prop := (usedSlots es).IsChain Apart

instance (es : List Extent) : Decidable (Merged es) := inferInstanceAs (Decidable (List.IsChain _ _))

section Slots

variable {es es' : List Extent}

theorem mem_usedSlots {e : Extent} : e ∈ usedSlots es ↔ e ∈ es ∧ e.len ≠ 0 := by
  simp [usedSlots]

theorem usedSlots_append (es es' : List Extent) :
    usedSlots (es ++ es') = usedSlots es ++ usedSlots es' :=
  List.filter_append ..

theorem usedSlots_full (h : ∀ e ∈ es, e.len ≠ 0) : usedSlots es = es :=
  List.filter_eq_self.mpr fun e he => decide_eq_true (h e he)

theorem usedSlots_empty (h : ∀ e ∈ es, e.len = 0) : usedSlots es = [] :=
  List.filter_eq_nil_iff.mpr fun e he => by simp [h e he]

theorem blocksOf_usedSlots (es : List Extent) : blocksOf (usedSlots es) = blocksOf es := by
  induction es with
  | nil => rfl
  | cons e es ih =>
    rw [show e :: es = [e] ++ es from rfl, usedSlots_append, blocksOf_append, blocksOf_append, ih]
    congr 1
    by_cases he : e.len = 0
    · rw [usedSlots_empty (by simpa using he), blocksOf_empty (show ∀ x ∈ [e], x.len = 0 by simpa using he)]
      rfl
    · rw [usedSlots_full (by simpa using he)]

/-- Extents that are apart are the runs of their blocks. -/
theorem runs_blocksOf (hne : ∀ e ∈ es, e.len ≠ 0) (h : es.IsChain Apart) :
    runs (blocksOf es) = es.length := by
  induction es with
  | nil => rfl
  | cons e es ih =>
    obtain ⟨n, hn⟩ := Nat.exists_eq_succ_of_ne_zero (toNat_ne_zero (hne e List.mem_cons_self))
    have hb : e.blocks = List.range' e.start.toNat (n + 1) := by rw [Extent.blocks, hn]
    rw [blocksOf_cons, hb]
    cases es with
    | nil =>
      rw [blocksOf_nil, List.append_nil]
      exact runs_range' _ n
    | cons e' es =>
      obtain ⟨hapart, hrest⟩ := List.isChain_cons_cons.mp h
      have hih := ih (fun x hx => hne x (List.mem_cons_of_mem _ hx)) hrest
      obtain ⟨n', hn'⟩ := Nat.exists_eq_succ_of_ne_zero
        (toNat_ne_zero (hne e' (List.mem_cons_of_mem _ List.mem_cons_self)))
      have hb' : blocksOf (e' :: es) =
          e'.start.toNat :: (List.range' (e'.start.toNat + 1) n' ++ blocksOf es) := by
        rw [blocksOf_cons, Extent.blocks, hn', Nat.succ_eq_add_one, List.range'_succ,
          List.cons_append]
      rw [hb'] at hih ⊢
      have hap : e'.start.toNat ≠ e.start.toNat + (n + 1) := by
        unfold Apart at hapart
        omega
      rw [runs_range'_append _ n _ hap, hih, Nat.add_comm]
      rfl

/-- **As many slots in use as runs of consecutive blocks.** -/
theorem length_usedSlots (h : Merged es) : (usedSlots es).length = runs (blocksOf es) := by
  rw [← blocksOf_usedSlots, runs_blocksOf (fun e he => (mem_usedSlots.mp he).2) h]

theorem lastExtent_usedSlots (es : List Extent) (d : Nat × Nat) :
    lastExtent es d =
      ((usedSlots es).getLast?.map fun e => (e.start.toNat, e.len.toNat)).getD d := by
  induction es generalizing d with
  | nil => rfl
  | cons e es ih =>
    rw [show e :: es = [e] ++ es from rfl, usedSlots_append]
    show lastExtent es (if e.len = 0 then d else (e.start.toNat, e.len.toNat)) = _
    rw [ih]
    by_cases he : e.len = 0
    · rw [if_pos he, usedSlots_empty (show ∀ x ∈ [e], x.len = 0 by simpa using he), List.nil_append]
    · rw [if_neg he, usedSlots_full (show ∀ x ∈ [e], x.len ≠ 0 by simpa using he),
        List.getLast?_append]
      cases (usedSlots es).getLast? with
      | none => rfl
      | some x => rfl

end Slots

/-! ## 3. One append -/

/-- The block after the last extent. -/
def after (es : List Extent) : Nat := (lastExtent es (0, 0)).1 + (lastExtent es (0, 0)).2

/-- **The file is empty, has no empty slot, or the block after its last extent is in use.** -/
def Fenced (used : Nat → Bool) (es : List Extent) : Prop :=
  blocksOf es = [] ∨ (∀ e ∈ es, e.len ≠ 0) ∨ used (after es) = true

instance (used : Nat → Bool) (es : List Extent) : Decidable (Fenced used es) :=
  inferInstanceAs (Decidable (_ ∨ _ ∨ _))

section Append

variable {es es' : List Extent} {newb : UInt32}

/-- The first empty slot takes the block, after the slots in use. -/
theorem fillEmpty_usedSlots (hp : Packed es) (h : fillEmpty newb es = some es') :
    usedSlots es' = usedSlots es ++ [⟨newb, 1⟩] := by
  induction es generalizing es' with
  | nil => cases h
  | cons e es ih =>
    obtain ⟨hrest, hp'⟩ := List.pairwise_cons.mp hp
    simp only [fillEmpty] at h
    split at h
    · rename_i he
      obtain rfl := Option.some.inj h
      have hnil : usedSlots (e :: es) = [] := usedSlots_empty fun x hx => by
        rcases List.mem_cons.mp hx with rfl | hx
        · exact he
        · exact hrest x hx he
      have hone : usedSlots [⟨newb, 1⟩] = [⟨newb, 1⟩] := rfl
      rw [hnil, show (⟨newb, 1⟩ :: es : List Extent) = [⟨newb, 1⟩] ++ es from rfl,
        usedSlots_append, hone, usedSlots_empty fun x hx => hrest x hx he]
      rfl
    · rename_i he
      obtain ⟨x, hx, rfl⟩ := Option.map_eq_some_iff.mp h
      have hcons : ∀ l, usedSlots (e :: l) = e :: usedSlots l := fun l =>
        List.filter_cons_of_pos (decide_eq_true he)
      rw [hcons, hcons, ih hp' hx, List.cons_append]

theorem fillEmpty_exists (h : fillEmpty newb es = some es') : ∃ e ∈ es, e.len = 0 := by
  induction es generalizing es' with
  | nil => cases h
  | cons e es ih =>
    simp only [fillEmpty] at h
    split at h
    · exact ⟨e, List.mem_cons_self, ‹_›⟩
    · obtain ⟨x, hx, -⟩ := Option.map_eq_some_iff.mp h
      obtain ⟨e', he', h0⟩ := ih hx
      exact ⟨e', List.mem_cons_of_mem _ he', h0⟩

theorem merged_snoc (us : List Extent) (e : Extent) :
    (us ++ [e]).IsChain Apart ↔ us.IsChain Apart ∧ ∀ x ∈ us.getLast?, Apart x e := by
  rw [List.isChain_append]
  simp

/-- The last extent made longer: nothing comes after it. -/
theorem merged_longer {l : List Extent} {e : Extent} (hf : ∀ x ∈ l ++ [e], x.len ≠ 0)
    (hr : InRange (l ++ [e])) :
    Merged (l ++ [{ e with len := e.len + 1 }]) ↔ Merged (l ++ [e]) := by
  have he := hf e (by simp)
  have hlt := hr e (by simp) he
  have hlen : e.len + 1 ≠ 0 := fun h => by
    have h1 : (e.len + 1).toNat = e.len.toNat + 1 := by
      rw [UInt32.toNat_add]
      have : (1 : UInt32).toNat = 1 := rfl
      omega
    rw [h] at h1
    cases h1
  have hl : usedSlots l = l := usedSlots_full fun x hx => hf x (List.mem_append_left _ hx)
  unfold Merged
  have h1 : usedSlots [e] = [e] := usedSlots_full (by simpa using he)
  have h2 : usedSlots [{ e with len := e.len + 1 }] = [{ e with len := e.len + 1 }] :=
    usedSlots_full (by simpa using hlen)
  rw [usedSlots_append, usedSlots_append, hl, h1, h2, merged_snoc, merged_snoc]
  exact Iff.rfl

/-- **The extents stay merged exactly when the block after the last one was in use.** -/
theorem appendList_merged {size b : Nat} {used : Nat → Bool} (hsize : ∀ b, size ≤ b → used b = true)
    (hs : size < 2 ^ 31) (hp : Packed es) (hr : InRange es)
    (hb : nextBlock size used (lastExtent es (0, 0)) = some b)
    (h : appendList (UInt32.ofNat b) es = some es') :
    Merged es' ↔ Merged es ∧ Fenced used es := by
  obtain ⟨hfree, hlt⟩ := nextBlock_free hsize hb
  have hnat : (UInt32.ofNat b).toNat = b := UInt32.toNat_ofNat_of_lt' (by
    show b < 4294967296
    omega)
  unfold appendList at h
  split at h
  · rename_i x hx
    obtain rfl := Option.some.inj h
    obtain ⟨e0, he0, hlen0⟩ := fillEmpty_exists hx
    unfold Merged
    rw [fillEmpty_usedSlots hp hx, merged_snoc]
    refine and_congr_right fun _ => ?_
    cases hlast : (usedSlots es).getLast? with
    | none =>
      -- the file is empty
      have hnil : blocksOf es = [] := by
        rw [← blocksOf_usedSlots, List.getLast?_eq_none_iff.mp hlast]
        rfl
      exact ⟨fun _ => Or.inl hnil, fun _ x hx => by cases hx⟩
    | some y =>
      obtain ⟨hy, hy0⟩ := mem_usedSlots.mp (List.mem_of_getLast? hlast)
      have hle : lastExtent es (0, 0) = (y.start.toNat, y.len.toNat) := by
        rw [lastExtent_usedSlots, hlast]
        rfl
      have hpos : 0 < y.len.toNat := Nat.pos_of_ne_zero (toNat_ne_zero hy0)
      have hne : blocksOf es ≠ [] := fun h0 => by
        have hm : y.start.toNat ∈ blocksOf es :=
          List.mem_flatMap.mpr ⟨y, hy, Extent.mem_blocks.mpr ⟨le_refl _, by omega⟩⟩
        rw [h0] at hm
        cases hm
      have hafter : after es = y.start.toNat + y.len.toNat := by rw [after, hle]
      have hap : (∀ x ∈ some y, Apart x ⟨UInt32.ofNat b, 1⟩) ↔
          y.start.toNat + y.len.toNat ≠ b := by
        constructor
        · intro h1
          have := h1 y rfl
          unfold Apart at this
          rw [hnat] at this
          exact this
        · rintro h1 x hx
          obtain rfl := Option.some.inj hx
          unfold Apart
          rw [hnat]
          exact h1
      rw [hap]
      rw [hle] at hb
      unfold nextBlock at hb
      constructor
      · intro hneb
        refine Or.inr (Or.inr ?_)
        rw [hafter]
        by_contra hfr
        rw [if_pos ⟨hpos, by simpa using hfr⟩] at hb
        exact hneb (Option.some.inj hb)
      · rintro (h0 | hfull | hused) hE
        · exact hne h0
        · exact hfull e0 he0 hlen0
        · rw [hafter, hE, hfree] at hused
          cases hused
  · rename_i hfull
    obtain ⟨x, hx, rfl⟩ := Option.map_eq_some_iff.mp h
    have hf := fillEmpty_none hfull
    obtain ⟨l, e, rfl, -, hrev⟩ := extendLast_full hf hx
    rw [hrev, merged_longer hf hr]
    exact ⟨fun hm => ⟨hm, Or.inr (Or.inl hf)⟩, fun hm => hm.1⟩

/-- **`extent_append` fails only when one more run would need one more slot.** -/
theorem extentAppend_needs {es : Extents} (hm : Merged es.1) {b : Nat} (hb : b < 2 ^ 31)
    (h : extentAppend es b = none) : NEXTENT < runs (blocksOf es.1 ++ [b]) := by
  have hnat : (UInt32.ofNat b).toNat = b := UInt32.toNat_ofNat_of_lt' (by
    show b < 4294967296
    omega)
  obtain ⟨hf, hend⟩ := appendList_none (extentAppend_none h)
  have hblocks : blocksOf es.1 ++ [b] = blocksOf (es.1 ++ [⟨UInt32.ofNat b, 1⟩]) := by
    rw [blocksOf_append]
    congr 1
    rw [blocksOf_cons, blocksOf_nil, List.append_nil, Extent.blocks, hnat]
    rfl
  have hchain : (es.1 ++ [(⟨UInt32.ofNat b, 1⟩ : Extent)]).IsChain Apart := by
    rw [merged_snoc]
    refine ⟨by rw [← usedSlots_full hf]; exact hm, fun x hx => ?_⟩
    obtain ⟨l, hl⟩ := List.getLast?_eq_some_iff.mp hx
    have hne := hend l x hl
    intro he
    rw [hnat] at he
    refine hne (UInt32.toNat_inj.mp ?_)
    rw [UInt32.toNat_add, hnat]
    omega
  rw [hblocks, runs_blocksOf (fun e he => ?_) hchain, List.length_append, es.2]
  · exact Nat.lt_succ_self _
  · rcases List.mem_append.mp he with he | he
    · exact hf e he
    · obtain rfl := List.mem_singleton.mp he
      exact (by decide : (1 : UInt32) ≠ 0)

end Append

/-! ## 4. Growth and runs of calls -/

/-- The file is fenced before each of `m` appends. -/
def FencedFor (size : Nat) : Nat → (Nat → Bool) → Extents → Prop
  | 0, _, _ => True
  | m + 1, used, es =>
    Fenced used es.1 ∧
    match nextBlock size used (lastExtent es.1 (0, 0)) with
    | none => True
    | some b =>
      match extentAppend es b with
      | none => True
      | some es' => FencedFor size m (update used b true) es'

instance decidableFencedFor (size : Nat) :
    (m : Nat) → (used : Nat → Bool) → (es : Extents) → Decidable (FencedFor size m used es)
  | 0, _, _ => isTrue trivial
  | m + 1, used, es =>
    @instDecidableAnd _ _ inferInstance
      (match nextBlock size used (lastExtent es.1 (0, 0)) with
      | none => isTrue trivial
      | some b =>
        show Decidable (match extentAppend es b with
          | none => True
          | some es' => FencedFor size m (update used b true) es') from
        match extentAppend es b with
        | none => isTrue trivial
        | some es' => decidableFencedFor size m (update used b true) es')

/-- **Growth keeps the extents merged exactly when the file is fenced at every append.** -/
theorem grow_merged {size : Nat} {used : Nat → Bool} {es : Extents}
    (hsize : ∀ b, size ≤ b → used b = true) (hs : size < 2 ^ 31) (m : Nat) (hp : Packed es.1)
    (hlt : ∀ b ∈ blocksOf es.1, b < size) :
    Merged (grow size m used es).es.1 ↔ Merged es.1 ∧ FencedFor size m used es := by
  induction m generalizing used es with
  | zero => exact ⟨fun h => ⟨h, trivial⟩, fun h => h.1⟩
  | succ m ih =>
    rcases grow_succ size m used es with ⟨hb, e⟩ | ⟨b, hb, he, e⟩ | ⟨b, es', hb, he, e⟩
    · -- the disk is full, so every block is in use
      have hall : ∀ c, used c = true := fun c => by
        rcases Nat.lt_or_ge c size with hc | hc
        · exact nextBlock_none hb c hc
        · exact hsize c hc
      simp only [e, FencedFor, hb, Fenced, hall]
      simp
    · have hf := (appendList_none (extentAppend_none he)).1
      simp only [e, FencedFor, hb, he, Fenced]
      exact ⟨fun h => ⟨h, Or.inr (Or.inl hf), trivial⟩, fun h => h.1⟩
    · obtain ⟨-, hpacked, hlt'⟩ := extentAppend_blocks hsize hs hlt hb he
      have hone := appendList_merged hsize hs hp (inRange_of_lt hs hlt) hb (extentAppend_some he)
      have hrest := ih (update_outside hsize b) (hpacked hp).2 hlt'
      simp only [e, FencedFor, hb, he]
      rw [hrest, hone, and_assoc]

/-- The file is fenced before each append that the call makes. -/
def FencedCall (s : Fs) : BmapCall → Prop
  | .bmap ip bn => FencedFor s.sb.size
      (bn + 1 - (blocksOf (s.itable ip).din.extents.1).length) (bits s) (s.itable ip).din.extents
  | _ => True

instance (s : Fs) : (c : BmapCall) → Decidable (FencedCall s c)
  | .bmap .. => decidableFencedFor ..
  | .beginOp | .endOp | .iget _ | .ilock _ | .iupdate _ | .itrunc _ => isTrue trivial

/-- A call that returns, before which the file is fenced. -/
def FencedStep (s : Fs) (c : BmapCall) (s' : Fs) : Prop := BmapStep s c s' ∧ FencedCall s c

section Runs

variable {dins : Nat → Dinode} {s s' : Fs} {ip : Nat}

theorem makes_merged (h : Pending dins s) {c : BmapCall} (hc : c.Legal s) (hf : FencedCall s c)
    (hm : ∀ i, (dins i).type ≠ 0 → Merged (dins i).extents.1) {i : Nat} {es : Extents}
    (he : c.makes s = some (i, es)) : Merged es.1 := by
  cases c with
  | bmap ip bn =>
    cases he
    have hsync := h.slots.sync ip hc.1 hc.2
    have hmi := hm _ hsync.2
    rw [← hsync.1] at hmi
    exact (grow_merged (bits_outside s) h.journaled.ok.layout.small _ (h.packed_slot hc)
      fun b hb => ((h.holds hc).data b hb).2).mpr ⟨hmi, hf⟩
  | itrunc ip =>
    cases he
    unfold Merged
    rw [usedSlots_empty (cleared_empty _)]
    exact .nil
  | beginOp => cases he
  | endOp => cases he
  | iget inum => cases he
  | ilock ip => cases he
  | iupdate ip => cases he

theorem step_merged (h : Pending dins s)
    (hm : ∀ i, (dins i).type ≠ 0 → Merged (dins i).extents.1) {c : BmapCall}
    (hst : FencedStep s c s') :
    ∃ dins', Pending dins' s' ∧ ∀ i, (dins' i).type ≠ 0 → Merged (dins' i).extents.1 := by
  obtain ⟨⟨hc, hrun⟩, hf⟩ := hst
  obtain ⟨dins', h', hch⟩ := (exec_pending h hc).of_ok hrun
  refine ⟨dins', h', fun i ht => ?_⟩
  obtain ⟨htype, hsame | hmade⟩ := hch i
  · rw [hsame]
    exact hm i (by rw [← htype]; exact ht)
  · exact makes_merged h hc hf hm hmade

theorem reach_merged {sb : Superblock} {disk : Nat → Block} (hi : Arrays.Image sb disk)
    (hm : ∀ i, (dinodes (Fs.boot sb disk) i).type ≠ 0 →
      Merged (dinodes (Fs.boot sb disk) i).extents.1) {l : List BmapCall}
    (hr : Trace FencedStep (Fs.boot sb disk) l s) :
    ∃ dins, Pending dins s ∧ ∀ i, (dins i).type ≠ 0 → Merged (dins i).extents.1 := by
  refine hr.invariant (I := fun s => ∃ dins, Pending dins s ∧ ∀ i, (dins i).type ≠ 0 →
    Merged (dins i).extents.1) (P := fun _ => True) (fun s c s' _ h hst => ?_) (fun _ _ => trivial)
    ⟨_, boot_pending hi, hm⟩
  obtain ⟨dins, h, hm⟩ := h
  exact step_merged h hm hst

end Runs

/-- **When extents are merged.** On a consistent image whose files have merged extents, in every
    state that is reached by calls of `bmap` and `itrunc` before which the file is fenced: the
    extents of a locked inode are merged, it uses as many slots as its blocks have runs, one slot if
    they are consecutive, and `extent_append` fails only when one more run would need more than
    `NEXTENT` slots. And any `bmap` that returns leaves them merged exactly if the file was fenced
    before. -/
theorem extents_merged {sb : Superblock} {disk : Nat → Block} (hi : Arrays.Image sb disk)
    (hm : ∀ i, (dinodes (Fs.boot sb disk) i).type ≠ 0 →
      Merged (dinodes (Fs.boot sb disk) i).extents.1) {s : Fs} {l : List BmapCall}
    (hr : Trace FencedStep (Fs.boot sb disk) l s) {ip : Nat} (hl : Locked s ip) :
    Merged (s.itable ip).din.extents.1 ∧
    (usedSlots (s.itable ip).din.extents.1).length = runs (blocksOf (s.itable ip).din.extents.1) ∧
    (∀ b n, blocksOf (s.itable ip).din.extents.1 = List.range' b (n + 1) →
      (usedSlots (s.itable ip).din.extents.1).length = 1) ∧
    (∀ b < s.sb.size, extentAppend (s.itable ip).din.extents b = none →
      NEXTENT < runs (blocksOf (s.itable ip).din.extents.1 ++ [b])) ∧
    ∀ bn b s', bmap ip bn s = .ok b s' →
      (Merged (s'.itable ip).din.extents.1 ↔ FencedCall s (.bmap ip bn)) := by
  obtain ⟨dins, h, hall⟩ := reach_merged hi hm hr
  have hsync := h.slots.sync ip hl.1 hl.2
  have hme : Merged (s.itable ip).din.extents.1 := by
    rw [hsync.1]
    exact hall _ hsync.2
  have hsmall := h.journaled.ok.layout.small
  have hlt : ∀ b ∈ blocksOf (s.itable ip).din.extents.1, b < s.sb.size :=
    fun b hb => ((h.holds hl).data b hb).2
  have hcount := length_usedSlots hme
  refine ⟨hme, hcount, fun b n hb => ?_, fun b hb hnone => ?_, fun bn b s' hrun => ?_⟩
  · rw [hcount, hb]
    exact runs_range' b n
  · exact extentAppend_needs hme (lt_trans hb hsmall) hnone
  · obtain ⟨-, -, -, happ, -⟩ := (bmap_pending h hl rfl).of_ok hrun
    have hslot : (s'.itable ip).din.extents = (grow s.sb.size
        (bn + 1 - (blocksOf (s.itable ip).din.extents.1).length) (bits s)
        (s.itable ip).din.extents).es := by
      rw [happ.grown.itable, update_self]
      rfl
    rw [hslot, grow_merged (bits_outside s) hsmall _ (h.packed_slot hl) hlt]
    exact ⟨fun hq => hq.2, fun hq => ⟨hme, hq⟩⟩

theorem merged_fiveDisk : ∀ i, (dinodes (Fs.boot smallSb Arrays.fiveDisk) i).type ≠ 0 →
    Merged (dinodes (Fs.boot smallSb Arrays.fiveDisk) i).extents.1 := by
  intro i ht
  rw [Arrays.fiveDisk, dinodes_one] at ht ⊢
  obtain rfl := oneInode_only ht
  decide

/-- The file of five bytes, and an empty file. -/
def twoFiles (i : Nat) : Dinode := if i = 2 then Dinode.fresh T_FILE else oneInode Arrays.fiveBytes i

def twoDisk : Nat → Block := image smallSb oneBlock twoFiles fun _ _ => 0

theorem twoFiles_zero {i : Nat} (hi : 8 ≤ i) : twoFiles i = Dinode.zero := by
  rw [twoFiles, if_neg (by omega)]
  exact if_neg (by omega)

theorem dinodes_twoDisk : dinodes (Fs.boot smallSb twoDisk) = twoFiles :=
  dinodes_image smallSb_layout oneBlock twoFiles _ fun _ hi => twoFiles_zero hi

theorem twoFiles_only {i : Nat} (ht : (twoFiles i).type ≠ 0) : i = 1 ∨ i = 2 := by
  by_cases h2 : i = 2
  · exact Or.inr h2
  · rw [twoFiles, if_neg h2] at ht
    exact Or.inl (oneInode_only ht)

theorem image_twoDisk : Arrays.Image smallSb twoDisk := by
  refine ⟨consistent_small (fun _ hi => twoFiles_zero hi) (by decide) rfl (fun i hi => ?_) _,
    fun i ht => ?_⟩
  · unfold twoFiles oneInode
    rw [if_neg hi]
    split <;> decide
  · rw [dinodes_twoDisk] at ht ⊢
    rcases twoFiles_only ht with rfl | rfl <;> exact ⟨by decide, by decide, by decide⟩

/-- The two files grow in turn. -/
theorem extents_merged_two :
    ∃ s, Arrays.Image smallSb twoDisk ∧ Trace FencedStep (Fs.boot smallSb twoDisk)
        [.iget 1, .iget 2, .beginOp, .ilock 0, .ilock 1, .bmap 1 0, .bmap 0 1, .bmap 1 1] s ∧ Locked s 0 ∧
      blocksOf (s.itable 0).din.extents.1 = [35, 37] ∧ Merged (s.itable 0).din.extents.1 ∧
      (usedSlots (s.itable 0).din.extents.1).length = 2 := by
  have hm : ∀ i, (dinodes (Fs.boot smallSb twoDisk) i).type ≠ 0 →
      Merged (dinodes (Fs.boot smallSb twoDisk) i).extents.1 := fun i ht => by
    rw [dinodes_twoDisk] at ht ⊢
    rcases twoFiles_only ht with rfl | rfl <;> decide
  have hrun : (afterLegal (fun s c => BmapCall.Legal s c ∧ FencedCall s c) BmapCall.exec
      [.iget 1, .iget 2, .beginOp, .ilock 0, .ilock 1, .bmap 1 0, .bmap 0 1, .bmap 1 1]
      (Fs.boot smallSb twoDisk)).map (fun s =>
        (decide (Locked s 0), blocksOf (s.itable 0).din.extents.1)) = some (true, [35, 37]) := by
    decide +kernel
  obtain ⟨s, hs, hd⟩ := Option.map_eq_some_iff.mp hrun
  obtain ⟨hl, hb⟩ := Prod.mk.inj hd
  have htrace : Trace FencedStep _ _ s := trace_of_afterLegal
    (fun _ _ _ _ hc hrun => ⟨⟨hc.1, hrun⟩, hc.2⟩) hs
  obtain ⟨hmerged, hcount, -⟩ := extents_merged image_twoDisk hm htrace (of_decide_eq_true hl)
  refine ⟨s, image_twoDisk, htrace, of_decide_eq_true hl, hb, hmerged, ?_⟩
  rw [hcount, hb]
  decide

/-- **Two consecutive blocks, two extents**: the file has block 35, block 36 is free, and `bmap` of
    the next block takes it. -/
theorem extents_unmerged :
    ∃ l s, Arrays.Image smallSb Arrays.fiveDisk ∧
      (∀ i, (dinodes (Fs.boot smallSb Arrays.fiveDisk) i).type ≠ 0 →
        Merged (dinodes (Fs.boot smallSb Arrays.fiveDisk) i).extents.1) ∧
      Trace BmapStep (Fs.boot smallSb Arrays.fiveDisk) l s ∧ Locked s 0 ∧
      ¬ Merged (s.itable 0).din.extents.1 ∧
      blocksOf (s.itable 0).din.extents.1 = List.range' 35 2 ∧
      runs (blocksOf (s.itable 0).din.extents.1) = 1 ∧
      (usedSlots (s.itable 0).din.extents.1).length = 2 := by
  have hrun : (afterLegal (fun s c => BmapCall.Legal s c) BmapCall.exec
      [.iget 1, .beginOp, .ilock 0, .bmap 0 1] (Fs.boot smallSb Arrays.fiveDisk)).map (fun s =>
        decide (Locked s 0 ∧ ¬ Merged (s.itable 0).din.extents.1 ∧
          blocksOf (s.itable 0).din.extents.1 = List.range' 35 2 ∧
          runs (blocksOf (s.itable 0).din.extents.1) = 1 ∧
          (usedSlots (s.itable 0).din.extents.1).length = 2)) = some true := by
    decide +kernel
  obtain ⟨s, hs, hd⟩ := Option.map_eq_some_iff.mp hrun
  have htrace : Trace BmapStep _ _ s := trace_of_afterLegal (fun _ _ _ _ hc hrun => ⟨hc, hrun⟩) hs
  exact ⟨_, s, Arrays.image_fiveDisk, merged_fiveDisk, htrace, of_decide_eq_true hd⟩

end HaiOS.Runs
