/-
  File:      HaiOS/Fs/Content.lean
  Subject:   WRITING TO A FILE (kernel/fs.c: the loop of writei).

  * `fileBytes` -- the bytes of a file, zero after its last block;
  * `Changed new y` -- a file has taken the blocks `new` and its inode in memory is `y`, whatever
    has happened to the data blocks; `Extended new es` when only the extents are new;
  * `growTo`, `writePlan` -- the blocks a write takes;
  * `writeiLoop_ends` -- the loop of `writei`: the blocks it takes, the bytes it writes, when it
    stops early, and what a copy that fails leaves behind (`Left`).
-/
import HaiOS.Fs.File

namespace HaiOS

open Lib Function

/-! ## 1. The bytes of a file -/

/-- The bytes of the file with the blocks `B`, by offset; zero after the last block. -/
def fileBytes (v : Nat → Block) (B : List Nat) : Store := fun k =>
  match B[k / BSIZE]? with
  | some b => v b (k % BSIZE)
  | none => 0

section FileBytes

variable {v v' : Nat → Block} {B new : List Nat} {b off k : Nat}

theorem fileBytes_of_get (h : B[k / BSIZE]? = some b) : fileBytes v B k = v b (k % BSIZE) := by
  simp only [fileBytes, h]

theorem fileBytes_congr (h : ∀ b ∈ B, v b = v' b) : fileBytes v B = fileBytes v' B := by
  funext k
  unfold fileBytes
  cases hb : B[k / BSIZE]? with
  | none => rfl
  | some b => simp only [h b (List.mem_of_getElem? hb)]

/-- New blocks, zeroed, leave the bytes as they are. -/
theorem fileBytes_append_zero (h : ∀ b ∈ new, v b = fun _ => 0) :
    fileBytes v (B ++ new) = fileBytes v B := by
  funext k
  unfold fileBytes
  by_cases hk : k / BSIZE < B.length
  · rw [List.getElem?_append_left hk]
  · rw [List.getElem?_append_right (by omega), List.getElem?_eq_none (Nat.le_of_not_lt hk)]
    cases hb : new[k / BSIZE - B.length]? with
    | none => rfl
    | some b => simp only [h b (List.mem_of_getElem? hb)]

/-- The bytes of one block. -/
theorem slice_fileBytes (h : B[off / BSIZE]? = some b) {m : Nat} (hm : off % BSIZE + m ≤ BSIZE) :
    slice (fileBytes v B) off m = slice (v b) (off % BSIZE) m := by
  refine List.map_congr_left fun j hj => ?_
  have hj' := List.mem_range.mp hj
  have h1 : (off + j) / BSIZE = off / BSIZE := by
    simp only [BSIZE] at *
    omega
  have h2 : (off + j) % BSIZE = off % BSIZE + j := by
    simp only [BSIZE] at *
    omega
  rw [fileBytes_of_get (by rw [h1]; exact h), h2]

/-- **Writing into one block of the file is writing into the file.** -/
theorem fileBytes_patch {bs : List UInt8} (hn : B.Nodup) (h : B[off / BSIZE]? = some b)
    (hm : off % BSIZE + bs.length ≤ BSIZE) :
    fileBytes (update v b (patch (v b) (off % BSIZE) bs)) B =
      patch (fileBytes v B) off bs := by
  funext k
  by_cases hblk : k / BSIZE = off / BSIZE
  · have hk : B[k / BSIZE]? = some b := by rw [hblk]; exact h
    rw [fileBytes_of_get hk, update_self]
    by_cases hin : off % BSIZE ≤ k % BSIZE ∧ k % BSIZE - off % BSIZE < bs.length
    · have e : k - off = k % BSIZE - off % BSIZE := by
        simp only [BSIZE] at *
        omega
      have hle : off ≤ k := by
        simp only [BSIZE] at *
        omega
      rw [patch_in hin.1 hin.2, patch_in hle (by rw [e]; exact hin.2)]
      simp only [e]
    · rw [patch_out (by omega), patch_out (by simp only [BSIZE] at *; omega), fileBytes_of_get hk]
  · have hout : patch (fileBytes v B) off bs k = fileBytes v B k :=
      patch_out (by simp only [BSIZE] at *; omega)
    rw [hout]
    unfold fileBytes
    cases hc : B[k / BSIZE]? with
    | none => rfl
    | some c =>
      have hne : c ≠ b := fun e => by
        subst e
        exact hblk ((List.getElem?_inj (List.getElem?_eq_some_iff.mp hc).1 hn).mp (hc.trans h.symm))
      simp only [update_of_ne hne]

end FileBytes

/-! ## 2. Files that have grown -/

/-- **Inode `ip` has taken the free blocks `new` and is `y` in memory.** Nothing is said of the
    contents of data blocks. -/
structure Changed (G : Nat → Prop) (ip : Nat) (new : List Nat) (y : Inode) (s s' : Fs) : Prop where
  sb : s'.sb = s.sb
  free : ∀ c ∈ new, bits s c = false
  nodup : new.Nodup
  bits : bits s' = mark (bits s) new
  dinodes : dinodes s' = dinodes s
  itable : s'.itable = update s.itable ip y
  inum : y.inum = (s.itable ip).inum
  perm : (blocksOf y.din.extents.1).Perm (blocksOf (s.itable ip).din.extents.1 ++ new)
  packed : Packed (s.itable ip).din.extents.1 →
    blocksOf y.din.extents.1 = blocksOf (s.itable ip).din.extents.1 ++ new ∧ Packed y.din.extents.1
  ok : FsOk G s'

/-- Only its extents have changed, to `es`. -/
def Extended (G : Nat → Prop) (ip : Nat) (new : List Nat) (es : Extents) (s s' : Fs) : Prop :=
  Changed G ip new ((s.itable ip).withExtents es) s s'

section Changed

variable {G : Nat → Prop} {F : Frame} {ip : Nat} {new new' : List Nat} {y y' : Inode}
  {es es' : Extents} {s s1 s2 : Fs}

section

variable (h : Changed G ip new y s s1)
include h

theorem Changed.slot : s1.itable ip = y := by
  rw [h.itable, update_self]

theorem Changed.trans (h' : Changed G ip new' y' s1 s2) : Changed G ip (new ++ new') y' s s2 := by
  have hi' := h'.inum
  have hp' := h'.perm
  have hk' := h'.packed
  rw [h.slot] at hi' hp' hk'
  have hfree' : ∀ c ∈ new', HaiOS.bits s c = false ∧ c ∉ new := fun c hc => by
    have := h'.free c hc
    rw [h.bits] at this
    exact mark_eq_false.mp this
  refine ⟨h'.sb.trans h.sb, ?_, ?_, ?_, h'.dinodes.trans h.dinodes, ?_, hi'.trans h.inum, ?_, ?_,
    h'.ok⟩
  · intro c hc
    rcases List.mem_append.mp hc with hc | hc
    · exact h.free c hc
    · exact (hfree' c hc).1
  · refine List.nodup_append.mpr ⟨h.nodup, h'.nodup, fun c hc c' hc' e => ?_⟩
    exact (hfree' c' hc').2 (e ▸ hc)
  · rw [h'.bits, h.bits, mark_mark]
  · rw [h'.itable, h.itable, update_idem]
  · refine hp'.trans ?_
    rw [← List.append_assoc]
    exact h.perm.append_right new'
  · intro hp
    obtain ⟨h1, h2⟩ := h.packed hp
    obtain ⟨h3, h4⟩ := hk' h2
    exact ⟨by rw [h3, h1, List.append_assoc], h4⟩

theorem Changed.onto {G' : Nat → Prop} (hm : MetaIn G' s1.sb)
    (hr : Ready G' s1) : Changed G' ip new y s s1 :=
  { h with ok := ⟨h.ok.layout, hm, h.ok.reserved, hr⟩ }

/-- Data blocks are changed afterwards. -/
theorem Changed.quiet (ht : Touch G F s1 s2)
    (hF : ∀ c, F.blocks c → s.sb.dataStart ≤ c) (hslots : ∀ i, ¬ F.slots i) (hr : Ready G s2) :
    Changed G ip new y s s2 := by
  have hle := h.ok.layout.bmap_le
  have hb : HaiOS.bits s2 = HaiOS.bits s1 := ht.bits_eq h.ok.layout h.ok.metaIn fun c _ h2 hf => by
    have := hF c hf
    rw [h.sb] at h2
    omega
  have hd : HaiOS.dinodes s2 = HaiOS.dinodes s1 :=
    ht.dinodes_eq h.ok.layout h.ok.metaIn fun c _ h2 hf => by
      have := hF c hf
      rw [h.sb] at h2 hle
      omega
  exact ⟨ht.sb.trans h.sb, h.free, h.nodup, hb.trans h.bits, hd.trans h.dinodes,
    (ht.itable_eq hslots).trans h.itable, h.inum, h.perm, h.packed, h.ok.same ht hr hb⟩

/-- Other fields of the inode are changed afterwards. -/
theorem Changed.set (hi : y'.inum = y.inum)
    (he : y'.din.extents = y.din.extents) : Changed G ip new y' s (s1.setSlot ip y') :=
  ⟨h.sb, h.free, h.nodup, h.bits, h.dinodes, by rw [setSlot_itable, h.itable, update_idem],
    hi.trans h.inum, by rw [he]; exact h.perm, by rw [he]; exact h.packed, h.ok.setSlot ip _⟩

end

/-- Its blocks are different data blocks in use, as before. -/
theorem Changed.holds (hok : FsOk G s) (hx : Holds s (s.itable ip))
    (h : Changed G ip new y s s1) : Holds s1 (s1.itable ip) := by
  have hmem : ∀ c ∈ blocksOf y.din.extents.1, c ∈ blocksOf (s.itable ip).din.extents.1 ∨ c ∈ new :=
    fun c hc => List.mem_append.mp (h.perm.mem_iff.mp hc)
  rw [h.slot]
  refine ⟨by rw [h.sb, h.inum]; exact hx.inum, ?_, fun c hc => ?_, fun c hc => ?_⟩
  · refine h.perm.nodup_iff.mpr (List.nodup_append.mpr ⟨hx.nodup, h.nodup, fun c hc c' hc' e => ?_⟩)
    subst e
    have h1 := hx.used c hc
    rw [h.free c hc'] at h1
    cases h1
  · rw [h.bits]
    rcases hmem c hc with hc | hc
    · simp [mark, hx.used c hc]
    · simp [mark, hc]
  · rw [h.sb]
    rcases hmem c hc with hc | hc
    · exact hx.data c hc
    · have hf := h.free c hc
      refine ⟨data_of_free hok.reserved hf, ?_⟩
      by_contra hge
      rw [bits_outside s c (by omega)] at hf
      cases hf

theorem Extended.slot (h : Extended G ip new es s s1) :
    s1.itable ip = (s.itable ip).withExtents es :=
  Changed.slot h

theorem Extended.perm (h : Extended G ip new es s s1) :
    (blocksOf es.1).Perm (blocksOf (s.itable ip).din.extents.1 ++ new) :=
  Changed.perm h

theorem Extended.packed (h : Extended G ip new es s s1) (hp : Packed (s.itable ip).din.extents.1) :
    blocksOf es.1 = blocksOf (s.itable ip).din.extents.1 ++ new ∧ Packed es.1 :=
  Changed.packed h hp

theorem Extended.nil (hok : FsOk G s) : Extended G ip [] (s.itable ip).din.extents s s :=
  ⟨rfl, by simp, by simp, (mark_nil _).symm, rfl, (update_eq_self ip s.itable).symm, rfl,
    by simp [Inode.withExtents], fun hp => ⟨by simp [Inode.withExtents], hp⟩, hok⟩

theorem Extended.trans (h : Extended G ip new es s s1) (h' : Extended G ip new' es' s1 s2) :
    Extended G ip (new ++ new') es' s s2 := by
  unfold Extended at h'
  rw [h.slot] at h'
  exact Changed.trans h h'

theorem Extended.quiet (h : Extended G ip new es s s1) (ht : Touch G F s1 s2)
    (hF : ∀ c, F.blocks c → s.sb.dataStart ≤ c) (hslots : ∀ i, ¬ F.slots i) (hr : Ready G s2) :
    Extended G ip new es s s2 :=
  Changed.quiet h ht hF hslots hr

/-- A growth of `grow` that does not overflow. -/
theorem Grown.extended {m : Nat} (hok : FsOk G s)
    (hlt : ∀ c ∈ blocksOf (s.itable ip).din.extents.1, c < s.sb.size) {g : Growth}
    (hg : grow s.sb.size m (HaiOS.bits s) (s.itable ip).din.extents = g) (hstop : g.stop ≠ .overflow)
    (h : Grown G ip g.new g.es s s1) : Extended G ip g.new g.es s s1 := by
  subst hg
  obtain ⟨h1, h2⟩ := grow_blocks (bits_outside s) hok.layout.small m hlt hstop
  exact ⟨h.sb, h.free, (grow_fresh (bits_outside s) m).1, h.bits, h.dinodes, h.itable, rfl, h1, h2,
    h.ok⟩

/-- The bytes of a file that has taken zeroed blocks. -/
theorem Grown.fileBytes (hx : Holds s (s.itable ip)) (hG : ∀ b, G b)
    (h : Grown G ip new es s s1) :
    fileBytes (view s1) (blocksOf (s.itable ip).din.extents.1 ++ new) =
      fileBytes (view s) (blocksOf (s.itable ip).din.extents.1) := by
  rw [fileBytes_append_zero fun b hb => h.zero b hb (hG b)]
  refine fileBytes_congr fun b hb => h.data b (hG b) (hx.data b hb).1 fun hn => ?_
  have h1 := hx.used b hb
  rw [h.free b hn] at h1
  cases h1

end Changed

/-! ## 3. The loop of writei -/

/-- The number of blocks a file with `len` blocks needs to have `hi` bytes. -/
def needed (hi len : Nat) : Nat := (hi + BSIZE - 1) / BSIZE - len

/-- The blocks a file takes to have `hi` bytes. -/
def growTo (size : Nat) (used : Nat → Bool) (es : Extents) (hi : Nat) : Growth :=
  grow size (needed hi (blocksOf es.1).length) used es

theorem growTo_covered {size hi : Nat} {used : Nat → Bool} {es : Extents}
    (h : hi ≤ BSIZE * (blocksOf es.1).length) : growTo size used es hi = ⟨[], es, .done⟩ := by
  have h0 : needed hi (blocksOf es.1).length = 0 := by
    unfold needed
    simp only [BSIZE] at *
    omega
  unfold growTo
  rw [h0]
  rfl

/-- Growing first to the block `bn` and then to `hi`. -/
theorem growTo_split {size hi bn : Nat} {used : Nat → Bool} {es : Extents} {g : Growth}
    (hbn : bn * BSIZE < hi) (hg : grow size (bn + 1 - (blocksOf es.1).length) used es = g)
    (hlen : g.stop = .done → (blocksOf g.es.1).length = (blocksOf es.1).length + g.new.length) :
    growTo size used es hi =
      if g.stop = .done then
        ⟨g.new ++ (growTo size (mark used g.new) g.es hi).new,
          (growTo size (mark used g.new) g.es hi).es, (growTo size (mark used g.new) g.es hi).stop⟩
      else g := by
  obtain ⟨k, hk⟩ : ∃ k, needed hi (blocksOf es.1).length = (bn + 1 - (blocksOf es.1).length) + k := by
    refine Nat.exists_eq_add_of_le ?_
    unfold needed
    simp only [BSIZE] at *
    omega
  have hgrow : growTo size used es hi = grow size (bn + 1 - (blocksOf es.1).length + k) used es :=
    congrArg (fun m => grow size m used es) hk
  subst hg
  split
  · rename_i hd
    have hk2 : needed hi (blocksOf (grow size (bn + 1 - (blocksOf es.1).length) used es).es.1).length
        = k := by
      rw [hlen hd, grow_done _ hd]
      unfold needed at hk ⊢
      simp only [BSIZE] at *
      omega
    rw [hgrow, grow_add hd]
    simp only [growTo, hk2]
  · rename_i hd
    rw [hgrow, grow_stuck k hd]

/-- A copy that fails does so before the first byte of a block: it leaves no bytes in a buffer. -/
def Src.Whole (src : Src) (n tot off : Nat) : Prop :=
  ∀ k, src.bad = some k → k < n → k = tot ∨ (off + (k - tot)) % BSIZE = 0

/-- What the loop of `writei` has done when it ends with `r`. -/
structure Written (G : Nat → Prop) (ip : Nat) (src : Src) (n tot off : Nat) (new : List Nat)
    (es : Extents) (r : Nat × Nat) (s s' : Fs) : Prop where
  ext : Extended G ip new es s s'
  ge : tot ≤ r.1
  le : r.1 ≤ n
  fin : r.2 = off + (r.1 - tot)
  /-- what has been written lies in the file -/
  reach : r.1 = tot ∨ r.2 ≤ BSIZE * (blocksOf es.1).length
  data : (∀ b, G b) → Packed (s.itable ip).din.extents.1 →
    fileBytes (view s') (blocksOf es.1) =
      patch (fileBytes (view s) (blocksOf (s.itable ip).din.extents.1)) off
        (slice src.bytes tot (r.1 - tot))

/-- The blocks a write of the bytes up to `hi` takes. -/
def writePlan (s : Fs) (ip hi : Nat) : Growth :=
  growTo s.sb.size (bits s) (s.itable ip).din.extents hi

/-- The loop ends as planned: all is written, or the disk is full. -/
structure Planned (g : Growth) (n : Nat) (new : List Nat) (es : Extents) (tot : Nat) : Prop where
  new : new = g.new
  es : es = g.es
  stop : g.stop ≠ .overflow
  done : g.stop = .done → tot = n
  full : g.stop = .full → tot < n

/-- How the loop of `writei` ends, by its plan unless a copy fails. -/
def WriteEnds (G : Nat → Prop) (ip : Nat) (src : Src) (n tot off : Nat) (s : Fs) (r : Nat × Nat)
    (s' : Fs) : Prop :=
  ∃ new es, Written G ip src n tot off new es r s s' ∧
    ((∀ k, src.bad = some k → n ≤ k) →
      (tot = n → off ≤ BSIZE * (blocksOf (s.itable ip).din.extents.1).length) →
      Planned (writePlan s ip (off + (n - tot))) n new es r.1)

/-- **The copy of a chunk fails at byte `k` of the source.** The bytes before it stay in the buffer
    of block `x`, which is not logged. -/
structure Tear (F : Frame) (ip : Nat) (src : Src) (n tot : Nat) (r : Nat × Nat) (x k : Nat)
    (s t s' : Fs) : Prop where
  bad : src.bad = some k
  lt : k < n
  ge : r.1 ≤ k
  start : r.1 = tot ∨ r.2 % BSIZE = 0
  chunk : r.2 % BSIZE + (k - r.1) < BSIZE
  block : Packed (s.itable ip).din.extents.1 →
    (blocksOf (t.itable ip).din.extents.1)[r.2 / BSIZE]? = some x
  data : t.sb.dataStart ≤ x
  frame : F.blocks x
  view : view s' x = patch (view t x) (r.2 % BSIZE) (slice src.bytes r.1 (k - r.1))

/-- **What the loop of `writei` leaves in the buffers**: what it has logged, in `t`, and a copy that
    has failed. Without one it has come to the end, or needs a block that it cannot have. -/
structure Left (G : Nat → Prop) (F : Frame) (ip : Nat) (src : Src) (n tot : Nat) (r : Nat × Nat)
    (x : Nat) (s t s' : Fs) : Prop where
  touch : Touch G (.block x) t s'
  log : s'.log = t.log
  ready : Ready (sparing G x t s') s'
  ends : (s' = t ∧ (r.1 = n ∨ (blocksOf (s.itable ip).din.extents.1).length ≤ r.2 / BSIZE) ∧
      ∀ k, src.bad = some k → r.1 ≤ k) ∨
    ∃ k, Tear F ip src n tot r x k s t s'

/-- The blocks that a write of the bytes from `off` to `hi` changes are in the frame. -/
structure WriteFrame (F : Frame) (s : Fs) (ip off hi : Nat) : Prop where
  slot : F.slots ip
  new : off < hi → ∀ c ∈ (writePlan s ip hi).new, F.blocks (bblock s.sb c) ∧ F.blocks c
  data : (∀ b ∈ blocksOf (s.itable ip).din.extents.1, F.blocks b) ∨
    (Packed (s.itable ip).din.extents.1 ∧ ∀ j b, off / BSIZE ≤ j → j * BSIZE < hi →
      (blocksOf (s.itable ip).din.extents.1)[j]? = some b → F.blocks b)

section Write

variable {G : Nat → Prop} {F : Frame} {P : Panic → Fs → Prop} {s s1 s2 : Fs} {ip : Nat} {src : Src}
  {n tot off : Nat} {new : List Nat} {es : Extents}

theorem Written.nil (hok : FsOk G s) (h : tot ≤ n) :
    Written G ip src n tot off [] (s.itable ip).din.extents (tot, off) s s :=
  ⟨Extended.nil hok, le_refl _, h, by simp, Or.inl rfl, fun _ _ => by simp⟩

theorem WriteEnds.done (hok : FsOk G s) (h : tot = n) :
    WriteEnds G ip src n tot off s (tot, off) s := by
  refine ⟨[], _, Written.nil hok (le_of_eq h), fun _ hcov => ?_⟩
  unfold writePlan
  rw [growTo_covered (by have := hcov h; omega)]
  exact ⟨rfl, rfl, by simp, fun _ => h, fun h => by cases h⟩

/-- The frame of the rest of a write. -/
theorem WriteFrame.rest {hi m : Nat} {g : Growth} (h : WriteFrame F s ip off hi) (hlt : off < hi)
    (hsplit : writePlan s ip hi = ⟨g.new ++ (writePlan s2 ip hi).new, (writePlan s2 ip hi).es,
      (writePlan s2 ip hi).stop⟩)
    (hext : Extended G ip g.new g.es s s2) : WriteFrame F s2 ip (off + m) hi := by
  have hx : (s2.itable ip).din.extents = g.es := by
    rw [hext.slot]
    rfl
  have hnew := h.new hlt
  rw [hsplit] at hnew
  refine ⟨h.slot, fun _ c hc => ?_, ?_⟩
  · rw [hext.sb]
    exact hnew c (List.mem_append_right _ hc)
  · rw [hx]
    rcases h.data with hd | ⟨hp, hd⟩
    · refine Or.inl fun b hb => ?_
      rcases List.mem_append.mp (hext.perm.mem_iff.mp hb) with hb | hb
      · exact hd b hb
      · exact (hnew b (List.mem_append_left _ hb)).2
    · obtain ⟨e, hp2⟩ := hext.packed hp
      refine Or.inr ⟨hp2, fun j b h1 h2 hb => ?_⟩
      rw [e] at hb
      by_cases hj : j < (blocksOf (s.itable ip).din.extents.1).length
      · rw [List.getElem?_append_left hj] at hb
        refine hd j b ?_ h2 hb
        exact le_trans (Nat.div_le_div_right (Nat.le_add_right off m)) h1
      · rw [List.getElem?_append_right (by omega)] at hb
        exact (hnew b (List.mem_append_left _ (List.mem_of_getElem? hb))).2

variable {m k fuel : Nat}

/-- A chunk that reaches the file, before the rest is written. -/
theorem Written.step {m : Nat} {b : Nat} {new' : List Nat} {es' : Extents} {r : Nat × Nat}
    {s3 : Fs} (hx : Holds s (s.itable ip)) (hok : FsOk G s) (hm : off % BSIZE + m ≤ BSIZE)
    (hb : (blocksOf (s.itable ip).din.extents.1 ++ new)[off / BSIZE]? = some b)
    (hgrown : Grown G ip new es s s1) (hext : Extended G ip new es s s2)
    (hview : ∀ c, G c → view s2 c = update (view s1) b
      (patch (view s1 b) (off % BSIZE) (slice src.bytes tot m)) c)
    (h : Written G ip src n (tot + m) (off + m) new' es' r s2 s3) :
    Written G ip src n tot off (new ++ new') es' r s s3 := by
  have hge := h.ge
  have hslot : (s2.itable ip).din.extents = es := by
    rw [hext.slot]
    rfl
  refine ⟨hext.trans h.ext, by omega, h.le, by rw [h.fin]; omega, ?_, fun hG hp => ?_⟩
  · rcases h.reach with e | e
    · refine Or.inr ?_
      have hlen := (List.getElem?_eq_some_iff.mp hb).1
      rw [← hext.perm.length_eq] at hlen
      have hle := h.ext.perm.length_eq
      rw [hslot, List.length_append] at hle
      rw [h.fin, e]
      simp only [BSIZE] at *
      omega
    · exact Or.inr e
  · obtain ⟨e, hp2⟩ := hext.packed hp
    have hn : (blocksOf es.1).Nodup := by
      have := (hext.holds hok hx).nodup
      rw [hslot] at this
      exact this
    have hv : view s2 = update (view s1) b
        (patch (view s1 b) (off % BSIZE) (slice src.bytes tot m)) := funext fun c => hview c (hG c)
    have hchunk : fileBytes (view s2) (blocksOf es.1) =
        patch (fileBytes (view s) (blocksOf (s.itable ip).din.extents.1)) off
          (slice src.bytes tot m) := by
      rw [hv, fileBytes_patch hn (by rw [e]; exact hb) (by rw [length_slice]; exact hm), e,
        hgrown.fileBytes hx hG]
    have hd := h.data hG (by rw [hslot]; exact hp2)
    have hpa := patch_append (fileBytes (view s) (blocksOf (s.itable ip).din.extents.1)) off
      (slice src.bytes tot m) (slice src.bytes (tot + m) (r.1 - (tot + m)))
    rw [length_slice] at hpa
    rw [hd, hslot, hchunk, hpa, ← slice_add]
    congr 2
    omega

section Left

variable {r : Nat × Nat} {x : Nat} {t s' : Fs} {y : Inode}

theorem Left.none (hr : Ready G t)
    (h : r.1 = n ∨ (blocksOf (s.itable ip).din.extents.1).length ≤ r.2 / BSIZE)
    (hbad : ∀ k, src.bad = some k → r.1 ≤ k) : Left G F ip src n tot r 0 s t t :=
  ⟨Touch.refl t, rfl, hr.mono fun _ hc => hc.1, Or.inl ⟨rfl, h, hbad⟩⟩

theorem Left.sparing {c : Nat} (h : Left G F ip src n tot r x s t s') (hG : G c)
    (hc : c < t.sb.dataStart ∨ ¬ F.blocks c) : sparing G x t s' c := by
  refine ⟨hG, fun e => ?_⟩
  rcases h.ends with ⟨rfl, -⟩ | ⟨k, hk⟩
  · exact Or.inr rfl
  · have := hk.data
    subst e
    exact hc.elim (fun hlt => absurd hlt (by omega)) fun hn => absurd hk.frame hn

variable (h : Left G F ip src n tot r x s t s')
include h

theorem Left.changed (hc : Changed G ip new y s t) :
    Changed (HaiOS.sparing G x t s') ip new y s s' := by
  have hc' : Changed (HaiOS.sparing G x t s') ip new y s t :=
    hc.onto (fun b hb => h.sparing (hc.ok.metaIn b hb) (Or.inl hb))
      (hc.ok.ready.mono fun _ hc => hc.1)
  rcases h.ends with ⟨rfl, -⟩ | ⟨k, hk⟩
  · exact hc'
  · refine hc'.quiet (h.touch.weaken fun _ _ hc => hc.1) (fun c e => ?_) (fun _ hf => hf) h.ready
    rw [show c = x from e, ← hc.sb]
    exact hk.data

/-- Copies that fail at the start of a block leave nothing behind. -/
theorem Left.whole (hw : Written G ip src n tot off new es r s t)
    (hfault : (∀ b, s.sb.dataStart ≤ b → ¬ G b) ∨ src.Whole n tot off) (hG : G x) :
    view s' x = view t x := by
  rcases h.ends with ⟨rfl, -⟩ | ⟨k, hk⟩
  · rfl
  · have h1 := hk.chunk
    have h2 := hk.ge
    have h3 := hw.fin
    have h4 := hw.ge
    rcases hfault with hno | hwh
    · exact absurd hG (hno x (by rw [← Changed.sb hw.ext]; exact hk.data))
    · have hkr : k - r.1 = 0 := by
        rcases hwh k hk.bad hk.lt with e | e
        · omega
        · simp only [BSIZE] at *
          omega
      rw [hk.view, hkr, slice_zero, patch_nil]

theorem Left.whole_sparing (hw : Written G ip src n tot off new es r s t)
    (hfault : (∀ b, s.sb.dataStart ≤ b → ¬ G b) ∨ src.Whole n tot off) (c : Nat) (hG : G c) :
    HaiOS.sparing G x t s' c :=
  ⟨hG, fun e => Or.inr (h.whole hw hfault (e ▸ hG))⟩

end Left

theorem faults_true {bad : Option Nat} (h : faults bad k = true) :
    ∃ j, bad = some j ∧ j < k := by
  cases bad with
  | none => cases h
  | some j => exact ⟨j, rfl, by simpa [faults] using h⟩

theorem faults_false {bad : Option Nat} (h : ¬ faults bad k = true) :
    ∀ j, bad = some j → k ≤ j := by
  rintro j rfl
  simpa [faults] using h

variable (hP : ∀ p s, Exhausted p s → P p s)
include hP

/-- **The loop of `writei`**, from byte `tot` of the source and `off` of the file on. -/
theorem writeiLoop_ends {fuel : Nat} (hok : FsOk G s) (hx : Holds s (s.itable ip))
    (hfuel : n - tot ≤ fuel) (htot : tot ≤ n) (hbad : ∀ k, src.bad = some k → tot ≤ k)
    (hF : WriteFrame F s ip off (off + (n - tot)))
    (hover : ∀ s', P .bmapExtentOverflow s') :
    (writeiLoop ip src n fuel tot off s).Runs (Touch G F) P s fun r s' =>
      ∃ x t, WriteEnds G ip src n tot off s r t ∧ Left G F ip src n tot r x s t s' := by
  induction fuel generalizing s tot off with
  | zero => exact touch_pure ⟨0, s, WriteEnds.done hok (by omega), Left.none hok.ready
      (Or.inl (by omega)) hbad⟩
  | succ fuel ih =>
    simp only [writeiLoop]
    refine runs_ite (fun hlt => ?_) fun hge => touch_pure
      ⟨0, s, WriteEnds.done hok (by omega), Left.none hok.ready (Or.inl (by omega)) hbad⟩
    generalize hhi : off + (n - tot) = hi at hF
    have hoff : off < hi := by omega
    have hbn : off / BSIZE * BSIZE < hi := by
      simp only [BSIZE] at *
      omega
    generalize hg : grow s.sb.size
      (off / BSIZE + 1 - (blocksOf (s.itable ip).din.extents.1).length) (bits s)
      (s.itable ip).din.extents = g
    have hltB : ∀ c ∈ blocksOf (s.itable ip).din.extents.1, c < s.sb.size :=
      fun c hc => (hx.data c hc).2
    -- growing to this block is the first part of the plan
    have hsplit : writePlan s ip hi = _ := growTo_split hbn hg fun h => by
      have hno : g.stop ≠ .overflow := by rw [h]; simp
      have := (grow_blocks (bits_outside s) hok.layout.small _ hltB (hg ▸ hno)).1.length_eq
      rw [hg, List.length_append] at this
      exact this
    have hF1 : ∀ c ∈ g.new, F.blocks (bblock s.sb c) ∧ F.blocks c := by
      intro c hc
      refine hF.new hoff c ?_
      rw [hsplit]
      split
      · exact List.mem_append_left _ hc
      · exact hc
    refine touch_bind (Frame.Le.refl F) (bmap_runs hP hok hltB hg hF.slot hF1 fun _ =>
      hover) fun addr s1 ht1 hq1 => ?_
    obtain ⟨hdone, hfull, hno, hgrown⟩ := hq1
    have hext : Extended G ip g.new g.es s s1 := hgrown.extended hok hltB hg hno
    refine runs_ite (fun h0 => touch_pure ?_) fun h0 => ?_
    · -- out of disk space
      have hnd : g.stop ≠ .done := by
        intro h
        have hmem := List.mem_of_getElem? (hdone h)
        rw [h0] at hmem
        have hd := (hext.holds hok hx).data 0 (by
          rw [hext.slot]
          exact hext.perm.mem_iff.mpr hmem)
        have h1 := hok.layout.log
        have h2 := hok.layout.inode_le
        have h3 := hok.layout.bmap_le
        rw [hext.sb] at hd
        omega
      refine ⟨0, s1, ⟨g.new, g.es, ⟨hext, le_refl _, htot, by simp, Or.inl rfl, fun hG hp => ?_⟩,
        fun _ _ => ?_⟩, Left.none hext.ok.ready (Or.inr ?_) hbad⟩
      · rw [(hext.packed hp).1, hgrown.fileBytes hx hG]
        simp
      · rw [hhi, hsplit, if_neg hnd]
        exact ⟨rfl, rfl, hno, fun h => absurd h hnd, fun _ => hlt⟩
      · by_contra hcov
        refine hnd ?_
        rw [← hg, Nat.sub_eq_zero_of_le (Nat.lt_of_not_le hcov)]
        rfl
    · have hd : g.stop = .done := by
        cases h : g.stop with
        | done => rfl
        | full => exact absurd (hfull h) h0
        | overflow => exact absurd h hno
      have hb := hdone hd
      rw [if_pos hd] at hsplit
      have hmem : addr ∈ blocksOf g.es.1 := hext.perm.mem_iff.mpr (List.mem_of_getElem? hb)
      have hdata : s.sb.dataStart ≤ addr := by
        have := ((hext.holds hok hx).data addr (by rw [hext.slot]; exact hmem)).1
        rwa [hext.sb] at this
      have hFaddr : F.blocks addr := by
        rcases hF.data with h | ⟨-, h⟩
        · rcases List.mem_append.mp (List.mem_of_getElem? hb) with hm | hm
          · exact h addr hm
          · exact (hF1 addr hm).2
        · by_cases hj : off / BSIZE < (blocksOf (s.itable ip).din.extents.1).length
          · rw [List.getElem?_append_left hj] at hb
            exact h _ addr (le_refl _) hbn hb
          · rw [List.getElem?_append_right (by omega)] at hb
            exact (hF1 addr (List.mem_of_getElem? hb)).2
      refine touch_bind (Frame.nothing_le F) (bread_ready (starved_of hP) hext.ok.ready) fun d s2 ht2 hq2 => ?_
      obtain ⟨rfl, hv2, hh⟩ := hq2
      generalize hmeq : min (n - tot) (BSIZE - off % BSIZE) = m
      have hm : off % BSIZE + m ≤ BSIZE := by
        simp only [BSIZE] at *
        omega
      have hm0 : 0 < m := by
        simp only [BSIZE] at *
        omega
      refine runs_ite (fun hf => ?_) fun hf => ?_
      · -- the copy fails in this chunk
        obtain ⟨k, hk, hkm⟩ := faults_true hf
        refine touch_bind (Frame.block_le hFaddr) (abandon_runs hh) fun _ s3 ht3 hq3 => touch_pure ?_
        have hlog : s2.log = s1.log := ht2.log_eq fun _ h => h
        refine ⟨addr, s1, ⟨g.new, g.es, ⟨hext, le_refl _, htot, by simp, Or.inl rfl,
          fun hG hp => ?_⟩, fun hno' _ => ?_⟩,
          (ht2.mono (Frame.nothing_le (.block addr))).trans ht3, hq3.2.1.trans hlog, ?_,
          Or.inr ⟨k, hk, by omega, hbad k hk, Or.inl rfl, ?_, fun hp => ?_, by rw [hext.sb]; exact hdata, hFaddr, ?_⟩⟩
        · rw [(hext.packed hp).1, hgrown.fileBytes hx hG]
          simp
        · have := hno' k hk
          omega
        · unfold sparing at hq3 ⊢
          rw [← hlog, ← hv2]
          exact hq3.2.2
        · show off % BSIZE + (k - tot) < BSIZE
          omega
        · rw [hext.slot]
          exact ((hext.packed hp).1 ▸ hb :)
        · rw [hq3.1, hk]
          rfl
      · have hbad' := faults_false hf
        refine touch_bind (Frame.block_le hFaddr) (logUpdate_runs hP hh) fun _ s3 ht3 hq3 => ?_
        obtain ⟨hv3, -, hr3⟩ := hq3
        have ht13 := (ht2.mono (Frame.nothing_le (.block addr))).trans ht3
        have hext3 : Extended G ip g.new g.es s s3 := hext.quiet ht13
          (fun c h => by rw [show c = addr from h]; exact hdata) (fun _ h => h) hr3
        have hplan : growTo s.sb.size (mark (bits s) g.new) g.es hi = writePlan s3 ip hi := by
          unfold writePlan
          rw [hext3.sb, hext3.bits, hext3.slot]
          rfl
        rw [hplan] at hsplit
        have hhi' : off + m + (n - (tot + m)) = hi := by omega
        refine (@ih s3 (tot + m) (off + m) hext3.ok (hext3.holds hok hx)
          (by omega) (by omega) hbad' ?_).imp fun r s' _ hq => ?_
        · rw [hhi']
          exact hF.rest hoff hsplit hext3
        · obtain ⟨x, t, ⟨new', es', hw, hpl⟩, hleft⟩ := hq
          refine ⟨x, t, ⟨g.new ++ new', es', Written.step hx hok hm hb hgrown hext3 (fun c hc => ?_) hw,
            fun hno' hcov => ?_⟩, hleft.touch, hleft.log, hleft.ready, hleft.ends.imp (fun e => ⟨e.1,
            e.2.1.imp id fun hl => ?_, e.2.2⟩) fun ⟨k, hk⟩ => ⟨k, { hk with
              start := Or.inr ?_
              block := fun hp => ?_ }⟩⟩
          · rw [hv3, ht2.update_view hc]
          · have hlen := (List.getElem?_eq_some_iff.mp hb).1
            rw [← hext.perm.length_eq] at hlen
            have hp := hpl hno' fun e => by
              rw [hext3.slot]
              show off + m ≤ BSIZE * (blocksOf g.es.1).length
              simp only [BSIZE] at *
              omega
            rw [hhi'] at hp
            rw [hhi, hsplit]
            exact ⟨by rw [hp.new], hp.es, hp.stop, hp.done, hp.full⟩
          · rw [hext3.slot] at hl
            refine le_trans ?_ (show (blocksOf g.es.1).length ≤ r.2 / BSIZE from hl)
            rw [hext.perm.length_eq, List.length_append]
            omega
          · have h1 := hk.ge
            have h2 := hk.lt
            have h3 := hw.fin
            rcases hk.start with e | e
            · simp only [BSIZE] at *
              omega
            · exact e
          · exact hk.block (by rw [hext3.slot]; exact (hext3.packed hp).2)

end Write

end HaiOS
