/-
  File:      HaiOS/Fs/Files.lean
  Subject:   FILES AS LISTS OF BYTES. The calls of the inode layer, seen from above the blocks:
             an inode is a `Dinode` and a list of bytes.

  * `file s i` -- the bytes of inode `i`;
  * `FilesOk G` -- the invariant of the file system, with every file sound. What is said of bytes
    is said when `G` is every block;
  * `Becomes` -- the inodes and the bytes after a call.
-/
import HaiOS.Fs.Inv

namespace HaiOS

open Lib Function

/-! ## 1. The view from above -/

/-- Every block. -/
abbrev All (_ : Nat) : Prop := True

theorem all_all : ∀ b, All b := fun _ => trivial

/-- The bytes of inode `i`; a free inode has none. -/
def file (s : Fs) (i : Nat) : List UInt8 :=
  if (dinodes s i).type = 0 then [] else content s (dinodes s i)

structure FilesOk (G : Nat → Prop) (s : Fs) : Prop where
  inv : FsInv G s
  sound : ∀ i, (dinodes s i).type ≠ 0 → Sound (dinodes s i)

/-- **After a call the inodes are `dins` and their bytes are `files`.** -/
structure Becomes (G : Nat → Prop) (dins : Nat → Dinode) (files : Nat → List UInt8) (s s' : Fs) :
    Prop where
  ok : FilesOk G s'
  sb : s'.sb = s.sb
  dinodes : dinodes s' = dins
  file : (∀ b, G b) → file s' = files

/-- Nothing has changed for files. -/
abbrev Same (G : Nat → Prop) (s s' : Fs) : Prop := Becomes G (dinodes s) (file s) s s'

section Views

variable {G : Nat → Prop} {s s' s'' : Fs} {ip i : Nat} {d : Dinode} {l : List UInt8} {dins : Nat → Dinode}
  {files : Nat → List UInt8}

theorem Becomes.refl (h : FilesOk G s) : Same G s s := ⟨h, rfl, rfl, fun _ => rfl⟩

theorem content_congr (h : ∀ b ∈ blocksOf d.extents.1, view s' b = view s b) :
    content s' d = content s d := by
  unfold content
  rw [fileBytes_congr h]

theorem file_of_content (h : dinodes s' i = dinodes s i)
    (hc : (dinodes s i).type ≠ 0 → content s' (dinodes s i) = content s (dinodes s i)) :
    file s' i = file s i := by
  unfold file
  rw [h]
  split
  · rfl
  · exact hc ‹_›

theorem mem_owner {b : Nat} (ht : (dinodes s i).type ≠ 0)
    (hb : b ∈ blocksOf (dinodes s i).extents.1) : b ∈ owner s i := by
  rw [owner, if_neg ht]
  exact hb

theorem Others.file {j : Nat} (ho : Others G i s s') (hG : ∀ b, G b) (hj : j ≠ i) :
    HaiOS.file s' j = HaiOS.file s j :=
  file_of_content (ho.dinodes j hj) fun ht =>
    content_congr fun b hb => ho.view j hj b (mem_owner ht hb) (hG b)

/-- A call on inode `i` has ended. -/
theorem FilesOk.becomes (h : FilesOk G s) (hinv : FsInv G s') (ho : Others G i s s')
    (hd : dinodes s' = update (dinodes s) i d) (hsound : d.type ≠ 0 → Sound d)
    (hf : (∀ b, G b) → file s' i = l) :
    Becomes G (update (dinodes s) i d) (update (file s) i l) s s' := by
  refine ⟨⟨hinv, fun j hj => ?_⟩, ho.sb, hd, fun hG => funext fun j => ?_⟩
  · rw [hd] at hj ⊢
    by_cases hji : j = i
    · subst hji
      rw [update_self] at hj ⊢
      exact hsound hj
    · rw [update_of_ne hji] at hj ⊢
      exact h.sound j hj
  · by_cases hji : j = i
    · subst hji
      rw [update_self]
      exact hf hG
    · rw [update_of_ne hji]
      exact ho.file hG hji

/-- A call has ended after which every block of a file, and every inode, is seen as before. -/
theorem FilesOk.same (h : FilesOk G s) (hinv : FsInv G s') (hsb : s'.sb = s.sb)
    (hd : dinodes s' = dinodes s)
    (hv : ∀ b, G b → s.sb.dataStart ≤ b → view s' b = view s b) : Same G s s' := by
  refine ⟨⟨hinv, fun j hj => ?_⟩, hsb, hd, fun hG => funext fun j => ?_⟩
  · rw [hd] at hj ⊢
    exact h.sound j hj
  · refine file_of_content (congrFun hd j) fun ht => content_congr fun b hb => ?_
    exact hv b (hG b) (h.inv.data (mem_owner ht hb)).1

/-- A call that changes no block. -/
theorem FilesOk.still {F : Frame} (h : FilesOk G s) (ht : Touch G F s s') (hF : ∀ b, ¬ F.blocks b)
    (hinv : FsInv G s') : Same G s s' :=
  h.same hinv ht.sb (h.inv.ok.still ht hF hinv.ok.ready).2.1 fun b hG _ => ht.view b hG (hF b)

/-- The inode in a slot that has been read. -/
theorem FsInv.din_eq (h : FsInv G s) (hl : Locked s ip) :
    (s.itable ip).din = dinodes s (s.itable ip).inum :=
  (h.slots.sync ip hl.1 hl.2).1

variable (h : FilesOk G s) (hl : Locked s ip)
include h hl

theorem FilesOk.file_eq : file s (s.itable ip).inum = content s (s.itable ip).din := by
  have ht := h.inv.type_ne_zero hl
  rw [h.inv.din_eq hl] at ht ⊢
  exact if_neg ht

theorem FilesOk.sound_eq : Sound (s.itable ip).din := by
  have ht := h.inv.type_ne_zero hl
  rw [h.inv.din_eq hl] at ht ⊢
  exact h.sound _ ht

theorem FilesOk.length_file : (file s (s.itable ip).inum).length = (s.itable ip).din.size.toNat := by
  rw [h.file_eq hl, length_content]

end Views

/-! ## 2. The calls -/

section Rules

variable {G : Nat → Prop} {P : Panic → Fs → Prop} {s : Fs} {ip inum : Nat}
  (hres : ∀ p s, resourcePanic p = true → P p s)
include hres

omit hres in
theorem ilock_file (hP : ∀ p s, Exhausted p s → P p s) (h : FilesOk G s) (href : (s.itable ip).ref < 1 → P .ilock s)
    (htype : (s.itable ip).valid = false → (dinodes s (s.itable ip).inum).type = 0 →
      ∀ s', P .ilockNoType s') :
    (ilock ip s).Runs (Touch G (.slot ip)) P s fun _ s' =>
      Same G s s' ∧ Locked s' ip ∧ s'.itable = update s.itable ip
        ((s.itable ip).locked (dinodes s (s.itable ip).inum)) :=
  (ilock_inv hP h.inv href htype).imp fun _ _ ht hq =>
    ⟨h.still ht (fun _ hf => hf) hq.1, hq.2.1, hq.2.2.2⟩

omit hres in
/-- **`readi`** returns the bytes from `off` to the end of the read or of the file, and counts no
    error when the checksum is right. -/
theorem readi_bytes (hP : ∀ p s, Starved p s → P p s) {bad : Option Nat} {off n : UInt32}
    (h : FilesOk G s) (hl : Locked s ip) :
    (readi ip bad off n s).Runs (Touch G .errors) P s fun r s' =>
      Same G s s' ∧ s'.itable = s.itable ∧
      ((∀ b, G b) → bad = none → r.2 = ((file s (s.itable ip).inum).drop off.toNat).take
          (min (off + n).toNat (file s (s.itable ip).inum).length - off.toNat) ∧
        r.1 = (UInt32.ofNat r.2.length).toInt32) ∧
      ((∀ b, G b) → Summed s (s.itable ip).din → s'.checksumErrors = s.checksumErrors) := by
  have hlen := h.length_file hl
  refine (readi_runs hP h.inv.ok (h.inv.holds hl)
    (h.sound_eq hl)).imp fun r s' ht hq => ?_
  obtain ⟨hr, hval, herr⟩ := hq
  have hit : s'.itable = s.itable := ht.itable_eq fun _ hf => hf
  have hinv : FsInv G s' := h.inv.still ht (fun _ hf => hf) hr (by rw [hit]; exact h.inv.slots)
  refine ⟨h.still ht (fun _ hf => hf) hinv, hit, fun hG hbad => ?_, herr⟩
  have hr := hval hG (by rw [hbad]; exact fun k hk => by cases hk)
  have hcount : readCount (s.itable ip).din.size off n =
      min (off + n).toNat (file s (s.itable ip).inum).length - off.toNat := by
    rw [hlen, readCount]
    split
    · rename_i hno
      rcases hno with hno | hno
      · have := UInt32.lt_iff_toNat_lt.mp hno
        omega
      · have := UInt32.lt_iff_toNat_lt.mp hno
        omega
    · rename_i hno
      rw [← readLen_add (fun h1 => hno (Or.inl h1)) fun h2 => hno (Or.inr h2)]
      omega
  rw [hr, hcount, h.file_eq hl]
  refine ⟨rfl, ?_⟩
  simp only [List.length_take, List.length_drop]
  congr 2
  omega

omit hres in
theorem FilesOk.writeOk_le {off n : UInt32} (h : FilesOk G s) (hl : Locked s ip)
    (hw : writeOk (s.itable ip).din off n) : off.toNat ≤ (file s (s.itable ip).inum).length := by
  rw [h.length_file hl]
  exact UInt32.le_iff_toNat_le.mp (UInt32.not_lt.mp fun h1 => hw.1 (Or.inl h1))

/-- **`writei`** overwrites or appends the first `k` bytes of the source and returns `k`, unless its
    checks fail. -/
theorem writei_file {src : Src} {off n : UInt32} (h : FilesOk G s) (hl : Locked s ip)
    (hfault : (∀ b, s.sb.dataStart ≤ b → ¬ G b) ∨ src.Whole n.toNat 0 off.toNat) :
    (writei ip src off n s).Runs (Touch G (opFrame s (s.itable ip).inum)) P s fun r s' =>
      (¬ writeOk (s.itable ip).din off n ∧ r = -1 ∧ s' = s) ∨
      (writeOk (s.itable ip).din off n ∧ ∃ k new y, r = (UInt32.ofNat k).toInt32 ∧
        Wrote G ip src off n k new y s s' ∧ Locked s' ip ∧
        Becomes G (update (dinodes s) (s.itable ip).inum y.din)
          (update (file s) (s.itable ip).inum
            (overwrite (file s (s.itable ip).inum) off.toNat (slice src.bytes 0 k))) s s') := by
  have hown : ∀ b ∈ blocksOf (s.itable ip).din.extents.1,
      (opFrame s (s.itable ip).inum).blocks b := fun b hb =>
    opFrame_own h.inv (by rw [h.inv.owner_eq hl]; exact hb)
  refine (writei_runs (fun p s hp => hres p s (exhausted_resource hp)) h.inv.ok (h.inv.holds hl)
    (h.sound_eq hl) hfault ((opFrame_any h.inv).write hown _ _)
    (opFrame_inode h.inv (h.inv.slots.inums ip hl.1)) fun s' => hres _ _ rfl).imp
    fun r s' ht hq => ?_
  refine hq.imp id fun ⟨hwok, k, new, y, hr, hw⟩ => ⟨hwok, k, new, y, hr, hw, ?_⟩
  obtain ⟨hinv, hl', ho, -⟩ := h.inv.wrote hl ht hw.upd hw.kept
  refine ⟨hl', h.becomes hinv ho hw.upd.dinodes (fun _ => hw.sound) fun hG => ?_⟩
  have htype : y.din.type ≠ 0 := by
    rw [hw.kept.type]
    exact h.inv.type_ne_zero hl
  have hle := h.writeOk_le hl hwok
  rw [h.length_file hl] at hle
  have hp := slice_patch_overwrite (fileBytes (view s) (blocksOf (s.itable ip).din.extents.1))
    (slice src.bytes 0 k) hle
  rw [length_slice] at hp
  rw [h.file_eq hl, file, hw.upd.dinodes, update_self, if_neg htype, content,
    hw.data hG, hw.size, hp]
  rfl

/-- **`itrunc`** empties the file. -/
theorem itrunc_file (h : FilesOk G s) (hl : Locked s ip) :
    (itrunc ip s).Runs (Touch G (opFrame s (s.itable ip).inum)) P s fun _ s' =>
      Locked s' ip ∧ s'.itable = update s.itable ip (s.itable ip).truncated ∧
      Becomes G (update (dinodes s) (s.itable ip).inum (s.itable ip).truncated.din)
        (update (file s) (s.itable ip).inum []) s s' := by
  refine (itrunc_inv hres h.inv hl).imp fun _ s' _ hq => ?_
  obtain ⟨hinv, hl', ho, hd, hit⟩ := hq
  refine ⟨hl', hit, h.becomes hinv ho hd (fun _ => ⟨Nat.zero_le _, packed_cleared _, Nat.zero_le _⟩) fun _ => ?_⟩
  rw [file, hd, update_self]
  split <;> rfl

/-- The fields that `amend` sets have nothing to do with the bytes. -/
theorem amend_file {f : Dinode → Dinode} (hf : Dinode.Amends f) (h : FilesOk G s) (hl : Locked s ip) :
    (amend ip f s).Runs (Touch G (metaFrame s)) P s fun _ s' =>
      Locked s' ip ∧ s'.itable = update s.itable ip ((s.itable ip).amended f) ∧
      Becomes G (update (dinodes s) (s.itable ip).inum (f (s.itable ip).din)) (file s) s s' := by
  refine (amend_inv hres hf h.inv hl).imp fun _ s' ht hq => ?_
  obtain ⟨hinv, hl', ho, hd, hit⟩ := hq
  have hsound := h.sound_eq hl
  have htype := h.inv.type_ne_zero hl
  have hb := h.becomes (l := file s (s.itable ip).inum) hinv ho hd (fun _ => ?_) fun hG => ?_
  · rw [update_eq_self] at hb
    exact ⟨hl', hit, hb⟩
  · exact ⟨by rw [hf.size, hf.extents]; exact hsound.covered, by
      rw [hf.extents]
      exact hsound.packed, by rw [hf.size]; exact hsound.small⟩
  · rw [h.file_eq hl, file, hd, update_self, hf.type, if_neg htype]
    unfold content
    rw [hf.extents, hf.size, fileBytes_congr fun b hb => metaFrame_view ht (hG b) ?_]
    exact ((h.inv.holds hl).data b hb).1

/-- What `iput` leaves: the inode is freed, or has one reference less. -/
def Put (G : Nat → Prop) (ip : Nat) (s s' : Fs) : Prop :=
  ((s.itable ip).last ∧ s'.itable = update s.itable ip (s.itable ip).freed.drop ∧
    Becomes G (update (dinodes s) (s.itable ip).inum (s.itable ip).freed.din)
      (update (file s) (s.itable ip).inum []) s s') ∨
  (¬ (s.itable ip).last ∧ s' = s.setSlot ip (s.itable ip).drop ∧ Same G s s')

variable (h : FilesOk G s)
include h

/-- **`iput`** frees the inode when the last reference to an inode without links is dropped. -/
theorem iput_file :
    (iput ip s).Runs (Touch G (opFrame s (s.itable ip).inum)) P s fun _ s' => Put G ip s s' := by
  refine (iput_inv hres h.inv).imp fun _ s' ht hq => ?_
  obtain ⟨hinv, ho, hlast, hnot⟩ := hq
  by_cases hl : (s.itable ip).last
  · obtain ⟨hd, hit⟩ := hlast hl
    refine Or.inl ⟨hl, hit, h.becomes hinv ho hd (fun h0 => absurd rfl h0) fun _ => ?_⟩
    rw [file, hd, update_self]
    exact if_pos rfl
  · have hs := hnot hl
    refine Or.inr ⟨hl, hs, ?_⟩
    subst hs
    exact h.same hinv rfl rfl fun _ _ _ => rfl

theorem iunlockput_file (href : (s.itable ip).ref < 1 → P .iunlock s) :
    (iunlockput ip s).Runs (Touch G (opFrame s (s.itable ip).inum)) P s fun _ s' => Put G ip s s' := by
  refine touch_bind (Frame.nothing_le _) (iunlock_inv h.inv href) fun _ s1 _ hq => ?_
  rw [hq.1]
  exact iput_file hres h

/-- **`ialloc`** makes an empty file. -/
theorem ialloc_file {type : Int16} :
    (ialloc type s).Runs (Touch G (metaFrame s)) P s fun r s' =>
      match freeInum s with
        | none => r = none ∧ s'.itable = s.itable ∧ Same G s s'
        | some inum => ∃ ip, r = some ip ∧ igetSlot s.itable inum = some ip ∧
            s'.itable = update s.itable ip ((s.itable ip).got inum) ∧
            Becomes G (update (dinodes s) inum (Dinode.fresh type)) (file s) s s' := by
  refine (ialloc_inv hres h.inv).imp fun r s' ht hq => ?_
  obtain ⟨hinv, hq⟩ := hq
  cases hf : freeInum s with
  | none =>
    rw [hf] at hq
    exact ⟨hq.1, hq.2.itable_eq fun _ hf => hf, h.still hq.2 (fun _ hf => hf) hinv⟩
  | some inum =>
    rw [hf] at hq
    obtain ⟨ip, hr, hslot, hit, hd, ho⟩ := hq
    obtain ⟨-, -, h0⟩ := freeInum_some hf
    have hb := h.becomes (l := file s inum) hinv ho hd (fun _ => ?_) fun _ => ?_
    · rw [update_eq_self] at hb
      exact ⟨ip, hr, hslot, hit, hb⟩
    · exact ⟨Nat.zero_le _, packed_none, Nat.zero_le _⟩
    · rw [file, hd, update_self, file, if_pos h0]
      split <;> rfl

theorem iget_file (hi : inum < s.sb.ninodes) :
    (iget inum s).Runs (Touch G (metaFrame s)) P s fun ip s' =>
      igetSlot s.itable inum = some ip ∧ s' = s.setSlot ip ((s.itable ip).got inum) ∧ Same G s s' := by
  refine (iget_inv hres h.inv hi).imp fun ip s' _ hq => ?_
  obtain ⟨hinv, hslot, rfl⟩ := hq
  exact ⟨hslot, rfl, h.same hinv rfl rfl fun _ _ _ => rfl⟩

theorem endOp_file : (endOp s).Sat (fun _ s' => SameView G s s' ∧ Same G s s') fun p s' => P p s' :=
  (endOp_inv hres h.inv).imp fun _ _ hq =>
    ⟨hq.2, h.same hq.1 hq.2.sb hq.2.dinodes hq.2.view⟩

end Rules

end HaiOS
