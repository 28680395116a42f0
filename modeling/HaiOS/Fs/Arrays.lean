/-
  File:      HaiOS/Fs/Arrays.lean
  Subject:   FILES REFINE BYTE ARRAYS.

  * `Spec` -- the abstract machine: one list of bytes for each inode. A read returns a part of a
    list, a write overwrites or appends at most its data, a truncation empties the list;
  * `exec_file` -- one call of the inode layer is one step of the abstract machine, and keeps the
    checksums right;
  * `files_refine_arrays` -- so every run of the inode layer is a run of the abstract machine.
-/
import HaiOS.Fs.Calls

namespace HaiOS.Arrays

open Lib Function

/-! ## 1. The abstract machine -/

/-- The bytes a read of `n` bytes at `off` returns: those in `[off, min (off + n) size)`. -/
def read (l : List UInt8) (off n : UInt32) : List UInt8 :=
  (l.drop off.toNat).take (min (off + n).toNat l.length - off.toNat)

/-- A write that starts in the list or at its end, and ends where a file may end. -/
def Writable (l : List UInt8) (off n : UInt32) : Prop :=
  off.toNat ≤ l.length ∧ off.toNat + n.toNat ≤ MAXFILE * BSIZE

/-- **One list of bytes for each inode.** The answer of a call and the lists after it. -/
def Spec (f : Nat → List UInt8) (e : Event) (f' : Nat → List UInt8) : Prop :=
  match e.call, e.answer with
  | .readi _ bad off n, .bytes r out =>
    f' = f ∧ (bad = none → out = read (f e.inum) off n ∧ r = (UInt32.ofNat out.length).toInt32)
  | .writei _ src off n, .count r =>
    (¬ Writable (f e.inum) off n ∧ r = -1 ∧ f' = f) ∨
    (Writable (f e.inum) off n ∧ ∃ k ≤ n.toNat, r = (UInt32.ofNat k).toInt32 ∧
      f' = update f e.inum (overwrite (f e.inum) off.toNat (slice src.bytes 0 k)))
  | .itrunc _, .unit => f' = update f e.inum []
  -- a file without links is freed with the last reference
  | .iput _, .unit => f' = f ∨ f' = update f e.inum []
  | .fverify _, .count _ => f' = f ∨ f' = update f e.inum []
  | .beginOp, .unit | .endOp, .unit | .read _, .unit | .iget _, .slot _ | .idup _, .slot _
  | .ialloc _, .slot _ | .amend .., .unit => f' = f
  | _, _ => False

/-! ## 2. Checksums -/

/-- The checksum that an inode should have. -/
def sumFor (d : Dinode) (l : List UInt8) : UInt32 := if d.checked then adler32 l else 1

/-- **Every inode has the checksum of its list.** -/
def SumsOf (dins : Nat → Dinode) (files : Nat → List UInt8) : Prop :=
  ∀ i, (dins i).type ≠ 0 → (dins i).checksum = sumFor (dins i) (files i)

/-- The checksums that the kernel sees are right. -/
abbrev Sums (s : Fs) : Prop := SumsOf (dinodes s) (file s)

variable {dins : Nat → Dinode} {files : Nat → List UInt8}

theorem SumsOf.update {i : Nat} {d : Dinode} {l : List UInt8} (h : SumsOf dins files)
    (hd : d.type ≠ 0 → d.checksum = sumFor d l) :
    SumsOf (update dins i d) (update files i l) := by
  intro j hj
  by_cases hji : j = i
  · subst hji
    rw [update_self] at hj ⊢
    rw [update_self]
    exact hd hj
  · rw [update_of_ne hji] at hj ⊢
    rw [update_of_ne hji]
    exact h j hj

variable {G : Nat → Prop}

theorem sums_of_becomes {s s' : Fs} (h : Becomes G dins files s s') (hG : ∀ b, G b)
    (hs : SumsOf dins files) :
    Sums s' := by
  unfold Sums
  rw [h.dinodes, h.file hG]
  exact hs

theorem sumFor_congr {d d' : Dinode} (h : d'.type = d.type) (l : List UInt8) :
    sumFor d' l = sumFor d l := by
  have hc : d'.checked ↔ d.checked := by
    unfold Dinode.checked
    rw [h]
  simp only [sumFor, hc]

/-! ## 3. One call -/

/-- A copy from user memory that fails does so before the first byte of a block; in particular,
    one that does not fail. -/
def Whole : Call → Prop
  | .writei _ src off n => src.Whole n.toNat 0 off.toNat
  | _ => True

/-- **What a call does that returns.** -/
structure Did (G : Nat → Prop) (e : Event) (s s' : Fs) : Prop where
  ok : FilesOk G s'
  sb : s'.sb = s.sb
  spec : (∀ b, G b) → Spec (file s) e (file s')
  sums : (∀ b, G b) → Sums s → Sums s' ∧ s'.checksumErrors = s.checksumErrors ∧
    (e.call = .fverify e.call.slot → e.answer = .count 0)
  durable : s'.disk = s.disk ∨ s'.log.lh = []

section OneCall

variable {G : Nat → Prop} {s s' : Fs} {ip : Nat}

/-- A call that leaves files and checksums. -/
theorem Did.quiet {e : Event} (h : Same G s s') (hspec : Spec (file s) e (file s))
    (herr : s'.checksumErrors = s.checksumErrors) (hf : ∀ ip, e.call ≠ .fverify ip)
    (hd : s'.disk = s.disk ∨ s'.log.lh = []) : Did G e s s' :=
  ⟨h.ok, h.sb, fun hG => by rw [h.file hG]; exact hspec, fun hG hs =>
    ⟨sums_of_becomes h hG hs, herr, fun e => absurd e (hf _)⟩, hd⟩

/-- What `ilock` does before is nothing to files. -/
theorem Did.after {e : Event} {s1 : Fs} (h : Same G s s1) (ht : Touch G (.slot ip) s s1)
    (hd : Did G e s1 s') : Did G e s s' := by
  have herr : s1.checksumErrors = s.checksumErrors := ht.errs fun h => h
  refine ⟨hd.ok, hd.sb.trans h.sb, fun hG => ?_, fun hG hs => ?_, ?_⟩
  · have := hd.spec hG
    rwa [h.file hG] at this
  · obtain ⟨h1, h2, h3⟩ := hd.sums hG (sums_of_becomes h hG hs)
    exact ⟨h1, h2.trans herr, h3⟩
  · rw [← ht.disk]
    exact hd.durable

/-- A call on the locked inode. -/
theorem locked_did {α : Type} {m : FsM α} {c : Call} {f : α → Answer} (h : FilesOk G s)
    (hm : ∀ s1, FilesOk G s1 → Locked s1 ip → (s1.itable ip).inum = (s.itable ip).inum →
      s1.sb = s.sb →
      (m s1).Sat (fun a s' => Did G ⟨c, (s.itable ip).inum, f a⟩ s1 s') fun p _ => layerPanic p = true) :
    (locked ip m s).Sat (fun a s' => Did G ⟨c, (s.itable ip).inum, f a⟩ s s')
      fun p _ => layerPanic p = true := by
  refine locked_sat (fun _ _ h => h) h.inv fun s1 ht h1 hl1 hit => ?_
  have hsame := h.still ht (fun _ hf => hf) h1
  refine (hm s1 hsame.ok hl1 ?_ ht.sb).imp fun a s' hd => ⟨hd.ok.inv, hd.after hsame ht⟩
  rw [hit, update_self, Inode.locked]
  split <;> rfl

theorem writable_iff (h : FilesOk G s) (hl : Locked s ip) (off n : UInt32) :
    Writable (file s (s.itable ip).inum) off n ↔ writeOk (s.itable ip).din off n := by
  have h1 := off.toNat_lt
  have h2 := n.toNat_lt
  unfold Writable writeOk
  rw [h.length_file hl, not_or, not_lt, UInt32.not_lt, UInt32.not_lt, UInt32.le_iff_toNat_le,
    UInt32.le_iff_toNat_le, UInt32.toNat_add]
  simp only [MAXFILE, BSIZE]
  omega

theorem sums_slot (hs : Sums s) (h : FilesOk G s) (hl : Locked s ip) :
    (s.itable ip).din.checksum = sumFor (s.itable ip).din (file s (s.itable ip).inum) := by
  have ht := h.inv.type_ne_zero hl
  rw [h.inv.din_eq hl] at ht ⊢
  exact hs _ ht

theorem summed_slot (hs : Sums s) (h : FilesOk G s) (hl : Locked s ip) :
    Summed s (s.itable ip).din := by
  intro hc
  rw [sums_slot hs h hl, sumFor, if_pos hc, h.file_eq hl]

theorem writei_did {src : Src} {off n : UInt32} {c : Call} (h : FilesOk G s) (hl : Locked s ip)
    (hw : (∀ b, s.sb.dataStart ≤ b → ¬ G b) ∨ src.Whole n.toNat 0 off.toNat)
    (hc : c = .writei ip src off n) :
    (writei ip src off n s).Sat (fun r s' => Did G ⟨c, (s.itable ip).inum, .count r⟩ s s')
      fun p _ => layerPanic p = true := by
  subst hc
  refine (writei_file (fun _ _ => resource_layer) h hl hw).sat.imp fun r s' hq => ?_
  obtain ⟨ht, hq⟩ := hq
  rcases hq with ⟨hno, hr, rfl⟩ | ⟨hok, k, new, y, hr, hwr, -, hb⟩
  · exact .quiet (Becomes.refl h) (Or.inl ⟨fun hwb => hno ((writable_iff h hl off n).mp hwb), hr, rfl⟩)
      rfl (fun _ e => by cases e) (Or.inl rfl)
  refine ⟨hb.ok, hb.sb,
    fun hG => Or.inr ⟨(writable_iff h hl off n).mpr hok, k, hwr.le, hr, hb.file hG⟩,
    fun hG hs => ⟨sums_of_becomes hb hG (hs.update fun htype => ?_), ht.errs fun h => h,
      fun e => by cases e⟩, Or.inl ht.disk⟩
  -- the bytes that were hashed are the bytes of the file
  have hfile : file s' (s.itable ip).inum = content s' y.din := by
    rw [file, hb.dinodes, update_self, if_neg htype]
  rw [hb.file hG, update_self] at hfile
  rw [hfile]
  by_cases hch : y.din.checked
  · rw [sumFor, if_pos hch]
    exact hwr.summed hG hch
  · have hch' : ¬ (s.itable ip).din.checked := by
      unfold Dinode.checked at hch ⊢
      rwa [← hwr.kept.type]
    rw [sumFor, if_neg hch, hwr.unsummed hch', sums_slot hs h hl, sumFor, if_neg hch']

theorem put_did (hput : Put G ip s s') (ht : Touch G (opFrame s (s.itable ip).inum) s s') :
    Did G ⟨.iput ip, (s.itable ip).inum, .unit⟩ s s' := by
  have herr := ht.errs fun h => h
  rcases hput with ⟨-, -, hb⟩ | ⟨-, -, hb⟩
  · exact ⟨hb.ok, hb.sb, fun hG => Or.inr (hb.file hG), fun hG hs =>
      ⟨sums_of_becomes hb hG (hs.update fun h0 => absurd rfl h0), herr, fun e => by cases e⟩,
      Or.inl ht.disk⟩
  · exact .quiet hb (Or.inl rfl) herr (fun _ e => by cases e) (Or.inl ht.disk)

/-- **`sys_fverify`** finds no error when the checksums are right. -/
theorem fverify_did (h : FilesOk G s) :
    (fverify ip s).Sat (fun r s' => Did G ⟨.fverify ip, (s.itable ip).inum, .count r⟩ s s')
      fun p _ => layerPanic p = true := by
  have hres : ∀ p (s : Fs), resourcePanic p = true → (fun p (_ : Fs) => layerPanic p = true) p s :=
    fun _ _ => resource_layer
  refine Outcome.Sat.bind (ilock_file (fun p s hp => hres p s (exhausted_resource hp)) h (fun _ => rfl)
    fun _ _ _ => rfl).sat ?_
  rintro _ s1 ⟨ht1, hsame1, hl1, hit1⟩
  have h1 := hsame1.ok
  have hinum : (s1.itable ip).inum = (s.itable ip).inum := by
    rw [hit1, update_self, Inode.locked]
    split <;> rfl
  refine Outcome.Sat.bind (inodeChecksum_runs (starved_of fun p s hp => exhausted_layer hp) h1.inv.ok
    (h1.inv.holds hl1) (h1.sound_eq hl1)).sat ?_
  rintro r s2 ⟨ht2, hr2, hval⟩
  have hit2 : s2.itable = s1.itable := ht2.itable_eq fun _ hf => hf
  have hinv2 := h1.inv.still ht2 (fun _ hf => hf) hr2 (by rw [hit2]; exact h1.inv.slots)
  have hsame2 := h1.still ht2 (fun _ hf => hf) hinv2
  rw [inode, Routine.gets_bind, hit2]
  refine Outcome.Sat.bind (iunlockput_file hres hsame2.ok fun _ => rfl).sat ?_
  rintro _ s3 ⟨ht3, hput⟩
  obtain ⟨hok3, hsb3, hspec3, hsums3, hdur3⟩ := put_did hput ht3
  refine .after hsame1 ht1 ⟨hok3, hsb3.trans hsame2.sb, fun hG => ?_, fun hG hs => ?_, ?_⟩
  · have hspec := hspec3 hG
    rw [hsame2.file hG, hit2, hinum] at hspec
    exact hspec
  · obtain ⟨h3, h4, -⟩ := hsums3 hG (sums_of_becomes hsame2 hG hs)
    refine ⟨h3, h4.trans (ht2.errs fun h => h), fun _ => ?_⟩
    have hsum : r = (s1.itable ip).din.checksum := by
      rw [hval hG, sums_slot hs h1 hl1, h1.file_eq hl1]
      rfl
    rw [if_pos hsum]
  · rw [← ht2.disk]
    exact hdur3

/-- **One call is one step of the abstract machine**, and keeps the checksums right. -/
theorem exec_file (h : FilesOk G s) {c : Call} (hc : c.Legal s)
    (hw : (∀ b, s.sb.dataStart ≤ b → ¬ G b) ∨ Whole c) :
    (c.exec s).Sat (fun a s' => Did G ⟨c, (s.itable c.slot).inum, a⟩ s s')
      fun p _ => layerPanic p = true := by
  have hres : ∀ p (s : Fs), resourcePanic p = true → (fun p (_ : Fs) => layerPanic p = true) p s :=
    fun _ _ => resource_layer
  cases c with
  | beginOp =>
    refine (beginOp_inv (P := fun p _ => layerPanic p = true) h.inv).bind ?_
    rintro _ s1 ⟨h1, k, rfl⟩
    exact .quiet (h.same h1 rfl rfl fun _ _ _ => rfl) rfl rfl (fun _ e => by cases e) (Or.inl rfl)
  | endOp =>
    refine (endOp_file hres h).bind fun _ s1 hq => ?_
    exact .quiet hq.2 rfl hq.1.errs (fun _ e => by cases e) hq.1.durable
  | read b =>
    refine Outcome.Sat.bind (peek_inv (b := b) hres h.inv).sat fun _ s1 hq => ?_
    exact .quiet (h.still hq.1 (fun _ hf => hf) hq.2) rfl (hq.1.errs fun h => h)
      (fun _ e => by cases e) (Or.inl hq.1.disk)
  | iget inum =>
    refine Outcome.Sat.bind (iget_file hres h hc).sat fun ip s1 hq => ?_
    exact .quiet hq.2.2.2 rfl (hq.1.errs fun h => h) (fun _ e => by cases e) (Or.inl hq.1.disk)
  | idup ip =>
    refine Outcome.Sat.bind (idup_inv (P := fun p _ => layerPanic p = true) h.inv hc).sat
      fun _ s1 hq => ?_
    exact .quiet (h.still hq.1 (fun _ hf => hf) hq.2.1) rfl (hq.1.errs fun h => h)
      (fun _ e => by cases e) (Or.inl hq.1.disk)
  | ialloc type =>
    refine Outcome.Sat.bind (ialloc_file hres h).sat fun r s1 hq => ?_
    obtain ⟨ht, hq⟩ := hq
    have herr := ht.errs fun h => h
    cases hf : freeInum s with
    | none =>
      rw [hf] at hq
      exact .quiet hq.2.2 rfl herr (fun _ e => by cases e) (Or.inl ht.disk)
    | some i =>
      rw [hf] at hq
      obtain ⟨ip, -, -, -, hb⟩ := hq
      refine ⟨hb.ok, hb.sb, hb.file, fun hG hs => ⟨sums_of_becomes hb hG ?_, herr,
        fun e => by cases e⟩, Or.inl ht.disk⟩
      have hu := hs.update (i := i) (l := file s i) (d := Dinode.fresh type) fun _ => ?_
      · rwa [update_eq_self] at hu
      · rw [file, if_pos (freeInum_some hf).2.2, sumFor, adler32_nil, ite_self]
        rfl
  | iput ip =>
    exact Outcome.Sat.bind (iput_file hres h).sat fun _ s1 hq => put_did hq.2 hq.1
  | amend ip major minor nlink =>
    refine (locked_did (f := fun _ => .unit) h fun s1 h1 hl1 hi hsb => ?_).bind
      fun _ _ hq => hq
    refine (amend_file hres (links_amends major minor nlink) h1 hl1).sat.imp fun _ s2 hq => ?_
    obtain ⟨ht, -, -, hb⟩ := hq
    refine ⟨hb.ok, hb.sb, hb.file, fun hG hs => ⟨sums_of_becomes hb hG ?_, ht.errs fun h => h,
      fun e => by cases e⟩, Or.inl ht.disk⟩
    have hu := hs.update (i := (s1.itable ip).inum) (l := file s1 (s1.itable ip).inum)
      (d := links major minor nlink (s1.itable ip).din) fun _ => ?_
    · rwa [update_eq_self] at hu
    · rw [sumFor_congr rfl]
      exact sums_slot hs h1 hl1
  | writei ip src off n =>
    refine (locked_did (f := fun r => .count r) h fun s1 h1 hl1 hi hsb => ?_).bind
      fun _ _ hq => hq
    rw [← hi]
    exact writei_did h1 hl1 (hsb ▸ hw) rfl
  | itrunc ip =>
    refine (locked_did (f := fun _ => .unit) h fun s1 h1 hl1 hi hsb => ?_).bind
      fun _ _ hq => hq
    refine (itrunc_file hres h1 hl1).sat.imp fun _ s2 hq => ?_
    obtain ⟨ht, -, -, hb⟩ := hq
    refine ⟨hb.ok, hb.sb, by rw [← hi]; exact hb.file, fun hG hs =>
      ⟨sums_of_becomes hb hG (hs.update fun _ => ?_),
      ht.errs fun h => h, fun e => by cases e⟩, Or.inl ht.disk⟩
    rw [sumFor, adler32_nil, ite_self]
    rfl
  | readi ip bad off n =>
    refine (locked_did (f := fun r : Int32 × List UInt8 => .bytes r.1 r.2) h
      fun s1 h1 hl1 hi hsb => ?_).bind fun _ _ hq => hq
    refine (readi_bytes (starved_of fun p s hp => hres p s (exhausted_resource hp)) h1 hl1).sat.imp fun r s2 hq => ?_
    obtain ⟨ht, hsame, -, hval, herr⟩ := hq
    rw [← hi]
    refine ⟨hsame.ok, hsame.sb, fun hG => ⟨hsame.file hG, hval hG⟩, fun hG hs =>
      ⟨sums_of_becomes hsame hG hs, herr hG (summed_slot hs h1 hl1), fun e => by cases e⟩, Or.inl ht.disk⟩
  | fverify ip => exact (fverify_did h).bind fun _ _ hq => hq

end OneCall

/-! ## 4. Whole runs -/

/-- A consistent image whose files are sound. -/
structure Image (sb : Superblock) (disk : Nat → Block) : Prop where
  consistent : Consistent sb disk
  sound : ∀ i, (dinodes (Fs.boot sb disk) i).type ≠ 0 → Sound (dinodes (Fs.boot sb disk) i)

theorem Image.boot {sb : Superblock} {disk : Nat → Block} (h : Image sb disk) (hG : MetaIn G sb) :
    FilesOk G (Fs.boot sb disk) :=
  ⟨h.consistent.boot hG, h.sound⟩

theorem step_did {s s' : Fs} {e : Event} (h : FilesOk G s)
    (hw : (∀ b, s.sb.dataStart ≤ b → ¬ G b) ∨ Whole e.call) (hs : Step s e s') : Did G e s s' := by
  obtain ⟨c, inum, a⟩ := e
  have hd := (exec_file h hs.legal hw).of_ok hs.run
  rw [hs.inum] at hd
  exact hd

/-- **Files refine byte arrays.** Every run of the inode layer, on any inodes and in any order, is
    a run of the machine with one list of bytes for each inode, with the same answers. -/
theorem files_refine_arrays {sb : Superblock} {disk : Nat → Block} (hi : Image sb disk) {s : Fs}
    {l : List Event} (hr : Trace Step (Fs.boot sb disk) l s) (hw : ∀ e ∈ l, Whole e.call) :
    Trace Spec (file (Fs.boot sb disk)) l (file s) := by
  refine (hr.image (I := FilesOk All) (P := fun e => Whole e.call) (g := file)
    (fun s e s' hwe h hs => ?_) hw (hi.boot fun _ _ => trivial)).2
  have hd := step_did h (Or.inr hwe) hs
  exact ⟨hd.ok, hd.spec all_all⟩

/-- A file with five bytes in its one block. -/
def fiveBytes : Dinode :=
  { Dinode.fresh T_FILE with nlink := 1, size := 5, checksum := adler32 [0, 0, 0, 0, 0],
                             extents := Extents.one 35 1 }

/-- A small disk with that file. -/
def fiveDisk : Nat → Block := image smallSb oneBlock (oneInode fiveBytes) fun _ _ => 0

theorem image_one {d : Dinode} (ht : d.type ≠ 0) (he : d.extents = Extents.one 35 1) (hs : Sound d)
    (data : Nat → Block) : Image smallSb (image smallSb oneBlock (oneInode d) data) := by
  refine ⟨consistent_one ht he data, fun i hi => ?_⟩
  rw [dinodes_one] at hi ⊢
  obtain rfl := oneInode_only hi
  exact hs

theorem image_fiveDisk : Image smallSb fiveDisk :=
  image_one (by decide) rfl ⟨by decide, by decide, by decide⟩ _

/-- Two bytes are written at the end of the file and read back. -/
theorem files_refine_arrays_five :
    ∃ l s, Image smallSb fiveDisk ∧ Trace Step (Fs.boot smallSb fiveDisk) l s ∧
      (∀ e ∈ l, Whole e.call) ∧
      l.map Event.answer = [.slot (some 0), .unit, .count 2, .bytes 3 [0, 7, 7]] ∧
      Trace Spec (file (Fs.boot smallSb fiveDisk)) l (file s) := by
  let src : Src := ⟨fun _ => 7, none⟩
  have hrun : (replay [.iget 1, .beginOp, .writei 0 src 5 2, .readi 0 none 4 9]
      (Fs.boot smallSb fiveDisk)).map (·.1) =
      some [.slot (some 0), .unit, .count 2, .bytes 3 [0, 7, 7]] := by decide +kernel
  obtain ⟨⟨as, s⟩, hr, rfl⟩ := Option.map_eq_some_iff.mp hrun
  obtain ⟨l, hl, hc, ha⟩ := replay_trace hr
  have hw : ∀ e ∈ l, Whole e.call := forall_call hc <| by
    simp only [List.forall_mem_cons]
    exact ⟨trivial, trivial, (fun k hk => by cases hk), trivial, fun _ h => by cases h⟩
  exact ⟨l, s, image_fiveDisk, hl, hw, ha, files_refine_arrays image_fiveDisk hl hw⟩

end HaiOS.Arrays
