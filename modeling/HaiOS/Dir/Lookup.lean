/-
  File:      HaiOS/Dir/Lookup.lean
  Subject:   LOOKING UP AND LINKING NAMES (kernel/fs.c: dircache_rebuild, dircache_lookup,
             dirlookup, dirlink; kernel/sysfile.c: isdirempty).

  * `Caches c l` -- the directory cache `c` has the first live entries of `l`;
  * `dirfind_runs` -- through the cache or not, what is found is what a plain scan finds.
-/
import HaiOS.Dir.Dirent
import HaiOS.Fs.Files

namespace HaiOS

open Lib Function

/-! ## 1. The routines -/

/-- `if(readi(dp, 0, (uint64)&de, off, sizeof(de)) != sizeof(de)) panic(...);` -/
def readDirent (p : Panic) (dp off : Nat) : FsM Dirent := do
  let r ← readi dp none (UInt32.ofNat off) 16
  if r.1 = 16 then pure (direntOf r.2) else Routine.stop p

/-- Assign to `dp->cache`. -/
def setCache (dp : Nat) (f : Dircache → Dircache) : FsM Unit :=
  setInode dp fun x => { x with cache := f x.cache }

/-- `dp->cache.entries[dp->cache.nentries++] = ...` -/
def Dircache.push (c : Dircache) (de : Dirent) (off : Nat) : Dircache :=
  { c with entries := c.entries ++ [⟨de.name, de.inum.toNat, off⟩] }

/-- The loop of `dircache_rebuild` from `off` on. -/
def dircacheLoop (dp : Nat) : Nat → Nat → FsM Unit
  | 0, _ => pure ()
  | fuel + 1, off => do
    let x ← inode dp
    if off < x.din.size.toNat then
      if DIRCACHE_MAX ≤ x.cache.entries.length then
        setCache dp fun c => { c with truncated := true }
      else do
        let de ← readDirent .dircacheRebuildRead dp off
        if de.inum = 0 then dircacheLoop dp fuel (off + DIRENT_SIZE)
        else do
          setCache dp fun c => c.push de off
          dircacheLoop dp fuel (off + DIRENT_SIZE)
    else pure ()

def dircacheRebuild (dp : Nat) : FsM Unit := do
  let x ← inode dp
  setCache dp fun _ => ⟨false, x.din.size.toNat, false, []⟩
  dircacheLoop dp x.din.size.toNat 0
  setCache dp fun c => { c with valid := true }

/-- The loop over `dp->cache.entries`. -/
def Dircache.find (c : Dircache) (name : List UInt8) : Option (Nat × Nat) :=
  (c.entries.find? fun e => namecmp name e.name = 0).map fun e => (e.inum, e.off)

/-- `rebuild cache and retry once` -/
def dircacheRetry (dp : Nat) (name : List UInt8) : FsM (Option (Nat × Nat)) := do
  dircacheRebuild dp
  let x ← inode dp
  pure (x.cache.find name)

/-- The inode number and the offset, if the cache has the name. -/
def dircacheLookup (dp : Nat) (name : List UInt8) : FsM (Option (Nat × Nat)) := do
  let x ← inode dp
  if x.cache.valid = true ∧ x.cache.sizeSnapshot = x.din.size.toNat then
    match x.cache.find name with
    | some r => pure (some r)
    | none => if x.cache.truncated then dircacheRetry dp name else pure none
  else dircacheRetry dp name

/-- The loop of `dirlookup` from `off` on. -/
def dirlookupLoop (dp : Nat) (name : List UInt8) : Nat → Nat → FsM (Option (Nat × Nat))
  | 0, _ => pure none
  | fuel + 1, off => do
    let x ← inode dp
    if off < x.din.size.toNat then do
      let de ← readDirent .dirlookupRead dp off
      if de.inum = 0 then dirlookupLoop dp name fuel (off + DIRENT_SIZE)
      else if namecmp name de.name = 0 then pure (some (de.inum.toNat, off))
      else dirlookupLoop dp name fuel (off + DIRENT_SIZE)
    else pure none

/-- `dirlookup` before `iget`: the inode number, and `*poff`. -/
def dirfind (dp : Nat) (name : List UInt8) : FsM (Option (Nat × Nat)) := do
  let r ← dircacheLookup dp name
  match r with
  | some r => pure (some r)
  | none => do
    let x ← inode dp
    dirlookupLoop dp name x.din.size.toNat 0

/-- Look for a directory entry in a directory: its inode, and `*poff`. -/
def dirlookup (dp : Nat) (name : List UInt8) : FsM (Option (Nat × Nat)) := do
  let x ← inode dp
  if x.din.type ≠ T_DIR then Routine.stop .dirlookupNotDir
  else do
    let r ← dirfind dp name
    match r with
    | some (inum, off) => do
      let ip ← iget inum
      pure (some (ip, off))
    | none => pure none

/-- The loop of `dirlink`: look for an empty dirent from `off` on. -/
def emptySpot (dp : Nat) : Nat → Nat → FsM Nat
  | 0, off => pure off
  | fuel + 1, off => do
    let x ← inode dp
    if off < x.din.size.toNat then do
      let de ← readDirent .dirlinkRead dp off
      if de.inum = 0 then pure off else emptySpot dp fuel (off + DIRENT_SIZE)
    else pure off

/-- An entry in kernel memory. -/
def Dirent.src (de : Dirent) : Src := ⟨fun k => de.bytes.getD k 0, none⟩

/-- `writei(dp, 0, (uint64)&de, off, sizeof(de)) == sizeof(de)` -/
def putDirent (dp : Nat) (de : Dirent) (off : Nat) : FsM Bool := do
  let r ← writei dp de.src (UInt32.ofNat off) 16
  pure (decide (r = 16))

/-- The second part of `dirlink`, when the name is not present. -/
def dirlinkNew (dp : Nat) (name : List UInt8) (inum : Nat) : FsM Int := do
  let x ← inode dp
  let off ← emptySpot dp x.din.size.toNat 0
  let done ← putDirent dp ⟨UInt16.ofNat inum, strncpy name DIRSIZ⟩ off
  if done then pure 0 else pure (-1)

/-- Write a new directory entry (name, inum) into the directory dp: 0, or -1. -/
def dirlink (dp : Nat) (name : List UInt8) (inum : Nat) : FsM Int := do
  let r ← dirlookup dp name
  match r with
  | some (ip, _) => do
    iput ip
    pure (-1)
  | none => dirlinkNew dp name inum

/-- The loop of `isdirempty` from `off` on. -/
def isdiremptyLoop (dp : Nat) : Nat → Nat → FsM Bool
  | 0, _ => pure true
  | fuel + 1, off => do
    let x ← inode dp
    if off < x.din.size.toNat then do
      let de ← readDirent .isdiremptyReadi dp off
      if de.inum ≠ 0 then pure false else isdiremptyLoop dp fuel (off + DIRENT_SIZE)
    else pure true

/-- Is the directory dp empty except for "." and ".." ? -/
def isdirempty (dp : Nat) : FsM Bool := do
  let x ← inode dp
  isdiremptyLoop dp x.din.size.toNat (2 * DIRENT_SIZE)

/-! ## 2. The cache -/

/-- The live entries as the cache has them; the first of `l` has number `k`. -/
def cachedFrom : Nat → List Dirent → List DircacheEntry
  | _, [] => []
  | k, e :: l =>
    if e.live then ⟨e.name, e.inum.toNat, DIRENT_SIZE * k⟩ :: cachedFrom (k + 1) l
    else cachedFrom (k + 1) l

/-- **The cache has the first live entries**, and all of them unless it is truncated. -/
structure Caches (c : Dircache) (l : List Dirent) : Prop where
  entries : c.entries = (cachedFrom 0 l).take DIRCACHE_MAX
  whole : c.truncated = false → (cachedFrom 0 l).length ≤ DIRCACHE_MAX

/-- The first cached entry with a name is the first entry with that name. -/
theorem find_cachedFrom (name : List UInt8) (k : Nat) (l : List Dirent) :
    ((cachedFrom k l).find? fun e => namecmp name e.name = 0).map (fun e => (e.inum, e.off)) =
      scanFrom name k l := by
  induction l generalizing k with
  | nil => rfl
  | cons e l ih =>
    rw [cachedFrom, scanFrom, Dirent.hasName]
    cases hl : e.live with
    | false =>
      simp only [Bool.false_and, Bool.false_eq_true, if_false]
      exact ih (k + 1)
    | true =>
      simp only [Bool.true_and, if_true, decide_eq_true_eq]
      by_cases hn : namecmp name e.name = 0
      · simp [hn]
      · rw [if_neg hn, List.find?_cons_of_neg (by simpa using hn)]
        exact ih (k + 1)

theorem find?_take {α : Type} {p : α → Bool} {l : List α} {n : Nat} {a : α}
    (h : (l.take n).find? p = some a) : l.find? p = some a := by
  rw [← List.take_append_drop n l, List.find?_append, h]
  rfl

/-- **What the cache answers is what a scan answers**, but a truncated cache may miss a name. -/
theorem Caches.find {c : Dircache} {l : List Dirent} (h : Caches c l) (name : List UInt8) :
    (∀ r, c.find name = some r → scan name l = some r) ∧
    (c.truncated = false → c.find name = scan name l) := by
  have hfind : c.find name = ((cachedFrom 0 l).take DIRCACHE_MAX |>.find? fun e =>
      namecmp name e.name = 0).map fun e => (e.inum, e.off) := by
    rw [Dircache.find, h.entries]
  rw [hfind, scan, ← find_cachedFrom]
  refine ⟨fun r hr => ?_, fun ht => ?_⟩
  · obtain ⟨e, he, rfl⟩ := Option.map_eq_some_iff.mp hr
    rw [find?_take he]
    rfl
  · rw [List.take_of_length_le (h.whole ht)]

/-- The cache of a directory with the bytes `l`, when it counts, is right. -/
def CacheOf (x : Inode) (l : List UInt8) : Prop :=
  x.cache.valid = true → x.cache.sizeSnapshot = x.din.size.toNat → Caches x.cache (dirents l)

/-- **Every directory cache is right.** -/
def CachesOk (t : Nat → Inode) (files : Nat → List UInt8) : Prop :=
  ∀ ip, 0 < (t ip).ref → (t ip).valid = true → (t ip).din.type = T_DIR →
    CacheOf (t ip) (files (t ip).inum)

theorem cacheOf_reset {x : Inode} {c : Dircache} {l : List UInt8} (h : x.cache = c.reset) :
    CacheOf x l := fun hv => by
  rw [h] at hv
  cases hv

/-- One slot changes, and at most the file of its inode. -/
theorem CachesOk.set {t : Nat → Inode} {files files' : Nat → List UInt8} {ip : Nat} {y : Inode}
    (h : CachesOk t files)
    (hf : ∀ jp, jp ≠ ip → 0 < (t jp).ref → files' (t jp).inum = files (t jp).inum)
    (hy : 0 < y.ref → y.valid = true → y.din.type = T_DIR → CacheOf y (files' y.inum)) :
    CachesOk (update t ip y) files' := by
  intro jp hr hv ht
  by_cases hj : jp = ip
  · subst hj
    rw [update_self] at hr hv ht ⊢
    exact hy hr hv ht
  · rw [update_of_ne hj] at hr hv ht ⊢
    rw [hf jp hj hr]
    exact h jp hr hv ht

/-! ## 3. Rules -/

/-- What reading a directory may change: its cache and the count of checksum errors. -/
def Frame.dir (dp : Nat) : Frame := ⟨fun _ => False, fun i => i = dp, True⟩

theorem Frame.errors_le_dir (dp : Nat) : Frame.errors.Le (.dir dp) :=
  ⟨fun _ h => h, fun _ h => h.elim, fun h => h⟩

theorem Frame.slot_le_dir (dp : Nat) : (Frame.slot dp).Le (.dir dp) :=
  ⟨fun _ h => h, fun _ h => h, fun h => h.elim⟩

/-- The slot with another cache. -/
def Inode.recache (x : Inode) (c : Dircache) : Inode := { x with cache := c }

/-- **Slot `dp` is `x`, a directory that has been read, with the bytes `l`.** -/
structure DirAt (dp : Nat) (x : Inode) (l : List UInt8) (s : Fs) : Prop where
  ok : FilesOk All s
  slot : s.itable dp = x
  ref : 0 < x.ref
  valid : x.valid = true
  bytes : file s x.inum = l
  aligned : Aligned l

/-- Files and slots are as before, but for the cache of `dp`. -/
structure DirRead (dp : Nat) (s s' : Fs) : Prop where
  same : Same All s s'
  itable : s'.itable = update s.itable dp
    ((s.itable dp).recache (s'.itable dp).cache)

/-- The entries of a directory have been read: slot and bytes are as they were. -/
structure Scanned (dp : Nat) (x : Inode) (l : List UInt8) (s s' : Fs) : Prop where
  dir : DirAt dp x l s'
  read : DirRead dp s s'
  itable : s'.itable = s.itable

section Rules

variable {s s' s'' : Fs} {dp k : Nat} {x : Inode} {l : List UInt8} {P : Panic → Fs → Prop}

section

variable (h : DirAt dp x l s)
include h

theorem DirAt.locked : Locked s dp := by
  unfold Locked
  rw [h.slot]
  exact ⟨h.ref, h.valid⟩

theorem DirAt.size : x.din.size.toNat = l.length := by
  have := h.ok.length_file h.locked
  rw [h.slot, h.bytes] at this
  exact this.symm

theorem DirAt.small : l.length ≤ MAXFILE * BSIZE := by
  have := (h.ok.sound_eq h.locked).small
  rwa [h.slot, h.size] at this

/-- An offset is the one of an entry. -/
theorem DirAt.lt_iff : DIRENT_SIZE * k < x.din.size.toNat ↔ k < (dirents l).length := by
  have ha := h.aligned
  unfold Aligned at ha
  rw [h.size, length_dirents]
  simp only [DIRENT_SIZE] at *
  omega

theorem DirAt.done (hge : ¬DIRENT_SIZE * k < x.din.size.toNat) : (dirents l).length ≤ k :=
  Nat.le_of_not_lt (mt h.lt_iff.mpr hge)

theorem DirAt.fuel : (dirents l).length ≤ k + x.din.size.toNat := by
  rw [length_dirents, h.size]
  exact Nat.le_add_left_of_le (Nat.div_le_self _ _)

theorem DirAt.next (hs : Same All s s') (hit : s'.itable dp = x) : DirAt dp x l s' :=
  ⟨hs.ok, hit, h.ref, h.valid, by rw [hs.file all_all]; exact h.bytes, h.aligned⟩

end

theorem DirRead.refl (h : FilesOk All s) : DirRead dp s s :=
  ⟨Becomes.refl h, (update_eq_self dp s.itable).symm⟩

theorem DirRead.of_itable (h : Same All s s') (hit : s'.itable = s.itable) : DirRead dp s s' :=
  ⟨h, by rw [hit]; exact (update_eq_self dp s.itable).symm⟩

theorem same_trans (h : Same All s s') (h' : Same All s' s'') : Same All s s'' :=
  ⟨h'.ok, h'.sb.trans h.sb, h'.dinodes.trans h.dinodes, fun hG => (h'.file hG).trans (h.file hG)⟩

theorem DirRead.trans (h : DirRead dp s s') (h' : DirRead dp s' s'') : DirRead dp s s'' := by
  refine ⟨same_trans h.same h'.same, ?_⟩
  rw [h'.itable, update_self]
  conv_lhs => rw [h.itable]
  rw [update_idem, update_self]
  rfl

theorem DirAt.scanned (h : DirAt dp x l s) : Scanned dp x l s s :=
  ⟨h, .refl h.ok, rfl⟩

theorem Scanned.trans (h : Scanned dp x l s s') (h' : Scanned dp x l s' s'') :
    Scanned dp x l s s'' :=
  ⟨h'.dir, h.read.trans h'.read, h'.itable.trans h.itable⟩

theorem drop_dirents (hk : k < (dirents l).length) :
    (dirents l).drop k = direntAt l k :: (dirents l).drop (k + 1) := by
  rw [List.drop_eq_getElem_cons hk]
  congr 1
  have := getElem?_dirents (l := l) (k := k) (by rw [← length_dirents]; exact hk)
  rw [List.getElem?_eq_getElem hk] at this
  exact Option.some.inj this

theorem next_off : DIRENT_SIZE * k + DIRENT_SIZE = DIRENT_SIZE * (k + 1) := rfl

/-- The offset of an entry, or of the end, is one of the file. -/
theorem DirAt.off (h : DirAt dp x l s) (hk : k ≤ (dirents l).length) :
    DIRENT_SIZE * k ≤ l.length ∧ (UInt32.ofNat (DIRENT_SIZE * k)).toNat = DIRENT_SIZE * k := by
  have hsmall := h.small
  rw [length_dirents] at hk
  simp only [DIRENT_SIZE, MAXFILE, BSIZE] at *
  refine ⟨by omega, UInt32.toNat_ofNat_of_lt' ?_⟩
  show 16 * k < 4294967296
  omega

variable (hP : ∀ p s, Starved p s → P p s)
include hP

/-- **An entry is read.** -/
theorem readDirent_runs {p : Panic} (h : DirAt dp x l s) (hk : k < (dirents l).length) :
    (readDirent p dp (DIRENT_SIZE * k) s).Runs (Touch All .errors) P s fun e s' =>
      e = direntAt l k ∧ Scanned dp x l s s' := by
  have hlen : DIRENT_SIZE * k + DIRENT_SIZE ≤ l.length := by
    rw [length_dirents] at hk
    simp only [DIRENT_SIZE] at *
    omega
  have hsmall := h.small
  have hoff := (h.off (Nat.le_of_lt hk)).2
  have hend : (UInt32.ofNat (DIRENT_SIZE * k) + 16).toNat = DIRENT_SIZE * k + DIRENT_SIZE := by
    rw [UInt32.toNat_add, hoff]
    simp only [MAXFILE, BSIZE] at hsmall
    show (DIRENT_SIZE * k + 16) % 4294967296 = DIRENT_SIZE * k + 16
    omega
  refine touch_bind (Frame.Le.refl _) (readi_bytes hP h.ok h.locked) fun r s1 ht hq => ?_
  obtain ⟨hsame, hit, hval, -⟩ := hq
  obtain ⟨hbytes, hcount⟩ := hval all_all rfl
  rw [h.slot, h.bytes, hoff, hend, Nat.min_eq_left hlen, Nat.add_sub_cancel_left] at hbytes
  have hr : r.1 = 16 := by
    have hl : r.2.length = DIRENT_SIZE := by
      rw [hbytes, List.length_take, List.length_drop]
      omega
    rw [hcount, hl]
    rfl
  rw [if_pos hr]
  refine touch_pure ⟨?_, h.next hsame (by rw [hit]; exact h.slot), .of_itable hsame hit, hit⟩
  rw [hbytes]
  rfl

variable {name : List UInt8} {fuel : Nat}

variable (h : DirAt dp x l s)
include h

/-- **The loop of `dirlookup`** finds the first live entry with the name. -/
theorem dirlookupLoop_runs (hf : (dirents l).length ≤ k + fuel) :
    (dirlookupLoop dp name fuel (DIRENT_SIZE * k) s).Runs (Touch All .errors) P s fun r s' =>
      r = scanFrom name k ((dirents l).drop k) ∧ Scanned dp x l s s' := by
  induction fuel generalizing s k with
  | zero =>
    refine touch_pure ⟨?_, h.scanned⟩
    rw [List.drop_eq_nil_of_le (show (dirents l).length ≤ k from hf)]
    rfl
  | succ fuel ih =>
    simp only [dirlookupLoop, inode, Routine.gets_bind, h.slot]
    refine runs_ite (fun hlt => ?_) fun hge => ?_
    · have hk := h.lt_iff.mp hlt
      rw [drop_dirents hk, scanFrom, Dirent.hasName, Dirent.live]
      refine touch_bind (Frame.Le.refl _) (readDirent_runs hP h hk) fun e s1 _ hq => ?_
      obtain ⟨rfl, h1⟩ := hq
      rw [next_off]
      refine runs_ite (fun h0 => ?_) fun h0 => runs_ite (fun hn => ?_) fun hn => ?_
      · rw [if_neg (by simp [h0])]
        refine (ih h1.dir (by omega)).imp fun r s2 _ hq => ?_
        exact ⟨hq.1, h1.trans hq.2⟩
      · rw [if_pos (by simp [h0, hn])]
        exact touch_pure ⟨rfl, h1⟩
      · rw [if_neg (by simp [hn])]
        refine (ih h1.dir (by omega)).imp fun r s2 _ hq => ?_
        exact ⟨hq.1, h1.trans hq.2⟩
    · rw [List.drop_eq_nil_of_le (h.done hge)]
      exact touch_pure ⟨rfl, h.scanned⟩

/-- **The loop of `dirlink`** stops at the first free entry, or at the end. -/
theorem emptySpot_runs (hk : k ≤ (dirents l).length) (hf : (dirents l).length ≤ k + fuel) :
    (emptySpot dp fuel (DIRENT_SIZE * k) s).Runs (Touch All .errors) P s fun off s' =>
      (∃ j, off = DIRENT_SIZE * j ∧ j ≤ (dirents l).length ∧
        (∀ e, (dirents l)[j]? = some e → e.live = false)) ∧
      Scanned dp x l s s' := by
  have hend : ∀ {k}, k ≤ (dirents l).length → (dirents l).length ≤ k →
      ∃ j, DIRENT_SIZE * k = DIRENT_SIZE * j ∧ j ≤ (dirents l).length ∧
        ∀ e, (dirents l)[j]? = some e → e.live = false := fun hk hle =>
    ⟨_, rfl, hk, fun e he => by rw [List.getElem?_eq_none hle] at he; cases he⟩
  induction fuel generalizing s k with
  | zero => exact touch_pure ⟨hend hk hf, h.scanned⟩
  | succ fuel ih =>
    simp only [emptySpot, inode, Routine.gets_bind, h.slot]
    refine runs_ite (fun hlt => ?_) fun hge => ?_
    · have hlt' := h.lt_iff.mp hlt
      refine touch_bind (Frame.Le.refl _) (readDirent_runs hP h hlt') fun e s1 _ hq => ?_
      obtain ⟨rfl, h1⟩ := hq
      rw [next_off]
      refine runs_ite (fun h0 => ?_) fun h0 => ?_
      · refine touch_pure ⟨⟨k, rfl, hk, fun e he => ?_⟩, h1⟩
        rw [getElem?_dirents (by rw [← length_dirents]; exact hlt')] at he
        obtain rfl := Option.some.inj he
        simp [Dirent.live, h0]
      · exact (ih h1.dir hlt' (by omega)).imp fun r s2 _ hq => ⟨hq.1, h1.trans hq.2⟩
    · exact touch_pure ⟨hend hk (h.done hge), h.scanned⟩

/-- **The loop of `isdirempty`** looks for a live entry. -/
theorem isdiremptyLoop_runs (hf : (dirents l).length ≤ k + fuel) :
    (isdiremptyLoop dp fuel (DIRENT_SIZE * k) s).Runs (Touch All .errors) P s fun r s' =>
      (r = true ↔ ∀ e ∈ (dirents l).drop k, e.live = false) ∧ Scanned dp x l s s' := by
  have hend : ∀ {k}, (dirents l).length ≤ k →
      (true = true ↔ ∀ e ∈ (dirents l).drop k, e.live = false) := fun hle => by
    rw [List.drop_eq_nil_of_le hle]
    exact ⟨fun _ e he => absurd he List.not_mem_nil, fun _ => rfl⟩
  induction fuel generalizing s k with
  | zero => exact touch_pure ⟨hend hf, h.scanned⟩
  | succ fuel ih =>
    simp only [isdiremptyLoop, inode, Routine.gets_bind, h.slot]
    refine runs_ite (fun hlt => ?_) fun hge => ?_
    · have hk := h.lt_iff.mp hlt
      refine touch_bind (Frame.Le.refl _) (readDirent_runs hP h hk) fun e s1 _ hq => ?_
      obtain ⟨rfl, h1⟩ := hq
      rw [next_off, drop_dirents hk]
      refine runs_ite (fun h0 => ?_) fun h0 => ?_
      · refine touch_pure ⟨⟨fun e => (by cases e), fun hall => ?_⟩, h1⟩
        have := hall _ List.mem_cons_self
        simp [Dirent.live, h0] at this
      · refine (ih h1.dir (by omega)).imp fun r s2 _ hq => ⟨?_, h1.trans hq.2⟩
        rw [hq.1, List.forall_mem_cons]
        have hd : (direntAt l k).live = false := by simpa [Dirent.live] using h0
        exact ⟨fun ha => ⟨hd, ha⟩, fun ha => ha.2⟩
    · exact touch_pure ⟨hend (h.done hge), h.scanned⟩

/-- **`isdirempty`**: no live entry from the third on. -/
theorem isdirempty_runs :
    (isdirempty dp s).Runs (Touch All .errors) P s fun r s' =>
      (r = true ↔ ∀ e ∈ (dirents l).drop 2, e.live = false) ∧ Scanned dp x l s s' := by
  simp only [isdirempty, inode, Routine.gets_bind, h.slot]
  exact isdiremptyLoop_runs hP (k := 2) h h.fuel

omit hP in
theorem setCache_runs {f : Dircache → Dircache} :
    (setCache dp f s).Runs (Touch All (.slot dp)) P s fun _ s' =>
      DirAt dp (x.recache (f x.cache)) l s' ∧ DirRead dp s s' := by
  refine (setInode_runs _).imp fun _ s' ht hq => ?_
  have hinv : FsInv All s' := by
    rw [hq]
    refine h.ok.inv.setSlot (h.ok.inv.slots.same ?_ rfl rfl rfl)
    rw [h.slot]
    exact h.ref
  have hsame := h.ok.still ht (fun _ hf => hf) hinv
  have hx : s'.itable dp = x.recache (f x.cache) := by
    rw [hq, setSlot_itable, update_self, h.slot]
    rfl
  refine ⟨⟨hsame.ok, hx, h.ref, h.valid, by rw [hsame.file all_all]; exact h.bytes, h.aligned⟩, hsame, ?_⟩
  rw [hq, setSlot_itable, update_self]
  rfl

/-- **The loop of `dircache_rebuild`** has put the live entries before `k` into the cache. -/
theorem dircacheLoop_runs (hf : (dirents l).length ≤ k + fuel)
    (hlen : x.cache.entries.length ≤ DIRCACHE_MAX) (ht : x.cache.truncated = false) :
    (dircacheLoop dp fuel (DIRENT_SIZE * k) s).Runs (Touch All (.dir dp)) P s fun _ s' =>
      ∃ c, DirAt dp (x.recache c) l s' ∧ DirRead dp s s' ∧ c.sizeSnapshot = x.cache.sizeSnapshot ∧
        c.entries = (x.cache.entries ++ cachedFrom k ((dirents l).drop k)).take DIRCACHE_MAX ∧
        (c.truncated = false →
          (x.cache.entries ++ cachedFrom k ((dirents l).drop k)).length ≤ DIRCACHE_MAX) := by
  have hend : ∀ {k s x}, DirAt dp x l s → (dirents l).length ≤ k →
      x.cache.entries.length ≤ DIRCACHE_MAX →
      ∃ c, DirAt dp (x.recache c) l s ∧ DirRead dp s s ∧ c.sizeSnapshot = x.cache.sizeSnapshot ∧
        c.entries = (x.cache.entries ++ cachedFrom k ((dirents l).drop k)).take DIRCACHE_MAX ∧
        (c.truncated = false →
          (x.cache.entries ++ cachedFrom k ((dirents l).drop k)).length ≤ DIRCACHE_MAX) := by
    intro k s x h hle hlen
    rw [List.drop_eq_nil_of_le hle, cachedFrom, List.append_nil]
    exact ⟨x.cache, h, .refl h.ok, rfl, (List.take_of_length_le hlen).symm, fun _ => hlen⟩
  induction fuel generalizing s k x with
  | zero => exact touch_pure (hend h hf hlen)
  | succ fuel ih =>
    simp only [dircacheLoop, inode, Routine.gets_bind, h.slot]
    refine runs_ite (fun hlt => ?_) fun hge => ?_
    · have hk := h.lt_iff.mp hlt
      refine runs_ite (fun hfull => ?_) fun hroom => ?_
      · -- the cache is full: the rest is left to the scan
        refine ((setCache_runs h).imp fun _ s1 _ hq => ?_).mono
          (fun _ ht => ht.mono (Frame.slot_le_dir dp)) fun _ _ hp => hp
        refine ⟨_, hq.1, hq.2, rfl, ?_, fun e => by cases e⟩
        have hmax : x.cache.entries.length = DIRCACHE_MAX := le_antisymm hlen hfull
        rw [List.take_left' hmax]
      · refine touch_bind (Frame.errors_le_dir dp) (readDirent_runs hP h hk) fun e s1 _ hq => ?_
        obtain ⟨rfl, h1⟩ := hq
        rw [next_off, drop_dirents hk, cachedFrom, Dirent.live]
        refine runs_ite (fun h0 => ?_) fun h0 => ?_
        · rw [if_neg (by simp [h0])]
          refine (ih h1.dir (by omega) hlen ht).imp fun _ s2 _ hq => ?_
          obtain ⟨c, h2, hr2, hc⟩ := hq
          exact ⟨c, h2, h1.read.trans hr2, hc⟩
        · rw [if_pos (by simp [h0])]
          refine touch_bind (Frame.slot_le_dir dp) (setCache_runs h1.dir) fun _ s2 _ hq2 => ?_
          obtain ⟨h2, hr2⟩ := hq2
          refine (ih h2 (by omega) ?_ ht).imp fun _ s3 _ hq => ?_
          · show (x.cache.entries ++ [_]).length ≤ DIRCACHE_MAX
            rw [List.length_append]
            exact Nat.lt_of_not_le hroom
          · obtain ⟨c, h3, hr3, hsnap, hent, hwhole⟩ := hq
            have happ : (x.recache (x.cache.push (direntAt l k) (DIRENT_SIZE * k))).cache.entries ++
                cachedFrom (k + 1) ((dirents l).drop (k + 1)) = x.cache.entries ++
                (⟨(direntAt l k).name, (direntAt l k).inum.toNat, DIRENT_SIZE * k⟩ ::
                  cachedFrom (k + 1) ((dirents l).drop (k + 1))) := by
              show (x.cache.entries ++ [_]) ++ _ = _
              rw [List.append_assoc]
              rfl
            rw [happ] at hent hwhole
            exact ⟨c, h3, (h1.read.trans hr2).trans hr3, hsnap, hent, hwhole⟩
    · exact touch_pure (hend h (h.done hge) hlen)

/-- **`dircache_rebuild`** makes the cache right. -/
theorem dircacheRebuild_runs :
    (dircacheRebuild dp s).Runs (Touch All (.dir dp)) P s fun _ s' =>
      ∃ c, DirAt dp (x.recache c) l s' ∧ DirRead dp s s' ∧ Caches c (dirents l) := by
  simp only [dircacheRebuild, inode, Routine.gets_bind, h.slot]
  refine touch_bind (Frame.slot_le_dir dp) (setCache_runs h) fun _ s1 _ hq1 => ?_
  obtain ⟨h1, hr1⟩ := hq1
  refine touch_bind (Frame.Le.refl _) (dircacheLoop_runs hP (k := 0) h1 h.fuel (Nat.zero_le _) rfl)
    fun _ s2 _ hq2 => ?_
  obtain ⟨c, h2, hr2, -, hent, hwhole⟩ := hq2
  refine ((setCache_runs h2).imp fun _ s3 _ hq3 => ?_).mono
    (fun _ ht => ht.mono (Frame.slot_le_dir dp)) fun _ _ hp => hp
  exact ⟨_, hq3.1, (hr1.trans hr2).trans hq3.2, hent, hwhole⟩

theorem dircacheRetry_runs :
    (dircacheRetry dp name s).Runs (Touch All (.dir dp)) P s fun r s' =>
      (r = none ∨ r = scan name (dirents l)) ∧
      ∃ c, DirAt dp (x.recache c) l s' ∧ DirRead dp s s' ∧ CacheOf (x.recache c) l := by
  refine touch_bind (Frame.Le.refl _) (dircacheRebuild_runs hP h) fun _ s1 _ hq => ?_
  obtain ⟨c, h1, hr1, hc⟩ := hq
  simp only [inode, Routine.gets_bind, h1.slot]
  refine touch_pure ⟨?_, c, h1, hr1, fun _ _ => hc⟩
  show c.find name = none ∨ c.find name = scan name (dirents l)
  cases hf : c.find name with
  | none => exact Or.inl rfl
  | some r => exact Or.inr ((hc.find name).1 r hf).symm

/-- **`dircache_lookup`** answers as a scan, or not at all. -/
theorem dircacheLookup_runs (hc : CacheOf x l) :
    (dircacheLookup dp name s).Runs (Touch All (.dir dp)) P s fun r s' =>
      (r = none ∨ r = scan name (dirents l)) ∧
      ∃ c, DirAt dp (x.recache c) l s' ∧ DirRead dp s s' ∧ CacheOf (x.recache c) l := by
  simp only [dircacheLookup, inode, Routine.gets_bind, h.slot]
  refine runs_ite (fun hv => ?_) fun _ => dircacheRetry_runs hP h
  have hcache := hc hv.1 hv.2
  cases hf : x.cache.find name with
  | some r => exact touch_pure ⟨Or.inr ((hcache.find name).1 r hf).symm, x.cache, h, .refl h.ok, hc⟩
  | none => exact runs_ite (fun _ => dircacheRetry_runs hP h) fun _ =>
    touch_pure ⟨Or.inl rfl, x.cache, h, .refl h.ok, hc⟩

/-- **Through the cache or not, what is found is what a plain scan finds.** -/
theorem dirfind_runs (hc : CacheOf x l) :
    (dirfind dp name s).Runs (Touch All (.dir dp)) P s fun r s' =>
      r = scan name (dirents l) ∧
      ∃ c, DirAt dp (x.recache c) l s' ∧ DirRead dp s s' ∧ CacheOf (x.recache c) l := by
  refine touch_bind (Frame.Le.refl _) (dircacheLookup_runs hP h hc) fun r s1 _ hq => ?_
  obtain ⟨hr, c, h1, hr1, hc1⟩ := hq
  cases r with
  | some r => exact touch_pure ⟨hr.resolve_left (Option.some_ne_none r), c, h1, hr1, hc1⟩
  | none =>
    simp only [inode, Routine.gets_bind, h1.slot]
    refine ((dirlookupLoop_runs hP (k := 0) h1 h1.fuel).imp fun r s2 _ hq2 => ?_).mono
      (fun _ ht => ht.mono (Frame.errors_le_dir dp)) fun _ _ hp => hp
    exact ⟨hq2.1, c, hq2.2.dir, hr1.trans hq2.2.read, hc1⟩

end Rules

end HaiOS
