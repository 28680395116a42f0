/-
  File:      HaiOS/Sysfile/Path.lean
  Subject:   PATHS (kernel/fs.c: skipelem, namex, namei, nameiparent).

  A path is the bytes before the NUL.

  * `components`, `World.find`, `World.findParent` -- what a path means;
  * `World.Passable` -- every inode that the walk locks is allocated, and the inode table has room
    for every reference that it takes;
  * `walk_at`, `namex_at` -- the rules for the walk and for `namex`: references and locks are as
    before but for the reference returned.
-/
import HaiOS.Sysfile.Kernel
import Mathlib.Data.Finset.Card

namespace HaiOS

open Lib

/-! ## 1. What a path means -/

namespace World

/-- The inode that `name` names in the directory `i`. -/
def lookup (w : World) (i : Nat) (name : List UInt8) : Option Nat :=
  (scan name (dirents (w.files i))).map Prod.fst

/-- **The inode reached by looking the names up one after the other.** -/
def find (w : World) : Nat → List (List UInt8) → Option Nat
  | i, [] => some i
  | i, c :: cs =>
    if (w.dins i).type = T_DIR then (w.lookup i c).bind fun j => w.find j cs else none

/-- **The directory reached by all names but the last**, and the last one. -/
def findParent (w : World) (i : Nat) (cs : List (List UInt8)) : Option (Nat × List UInt8) :=
  cs.getLast?.bind fun c => (w.find i cs.dropLast).bind fun j =>
    if (w.dins j).type = T_DIR then some (j, c) else none

/-- What `namex` is to find. -/
def resolve (w : World) (parent : Bool) (i : Nat) (cs : List (List UInt8)) :
    Option (Nat × List UInt8) :=
  if parent then w.findParent i cs else (w.find i cs).map fun j => (j, [])

/-- The inodes that are in the inode table. -/
def inums (w : World) : Finset Nat := (w.held.map Handle.inum).toFinset

/-- The inode table has room for `j`. -/
def Room (w : World) (j : Nat) : Prop := j ∈ w.inums ∨ w.inums.card < NINODE

/-- It has room for `j` while there is a reference to `i`, too. -/
def RoomBeside (w : World) (i j : Nat) : Prop :=
  j ∈ insert i w.inums ∨ (insert i w.inums).card < NINODE

/-- **The walk meets no obstacle**: every inode that it locks is allocated, and there is `room` for
    every inode that it looks up. -/
def Passable (w : World) (room : Nat → Nat → Prop) (parent : Bool) :
    Nat → List (List UInt8) → Prop
  | _, [] => True
  | i, c :: cs => (w.dins i).type ≠ 0 ∧
      ((w.dins i).type = T_DIR → ¬ (parent = true ∧ cs = []) → ∀ j, w.lookup i c = some j →
        room i j ∧ w.Passable room parent j cs)

section Facts

variable {w : World} {i j : Nat} {c : List UInt8} {cs : List (List UInt8)} {parent : Bool}
  {room room' : Nat → Nat → Prop}

theorem Passable.mono (hr : ∀ i j, room i j → room' i j) (h : w.Passable room parent i cs) :
    w.Passable room' parent i cs := by
  induction cs generalizing i with
  | nil => trivial
  | cons c cs ih => exact ⟨h.1, fun ht hp j hj => ⟨hr i j (h.2 ht hp j hj).1, ih (h.2 ht hp j hj).2⟩⟩

theorem resolve_nil : w.resolve parent i [] = if parent then none else some (i, []) := by
  cases parent <;> rfl

/-- The inode is not a directory. -/
theorem resolve_notDir (ht : (w.dins i).type ≠ T_DIR) : w.resolve parent i (c :: cs) = none := by
  have hf : ∀ cs', w.find i (c :: cs') = none := fun cs' => by rw [find, if_neg ht]
  cases parent with
  | false =>
    show (w.find i (c :: cs)).map _ = none
    rw [hf]
    rfl
  | true =>
    show w.findParent i (c :: cs) = none
    unfold findParent
    cases cs with
    | nil =>
      show (if (w.dins i).type = T_DIR then some (i, c) else none) = none
      rw [if_neg ht]
    | cons c' cs =>
      rw [List.dropLast_cons_cons, hf]
      simp

/-- The walk stops one level early. -/
theorem resolve_last (ht : (w.dins i).type = T_DIR) : w.resolve true i [c] = some (i, c) := by
  show (if (w.dins i).type = T_DIR then some (i, c) else none) = _
  rw [if_pos ht]

/-- The walk goes on. -/
theorem resolve_cons (ht : (w.dins i).type = T_DIR) (hp : ¬ (parent = true ∧ cs = [])) :
    w.resolve parent i (c :: cs) = (w.lookup i c).bind fun j => w.resolve parent j cs := by
  cases parent with
  | false =>
    show (w.find i (c :: cs)).map _ = _
    rw [find, if_pos ht, Option.map_bind]
    rfl
  | true =>
    cases cs with
    | nil => exact absurd ⟨rfl, rfl⟩ hp
    | cons c' cs =>
      show w.findParent i (c :: c' :: cs) = (w.lookup i c).bind fun j => w.findParent j (c' :: cs)
      unfold findParent
      rw [List.getLast?_cons_cons, List.dropLast_cons_cons, find, if_pos ht]
      cases w.lookup i c with
      | none => simp
      | some j => rfl

theorem inums_take (h : Handle) : (w.take h).inums = insert h.inum w.inums := by
  unfold inums take
  rw [Multiset.map_cons, Multiset.toFinset_cons]

end Facts

end World

/-! ## 2. Room in the inode table -/

section Room

variable {sb : Superblock} {w : World} {s : Fs} {j : Nat}

theorem Sees.mem_inums (hs : Sees sb w s) :
    j ∈ w.inums ↔ ∃ ip, 0 < (s.itable ip).ref ∧ (s.itable ip).inum = j := by
  unfold World.inums
  rw [Multiset.mem_toFinset, Multiset.mem_map]
  constructor
  · rintro ⟨h, hm, rfl⟩
    exact ⟨h.slot, hs.ref_pos hm, hs.inum hm⟩
  · rintro ⟨ip, hr, rfl⟩
    exact ⟨_, hs.refs.mem hr, rfl⟩

/-- **`iget` finds a slot exactly when there is room.** -/
theorem room_iff (hs : Sees sb w s) : w.Room j ↔ igetSlot s.itable j ≠ none := by
  have hslots := hs.ok.inv.slots
  constructor
  · intro hroom h0
    rw [igetSlot, Option.or_eq_none_iff] at h0
    have hused : ∀ ip < NINODE, 0 < (s.itable ip).ref := fun ip hip => by
      have := List.find?_eq_none.mp h0.2 ip (List.mem_range.mpr hip)
      simp only [decide_eq_true_eq] at this
      omega
    rcases hroom with hin | hlt
    · obtain ⟨ip, hr, hi⟩ := hs.mem_inums.mp hin
      exact findSlot_none h0.1 ip (hslots.bound ip hr) hr hi
    · -- every slot has an inode of its own
      have hcard : (Finset.range NINODE).card ≤ w.inums.card :=
        Finset.card_le_card_of_injOn (fun ip => (s.itable ip).inum)
          (fun ip hip => hs.mem_inums.mpr ⟨ip, hused ip (Finset.mem_range.mp hip), rfl⟩)
          fun ip hip jp hjp e => hslots.unique ip jp (hused ip (Finset.mem_range.mp hip))
            (hused jp (Finset.mem_range.mp hjp)) e
      rw [Finset.card_range] at hcard
      omega
  · intro h0
    obtain ⟨ip, hslot⟩ := Option.ne_none_iff_exists'.mp h0
    obtain ⟨hip, ⟨hr, hi⟩ | ⟨hz, -⟩⟩ := igetSlot_some hslot
    · exact Or.inl (hs.mem_inums.mpr ⟨ip, hr, hi⟩)
    · -- the free slot has none
      refine Or.inr ?_
      have hsub : w.inums ⊆ ((Finset.range NINODE).erase ip).image fun jp => (s.itable jp).inum := by
        intro i hi
        obtain ⟨jp, hr, rfl⟩ := hs.mem_inums.mp hi
        refine Finset.mem_image.mpr ⟨jp, Finset.mem_erase.mpr ⟨?_, ?_⟩, rfl⟩
        · rintro rfl
          omega
        · exact Finset.mem_range.mpr (hslots.bound jp hr)
      have h1 := Finset.card_le_card hsub
      have h2 := Finset.card_image_le (s := (Finset.range NINODE).erase ip)
        (f := fun jp => (s.itable jp).inum)
      rw [Finset.card_erase_of_mem (Finset.mem_range.mpr hip), Finset.card_range] at h2
      simp only [NINODE] at *
      omega

theorem Sees.card_inums_le (hs : Sees sb w s) : w.inums.card ≤ NINODE := by
  have hsub : w.inums ⊆ (Finset.range NINODE).image fun jp => (s.itable jp).inum := by
    intro i hi
    obtain ⟨jp, hr, rfl⟩ := hs.mem_inums.mp hi
    exact Finset.mem_image.mpr ⟨jp, Finset.mem_range.mpr (hs.ok.inv.slots.bound jp hr), rfl⟩
  refine (Finset.card_le_card hsub).trans (Finset.card_image_le.trans ?_)
  rw [Finset.card_range]

/-- There was room for what has been taken. -/
theorem roomBeside_of_take {h h' : Handle} {R : Set Nat}
    (hs : Sees sb (((w.take h).seen R).take h') s) : w.RoomBeside h.inum h'.inum := by
  have hcard := hs.card_inums_le
  rw [World.inums_take, show ((w.take h).seen R).inums = (w.take h).inums from rfl,
    World.inums_take] at hcard
  by_cases hin : h'.inum ∈ insert h.inum w.inums
  · exact Or.inl hin
  · rw [Finset.card_insert_of_notMem hin] at hcard
    exact Or.inr hcard

theorem roomBeside_iff {h : Handle} {R : Set Nat} (hs : Sees sb ((w.take h).seen R) s) :
    w.RoomBeside h.inum j ↔ igetSlot s.itable j ≠ none := by
  have hr := room_iff (j := j) hs
  unfold World.Room at hr
  rw [show ((w.take h).seen R).inums = (w.take h).inums from rfl, World.inums_take] at hr
  exact hr

end Room

namespace Sysfile

/-! ## 3. The code -/

abbrev SLASH : UInt8 := 47

/-- `while(*path == '/') path++;` -/
def skipSlashes (path : List UInt8) : List UInt8 := path.dropWhile (· == SLASH)

/-- The next element of `path`, cut to `DIRSIZ` bytes, and what follows it; `none` if there is no
    element. -/
def skipelem (path : List UInt8) : Option (List UInt8 × List UInt8) :=
  match skipSlashes path with
  | [] => none
  | c :: s => some (((c :: s).takeWhile (· != SLASH)).take DIRSIZ,
      skipSlashes ((c :: s).dropWhile (· != SLASH)))

/-- `next = dirlookup(ip, name, 0)` and, whether there is one or not, `iunlockput(ip)`. -/
def lookupNext (ip : Nat) (name : List UInt8) : KM (Option Nat) := do
  let r ← lift (dirlookup ip name)
  iunlockput ip
  pure (r.map Prod.fst)

/-- The loop of `namex`: at the inode `ip`, with `path` left. `namei` has no use for the name. -/
def walk (parent : Bool) : Nat → Nat → List UInt8 → KM (Option (Nat × List UInt8))
  | 0, _, _ => Routine.stop .spins
  | n + 1, ip, path =>
    match skipelem path with
    | none =>
      if parent then do
        iput ip
        pure none
      else pure (some (ip, []))
    | some (name, rest) => do
      ilock ip
      let x ← lift (inode ip)
      if x.din.type ≠ T_DIR then do
        iunlockput ip
        pure none
      else if parent = true ∧ rest = [] then do
        -- Stop one level early.
        iunlock ip
        pure (some (ip, name))
      else do
        let next ← lookupNext ip name
        match next with
        | none => pure none
        | some next => walk parent n next rest

/-- `if(*path == '/') ip = iget(ROOTDEV, ROOTINO); else ip = idup(myproc()->cwd);` -/
def start (cwd : Nat) (path : List UInt8) : KM Nat :=
  if path.head? = some SLASH then lift (iget ROOTINO) else lift (idup cwd)

def namex (cwd : Nat) (path : List UInt8) (parent : Bool) : KM (Option (Nat × List UInt8)) := do
  let ip ← start cwd path
  walk parent (path.length + 1) ip path

def namei (cwd : Nat) (path : List UInt8) : KM (Option Nat) := do
  let r ← namex cwd path false
  pure (r.map Prod.fst)

def nameiparent (cwd : Nat) (path : List UInt8) : KM (Option (Nat × List UInt8)) :=
  namex cwd path true

/-- The elements that repeated calls of `skipelem` yield. -/
def elems : Nat → List UInt8 → List (List UInt8)
  | 0, _ => []
  | n + 1, path =>
    match skipelem path with
    | none => []
    | some (name, rest) => name :: elems n rest

/-! ## 4. Components -/

/-- **The non-empty components between slashes, each cut to `DIRSIZ` bytes.** -/
def components (path : List UInt8) : List (List UInt8) :=
  ((path.splitOn SLASH).filter (· ≠ [])).map (·.take DIRSIZ)

section Components

variable {path name rest : List UInt8}

theorem components_nil : components [] = [] := rfl

theorem components_slash (l : List UInt8) : components (SLASH :: l) = components l := by
  unfold components List.splitOn
  rw [List.splitOnP_cons_eq_if_modifyHead, if_pos (by decide)]
  rfl

theorem components_skipSlashes (l : List UInt8) : components (skipSlashes l) = components l := by
  induction l with
  | nil => rfl
  | cons c l ih =>
    unfold skipSlashes at *
    rw [List.dropWhile_cons]
    split
    · rename_i hc
      obtain rfl := eq_of_beq hc
      rw [ih, components_slash]
    · rfl

/-- An element up to the next slash. -/
theorem components_elem {e l : List UInt8} (he : e ≠ []) (hno : ∀ c ∈ e, (c == SLASH) = false)
    (hl : l = [] ∨ ∃ l', l = SLASH :: l') : components (e ++ l) = e.take DIRSIZ :: components l := by
  rcases hl with rfl | ⟨l', rfl⟩
  · rw [List.append_nil, components_nil]
    unfold components List.splitOn
    rw [List.splitOnP_eq_singleton hno]
    simp [he]
  · rw [components_slash]
    unfold components List.splitOn
    rw [List.splitOnP_append_cons_of_forall_mem hno SLASH (by decide)]
    simp [he]

theorem length_skipSlashes (l : List UInt8) : (skipSlashes l).length ≤ l.length :=
  List.length_dropWhile_le _ _

theorem skipelem_none (h : skipelem path = none) : components path = [] := by
  unfold skipelem at h
  split at h
  · rename_i he
    rw [← components_skipSlashes, he, components_nil]
  · cases h

/-- The first element of a path. -/
theorem components_first {c : UInt8} {s : List UInt8} (hs : skipSlashes path = c :: s) :
    components path = ((c :: s).takeWhile (· != SLASH)).take DIRSIZ ::
        components ((c :: s).dropWhile (· != SLASH)) ∧
      ((c :: s).dropWhile (· != SLASH)).length < path.length := by
  have hc : (c == SLASH) = false := by
    have hne : path.dropWhile (· == SLASH) ≠ [] := by
      rw [show path.dropWhile (· == SLASH) = c :: s from hs]
      exact List.cons_ne_nil _ _
    have hhead := List.head_dropWhile_not (· == SLASH) hne
    simp only [show path.dropWhile (· == SLASH) = c :: s from hs, List.head_cons] at hhead
    exact hhead
  have hsplit : (c :: s).takeWhile (· != SLASH) ++ (c :: s).dropWhile (· != SLASH) = c :: s :=
    List.takeWhile_append_dropWhile
  have htake : (c :: s).takeWhile (· != SLASH) ≠ [] := by
    rw [List.takeWhile_cons, if_pos (by simp [bne, hc])]
    exact List.cons_ne_nil _ _
  have hno : ∀ b ∈ (c :: s).takeWhile (· != SLASH), (b == SLASH) = false := fun b hb => by
    simpa [bne] using List.mem_takeWhile_imp hb
  have hrest : (c :: s).dropWhile (· != SLASH) = [] ∨
      ∃ l', (c :: s).dropWhile (· != SLASH) = SLASH :: l' := by
    cases hl : (c :: s).dropWhile (· != SLASH) with
    | nil => exact Or.inl rfl
    | cons b l' =>
      have hhead := List.head_dropWhile_not (· != SLASH) (l := c :: s) (by
        rw [hl]
        exact List.cons_ne_nil _ _)
      simp only [hl, List.head_cons, bne_eq_false_iff_eq] at hhead
      exact Or.inr ⟨l', by rw [hhead]⟩
  constructor
  · rw [← components_skipSlashes path, hs, ← components_elem htake hno hrest, hsplit]
  · have hlen := congrArg List.length hsplit
    rw [List.length_append] at hlen
    have hpos := List.length_pos_of_ne_nil htake
    have hle := length_skipSlashes path
    rw [hs] at hle
    omega

theorem skipSlashes_eq_nil (l : List UInt8) : skipSlashes l = [] ↔ components l = [] := by
  refine ⟨fun h => by rw [← components_skipSlashes, h, components_nil], fun h => ?_⟩
  cases hs : skipSlashes l with
  | nil => rfl
  | cons c s =>
    rw [(components_first hs).1] at h
    cases h

/-- **`skipelem` takes the first component off**, and the path gets shorter. -/
theorem skipelem_some (h : skipelem path = some (name, rest)) :
    components path = name :: components rest ∧ rest.length < path.length ∧
      (rest = [] ↔ components rest = []) := by
  unfold skipelem at h
  split at h
  · cases h
  · rename_i c s hs
    cases h
    obtain ⟨hc, hlt⟩ := components_first hs
    rw [components_skipSlashes]
    exact ⟨hc, (length_skipSlashes _).trans_lt hlt, skipSlashes_eq_nil _⟩

theorem elems_eq {n : Nat} (h : path.length ≤ n) : elems n path = components path := by
  induction n generalizing path with
  | zero =>
    rw [List.eq_nil_of_length_eq_zero (Nat.le_zero.mp h)]
    rfl
  | succ n ih =>
    rw [elems]
    cases hs : skipelem path with
    | none => exact (skipelem_none hs).symm
    | some r =>
      obtain ⟨name, rest⟩ := r
      obtain ⟨hc, hlt, -⟩ := skipelem_some hs
      rw [hc, ← ih (by omega)]

end Components

/-! ## 5. The walk -/

section Walk

variable {sb : Superblock} {w : World} {L B : List Nat} {k : Ks} {n m : Nat} {A : Halt → Prop}
  {h c : Handle} {path : List UInt8} {parent : Bool}

theorem take_lock_take (w : World) (h h' : Handle) :
    ((w.take h).lock h.slot).take h' = ((w.take h').take h).seen (insert h.slot w.read) := by
  show World.mk _ _ (h' ::ₘ h ::ₘ w.held) _ = _
  rw [Multiset.cons_swap]
  rfl

theorem lookup_of_scan {w : World} {i : Nat} {name : List UInt8} {r : Option (Nat × Nat)}
    (h : scan name (dirents (w.files i)) = r) : w.lookup i name = r.map Prod.fst := by
  rw [← h]
  rfl

/-- **One level down.** -/
theorem lookupNext_at {name : List UInt8} (hA : Wants A) (hw : Calm sb w) (hcl : w.Closed)
    (hk : At sb ((w.take h).lock h.slot) [h.slot] B k) (hdir : (w.dins h.inum).type = T_DIR)
    (hR : ∀ j, w.lookup h.inum name = some j → ¬ w.RoomBeside h.inum j → A (.panic .igetNoInodes))
    (hn : B.length ≤ n) :
    (lookupNext h.slot name k).Sat (fun r k' =>
      match w.lookup h.inum name with
      | none => r = none ∧ At sb w [] B k'
      | some j => ∃ jp, r = some jp ∧ w.RoomBeside h.inum j ∧ At sb (w.take ⟨jp, j⟩) [] B k')
      (Fails n A) := by
  have hheld : h ∈ ((w.take h).lock h.slot).held := Multiset.mem_cons_self h w.held
  have hread : h.slot ∈ ((w.take h).lock h.slot).read := Set.mem_insert _ _
  have hopen : OpenDir sb ((w.take h).lock h.slot) h :=
    ⟨hheld, hread, hdir, hw.dirs.aligned _ hdir, hw.dirs.inums _ hdir⟩
  have hsub : w.read ⊆ insert h.slot w.read := Set.subset_insert _ _
  have hkept := hw.kept_taken (R := insert h.slot w.read) hk.sees
  refine (dirlookup_at hA hk hopen (fun j off s1 hsc h1 h0 => ?_) hn).bind
    fun r k1 hq1 => ?_
  · exact hR j (lookup_of_scan hsc) fun hroom => (roomBeside_iff h1).mp hroom h0
  · cases hsc : scan name (dirents (w.files h.inum)) with
    | none =>
      rw [lookup_of_scan hsc]
      rw [show scan name (dirents (((w.take h).lock h.slot).files h.inum)) = none from hsc] at hq1
      obtain ⟨rfl, h1⟩ := hq1
      refine (iunlockput_back_at (R := insert h.slot w.read) hA hcl h1 hsub hkept hn).bind
        fun _ k2 h2 => ?_
      exact ⟨rfl, h2⟩
    | some r =>
      obtain ⟨j, off⟩ := r
      rw [lookup_of_scan hsc]
      rw [show scan name (dirents (((w.take h).lock h.slot).files h.inum)) = some (j, off) from hsc]
        at hq1
      obtain ⟨jp, rfl, h1⟩ := hq1
      have hroom : w.RoomBeside h.inum j := roomBeside_of_take (R := insert h.slot w.read) h1.sees
      rw [take_lock_take] at h1
      refine (iunlockput_back_at hA (hcl.take _) h1 hsub
        (hkept.imp_left Multiset.mem_cons_of_mem) hn).bind fun _ k2 h2 => ?_
      exact ⟨jp, rfl, hroom, h2⟩

/-- **The rule for the loop of `namex`.** -/
theorem walk_at (hA : Wants A) (hw : Calm sb w) (hcl : w.Closed) (hk : At sb (w.take h) [] B k)
    (hT : ¬ w.Passable (fun _ _ => True) parent h.inum (components path) → A (.panic .ilockNoType))
    (hR : ¬ w.Passable w.RoomBeside parent h.inum (components path) → A (.panic .igetNoInodes))
    (hfuel : path.length < m) (hn : B.length ≤ n) :
    (walk parent m h.slot path k).Sat (fun r k' =>
      w.Passable w.RoomBeside parent h.inum (components path) ∧
      match w.resolve parent h.inum (components path) with
      | none => r = none ∧ At sb w [] B k'
      | some (j, name) => ∃ jp, r = some (jp, name) ∧ At sb (w.take ⟨jp, j⟩) [] B k')
      (Fails n A) := by
  -- the induction is on the fuel, over all inodes and paths
  induction m generalizing h path k with
  | zero => omega
  | succ m ih =>
    rw [walk]
    cases hs : skipelem path with
    | none =>
      have hnil := skipelem_none hs
      rw [hnil, World.resolve_nil]
      cases parent with
      | false => exact ⟨trivial, h.slot, rfl, hk⟩
      | true =>
        refine (iput_back_at (R := w.read) hA hcl hk (fun _ hr => hr)
          (hw.kept_taken (R := w.read) hk.sees) hn).bind fun _ k1 h1 => ?_
        exact ⟨trivial, rfl, h1⟩
    | some r =>
      obtain ⟨name, rest⟩ := r
      obtain ⟨hcomp, hlt, hend⟩ := skipelem_some hs
      rw [hcomp] at hT hR ⊢
      refine (ilock_at hA hk (Multiset.mem_cons_self h w.held)
        (fun h0 => hT fun hp => hp.1 h0) (fun hin => by cases hin) hn).bind fun _ k1 hq1 => ?_
      obtain ⟨-, h1⟩ := hq1
      have hheld : h ∈ ((w.take h).lock h.slot).held := Multiset.mem_cons_self h w.held
      have hread : h.slot ∈ ((w.take h).lock h.slot).read := Set.mem_insert _ _
      have hdin : (k1.fs.itable h.slot).din = w.dins h.inum := h1.sees.din hheld hread
      have halloc : (w.dins h.inum).type ≠ 0 := h1.sees.type_ne_zero hheld hread
      have hsub : w.read ⊆ insert h.slot w.read := Set.subset_insert _ _
      have hkept := hw.kept_taken (R := insert h.slot w.read) h1.sees
      rw [lift_inode_bind, hdin]
      by_cases hdir : (w.dins h.inum).type = T_DIR
      · rw [if_neg fun hne => hne hdir]
        by_cases hlast : parent = true ∧ rest = []
        · rw [if_pos hlast]
          obtain ⟨rfl, rfl⟩ := hlast
          refine (iunlock_at h1 hheld List.mem_cons_self).bind fun _ k2 h2 => ?_
          rw [List.erase_cons_head] at h2
          rw [components_nil, World.resolve_last hdir]
          refine ⟨⟨halloc, fun _ hne => absurd ⟨rfl, rfl⟩ hne⟩, h.slot, rfl, h2.seen (R := w.read) hsub⟩
        · rw [if_neg hlast]
          have hgo : ¬ (parent = true ∧ components rest = []) := fun hp =>
            hlast ⟨hp.1, hend.mpr hp.2⟩
          rw [World.resolve_cons hdir hgo]
          refine (lookupNext_at hA hw hcl h1 hdir (fun j hj hno => hR fun hp =>
            hno (hp.2 hdir hgo j hj).1) hn).bind fun next k2 hq2 => ?_
          cases hl : w.lookup h.inum name with
          | none =>
            rw [hl] at hq2
            obtain ⟨rfl, h2⟩ := hq2
            exact ⟨⟨halloc, fun _ _ j hj => by cases hl.symm.trans hj⟩, rfl, h2⟩
          | some j =>
            rw [hl] at hq2
            obtain ⟨jp, rfl, hroom, h2⟩ := hq2
            have hdown : ∀ room : Nat → Nat → Prop,
                ¬ w.Passable room parent j (components rest) →
                  ¬ w.Passable room parent h.inum (name :: components rest) :=
              fun room hno hp => hno (hp.2 hdir hgo j hl).2
            refine (ih (h := ⟨jp, j⟩) h2 (fun hno => hT (hdown _ hno)) (fun hno => hR (hdown _ hno)) (by omega)).imp
              fun r k3 hq3 => ?_
            refine ⟨⟨halloc, fun _ _ j' hj' => ?_⟩, hq3.2⟩
            cases hl.symm.trans hj'
            exact ⟨hroom, hq3.1⟩
      · rw [if_pos hdir, World.resolve_notDir hdir]
        refine (iunlockput_back_at (R := insert h.slot w.read) hA hcl h1 hsub hkept hn).bind
          fun _ k2 h2 => ?_
        exact ⟨⟨halloc, fun ht => absurd ht hdir⟩, rfl, h2⟩

end Walk

/-! ## 6. Paths are resolved -/

/-- The inode where the walk starts. -/
def startInum (cwd : Nat) (path : List UInt8) : Nat :=
  if path.head? = some SLASH then ROOTINO else cwd

/-- **The walk along `path` meets no obstacle.** -/
def Clear (w : World) (parent : Bool) (cwd : Nat) (path : List UInt8) : Prop :=
  (path.head? = some SLASH → w.Room ROOTINO) ∧
    w.Passable w.RoomBeside parent (startInum cwd path) (components path)

section Namex

variable {sb : Superblock} {w : World} {B : List Nat} {k : Ks} {n : Nat} {A : Halt → Prop}
  {c : Handle} {path : List UInt8} {parent : Bool}

theorem start_at (hk : At sb w [] B k) (hw : Calm sb w) (hc : c ∈ w.held)
    (hR : (path.head? = some SLASH → ¬ w.Room ROOTINO → A (.panic .igetNoInodes)))
    (hn : B.length ≤ n) :
    (start c.slot path k).Sat (fun ip k' => (path.head? = some SLASH → w.Room ROOTINO) ∧
      At sb (w.take ⟨ip, startInum c.inum path⟩) [] B k') (Fails n A) := by
  unfold start startInum
  by_cases habs : path.head? = some SLASH
  · rw [if_pos habs, if_pos habs]
    refine (iget_at hk hw.rootIn (fun h0 => hR habs fun hroom => (room_iff hk.sees).mp hroom h0) hn).imp
      fun ip k1 h1 => ⟨fun _ => ?_, h1⟩
    by_contra hno
    have hcard := h1.sees.card_inums_le
    unfold World.Room at hno
    push Not at hno
    rw [World.inums_take, Finset.card_insert_of_notMem hno.1] at hcard
    omega
  · rw [if_neg habs, if_neg habs]
    refine (idup_at hk hc).imp fun ip k1 hq => ?_
    obtain ⟨rfl, h1⟩ := hq
    exact ⟨fun h => absurd h habs, h1⟩

/-- **The rule for `namex`.** -/
theorem namex_at (hA : Wants A) (hw : Calm sb w) (hk : At sb w [] B k) (hc : c ∈ w.held)
    (hT : ¬ w.Passable (fun _ _ => True) parent (startInum c.inum path) (components path) →
      A (.panic .ilockNoType))
    (hR : ¬ Clear w parent c.inum path → A (.panic .igetNoInodes)) (hn : B.length ≤ n) :
    (namex c.slot path parent k).Sat (fun r k' => Clear w parent c.inum path ∧
      match w.resolve parent (startInum c.inum path) (components path) with
      | none => r = none ∧ At sb w [] B k'
      | some (j, name) => ∃ jp, r = some (jp, name) ∧ At sb (w.take ⟨jp, j⟩) [] B k')
      (Fails n A) := by
  refine (start_at hk hw hc (fun habs hno => hR fun ho => hno (ho.1 habs)) hn).bind
    fun ip k1 hq1 => ?_
  obtain ⟨hroom, h1⟩ := hq1
  exact (walk_at hA hw hk.sees.closed h1 hT (fun hno => hR fun ho => hno ho.2)
    (Nat.lt_succ_self _) hn).imp fun r k2 hq2 => ⟨⟨hroom, hq2.1⟩, hq2.2⟩

end Namex

end Sysfile

end HaiOS
