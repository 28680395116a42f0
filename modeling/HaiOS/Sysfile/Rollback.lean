/-
  File:      HaiOS/Sysfile/Rollback.lean
  Subject:   A CALL ON NAMES THAT FAILS LEAVES NO TRACE (kernel/sysfile.c: sys_link, sys_unlink,
             sys_mkdir, sys_mknod).

  * `Changes` -- what a call that succeeds does to the world; `exec_idle` -- the rule for a whole call;
  * `Rests.step`, `Usable.rests` -- no call, and no run of calls from boot, breaks what the rule needs;
  * `RolledBack`, `failed_call_rolls_back` -- after -1 inodes, contents, bitmap and locks are as before.
-/
import HaiOS.Sysfile.Create
import HaiOS.Sysfile.Home

namespace HaiOS.Sysfile

open Lib

/-! ## 1. The calls -/

inductive NameCall where
  | link (old new : Option (List UInt8))
  | unlink (path : Option (List UInt8))
  | mkdir (path : Option (List UInt8))
  | mknod (path : Option (List UInt8)) (major minor : Int16)
  deriving DecidableEq, Repr

def NameCall.exec (cwd : Nat) : NameCall → KM Int
  | .link old new => sysLink cwd old new
  | .unlink path => sysUnlink cwd path
  | .mkdir path => sysMkdir cwd path
  | .mknod path major minor => sysMknod cwd path major minor

/-- The paths of a call. -/
def NameCall.paths : NameCall → List (List UInt8)
  | .link old new => old.toList ++ new.toList
  | .unlink path => path.toList
  | .mkdir path => path.toList
  | .mknod path _ _ => path.toList

/-- **Link counts have room for one more link**, where a call adds one: to the file that `link`
    finds, and to the directory that `mkdir` writes to. -/
def NameCall.HasRoom (w : World) (cwd : Nat) : NameCall → Prop
  | .link old _ => ∀ p ∈ old, ∀ i, w.find (startInum cwd p) (components p) = some i →
      (w.dins i).nlink ≠ 32767
  | .mkdir path => ∀ p ∈ path, ∀ d name, w.findParent (startInum cwd p) (components p) = some (d, name) →
      (w.dins d).nlink ≠ 32767
  | .unlink _ | .mknod _ _ _ => True

/-- **What a call that succeeds does to the world.** -/
inductive Changes (sb : Superblock) (w : World) (cwd : Nat) : NameCall → World → Prop where
  | link {old new name : List UInt8} {h : Handle} {d j : Nat} {d' : Dinode}
      (hl : Linking w cwd old new h d name d' j) :
      Changes sb w cwd (.link (some old) (some new)) ((bindName (raise w h) d name h.inum d' j).put h)
  | unlink {path name : List UInt8} {g h : Handle} {d' : Dinode} {j : Nat} {e : Dirent}
      (hu : Unlinking w cwd path g h d' j e name) :
      Changes sb w cwd (.unlink (some path)) (unlinked w g h d' j)
  | mkdir {path name l : List UInt8} {g h : Handle} {d1 d2 : Dinode} {j : Nat}
      (hc : Creating sb w cwd path g h name T_DIR d1 l d2 j) :
      Changes sb w cwd (.mkdir (some path)) ((created w g h name T_DIR d1 l d2 j).put h)
  | mknod {path name l : List UInt8} {g h : Handle} {d1 d2 : Dinode} {j : Nat} {major minor : Int16}
      (hc : Creating sb w cwd path g h name T_DEVICE d1 l d2 j) :
      Changes sb w cwd (.mknod (some path) major minor) ((created w g h name T_DEVICE d1 l d2 j).put h)

section Calls

variable {sb : Superblock} {w w' : World} {B : List Nat} {k k' : Ks} {n : Nat} {A : Halt → Prop} {c : Handle}
  {call : NameCall}

/-! ## 2. The rule for a call -/

/-- The bitmap of an untouched world is the same. -/
theorem bits_untouched {s s' : Fs} (hs : Sees sb w s) (hs' : Sees sb w' s') (hun : Untouched w w') :
    bits s' = bits s := by
  have howner : ∀ i, owner s' i = owner s i := fun i => by
    unfold owner
    rw [hs.dins, hs'.dins]
    by_cases h0 : (w.dins i).type = 0
    · rw [if_pos h0, if_pos (hun.free i h0)]
    · have hsame := hun.same i h0
      rw [if_neg h0, if_neg (by rw [hsame.type]; exact h0), hsame.extents]
  funext b
  rw [Bool.eq_iff_iff, hs'.ok.inv.owned.exact b, hs.ok.inv.owned.exact b, hs.sb, hs'.sb]
  simp only [howner]

/-- **`sys_mkdir` and `sys_mknod`.** -/
theorem make_idle {path : Option (List UInt8)} {type major minor : Int16} (hres : Resources A)
    (hA : ∀ p ∈ path, Allows w (startInum c.inum p) A) (ht : type ≠ 0) (hfile : type ≠ T_FILE)
    (hw : Calm sb w) (hk : Idle sb w k) (hc : c ∈ w.held) {M : World → Prop}
    (hM : ∀ {p g h name d1 l d2 j}, path = some p → Creating sb w c.inum p g h name type d1 l d2 j →
      M ((created w g h name type d1 l d2 j).put h)) :
    (transaction (make c.slot path type major minor) k).Sat (fun r k' => ∃ w', Idle sb w' k' ∧
      Answers sb w M r w') fun e _ => A e := by
  refine transaction_ends (n := (bitmapBlocks sb).length + 5) hres hk (fun k1 h1 => ?_) fun w' hx => hx
  cases path with
  | none => exact ⟨w, _, Nat.le_add_right _ _, h1, Or.inl ⟨rfl, .refl w⟩⟩
  | some p =>
    refine (make_at (hA p rfl) ht hfile hw h1 hc (fun b hb => mem_bitmapBlocks hb)
      (Nat.le_refl _)).imp fun r k2 hq => ?_
    obtain ⟨w', B', hlen, h2, hcase⟩ := hq
    refine ⟨w', B', hlen, h2, hcase.imp_right (And.imp_right (And.imp_right fun hx => ?_))⟩
    obtain ⟨g, h, name, d1, l, d2, j, hcr, rfl⟩ := hx
    exact hM rfl hcr

/-- **A call on names**, from a quiet state to a quiet state. -/
theorem exec_idle (hA : ∀ p ∈ call.paths, Allows w (startInum c.inum p) A) (hres : Resources A)
    (hmax : (∀ e, A e) ∨ call.HasRoom w c.inum) (hw : Calm sb w) (hk : Idle sb w k) (hc : c ∈ w.held) :
    (call.exec c.slot k).Sat (fun r k' => ∃ w', Idle sb w' k' ∧ Answers sb w (Changes sb w c.inum call) r w')
      fun e _ => A e := by
  have hbit : ∀ b < sb.size, bblock sb b ∈ bitmapBlocks sb := fun b hb => mem_bitmapBlocks hb
  cases call with
  | link old new =>
    cases old with
    | none => exact ⟨w, hk, Or.inl ⟨rfl, .refl w⟩⟩
    | some old =>
      cases new with
      | none => exact ⟨w, hk, Or.inl ⟨rfl, .refl w⟩⟩
      | some new =>
        refine transaction_ends hres hk (fun k1 h1 => link_at (hA old (by simp [NameCall.paths]))
          (hA new (by simp [NameCall.paths])) (hmax.imp_right fun hroom => hroom old rfl) hw h1 hc hbit
          (Nat.le_refl _)) ?_
        rintro _ ⟨h, d, name, d', j, hl, rfl⟩
        exact .link hl
  | unlink path =>
    cases path with
    | none => exact ⟨w, hk, Or.inl ⟨rfl, .refl w⟩⟩
    | some path =>
      refine transaction_ends hres hk (fun k1 h1 =>
        unlink_at (hA path (by simp [NameCall.paths])) hw h1 hc hbit (Nat.le_refl _)) ?_
      rintro _ ⟨g, h, d', j, e, name, hu, rfl⟩
      exact .unlink hu
  | mkdir path =>
    refine make_idle hres (fun p hp => hA p (Option.mem_toList.mpr hp)) (by decide) (by decide) hw hk hc ?_
    rintro p g h name d1 l d2 j rfl hcr
    exact .mkdir hcr
  | mknod path major minor =>
    refine make_idle hres (fun p hp => hA p (Option.mem_toList.mpr hp)) (by decide) (by decide) hw hk hc ?_
    rintro p g h name d1 l d2 j rfl hcr
    exact .mknod hcr

/-! ## 3. One call after another -/

theorem Changes.held (h : Changes sb w c.inum call w') : w'.held = w.held := by
  cases h with
  | link hl =>
    rw [put_held]
    exact Multiset.erase_cons_head _ _
  | @unlink path name g h d' j e hu =>
    rw [unlinked, put_held]
    show ((childless w g h d' j).put g).held.erase h = w.held
    rw [put_held, childless_held, Multiset.erase_comm, Multiset.erase_cons_head, Multiset.erase_cons_head]
  | mkdir hc | mknod hc =>
    rw [put_held, created_held fun e => hc.apart (congrArg Handle.slot e), Multiset.erase_cons_head]

/-- **The kernel rests**, and a process has the working directory `c`. -/
def Rests (sb : Superblock) (c : Handle) (k : Ks) : Prop := ∃ w, Idle sb w k ∧ Calm sb w ∧ c ∈ w.held

/-- A call on names returns. -/
def NameStep (cwd : Nat) (k k' : Ks) : Prop := ∃ call r, NameCall.exec cwd call k = .ok r k'

theorem exec_answers {r : Int} (hk : Idle sb w k) (hw : Calm sb w) (hc : c ∈ w.held)
    (hrun : call.exec c.slot k = .ok r k') :
    ∃ w', Idle sb w' k' ∧ Answers sb w (Changes sb w c.inum call) r w' := by
  have hexec : (call.exec c.slot k).Sat _ fun _ _ => True := exec_idle (A := fun _ => True)
    (fun p _ => ⟨fun _ _ => trivial, Or.inr fun _ => trivial⟩) (fun _ _ => trivial)
    (Or.inl fun _ => trivial) hw hk hc
  exact hexec.of_ok hrun

/-- **A call that returns, with any answer, leaves the tree at rest.** -/
theorem Rests.step (h : Rests sb c k) (hs : NameStep c.slot k k') : Rests sb c k' := by
  obtain ⟨w, hk, hw, hc⟩ := h
  obtain ⟨call, r, hrun⟩ := hs
  obtain ⟨w', h', ⟨-, hun⟩ | ⟨-, hcalm, hch⟩⟩ := exec_answers hk hw hc hrun
  · exact ⟨w', h', hun.calm hw, hun.held ▸ hc⟩
  · exact ⟨w', h', hcalm, hch.held ▸ hc⟩

/-- **So does every run of them from boot.** -/
theorem Usable.rests {disk : Nat → Block} (h : Usable sb disk)
    (hr : Reach (· = Ks.boot sb disk) (NameStep rootHandle.slot) k) : Rests sb rootHandle k := by
  refine hr.invariant ?_ fun _ _ hk hs => hk.step hs
  rintro _ rfl
  exact ⟨_, h.idle, h.calm, Multiset.mem_singleton_self _⟩

/-! ## 4. A call that fails -/

/-- **Nothing is left of the call**: the same inodes are allocated, with the same fields and contents,
    directories have the same entries, the bitmap is the same and no inode is locked. -/
structure RolledBack (k k' : Ks) : Prop where
  allocated : ∀ i, (dinodes k'.fs i).type ≠ 0 ↔ (dinodes k.fs i).type ≠ 0
  inodes : ∀ i, (dinodes k.fs i).type ≠ 0 → (dinodes k'.fs i).type = (dinodes k.fs i).type ∧
    (dinodes k'.fs i).nlink = (dinodes k.fs i).nlink ∧
    (dinodes k'.fs i).size = (dinodes k.fs i).size ∧
    (dinodes k'.fs i).extents = (dinodes k.fs i).extents ∧ file k'.fs i = file k.fs i
  entries : ∀ i, (dinodes k.fs i).type = T_DIR →
    (dirents (file k'.fs i)).filter Dirent.live = (dirents (file k.fs i)).filter Dirent.live
  bitmap : bits k'.fs = bits k.fs
  unlocked : k'.locked = []

theorem rolledBack_of_untouched (hk : Idle sb w k) (hk' : Idle sb w' k') (hun : Untouched w w') :
    RolledBack k k' := by
  have hfile : file k'.fs = file k.fs := by rw [hk'.sees.files, hk.sees.files, hun.files]
  refine ⟨fun i => ?_, fun i h0 => ?_, fun i _ => by rw [hfile], bits_untouched hk.sees hk'.sees hun,
    hk'.locked⟩
  · rw [hk.sees.dins, hk'.sees.dins]
    refine ⟨fun h h0 => h (hun.free i h0), fun h => ?_⟩
    rw [(hun.same i h).type]
    exact h
  · rw [hfile, hk'.sees.dins]
    rw [hk.sees.dins] at h0 ⊢
    have hsame := hun.same i h0
    exact ⟨hsame.type, hsame.nlink, hsame.size, hsame.extents, rfl⟩

/-- A change is no failure: the answer is 0. -/
theorem Answers.untouched {r : Int} {M : World → Prop} (h : Answers sb w M r w') (hr : r = -1) :
    Untouched w w' := by
  rcases h with ⟨-, hun⟩ | ⟨h0, -⟩
  · exact hun
  · omega

/-- **Failed calls on names roll back.** Between the calls, for every call with any arguments: when
    it returns -1, nothing is left of it. -/
theorem failed_call_rolls_back (hk : Idle sb w k) (hw : Calm sb w) (hc : c ∈ w.held)
    (hrun : call.exec c.slot k = .ok (-1) k') : RolledBack k k' := by
  obtain ⟨w', h', hans⟩ := exec_answers hk hw hc hrun
  exact rolledBack_of_untouched hk h' (hans.untouched rfl)

end Calls

/-- `link("a", "a")` after `mknod("a")`: the link count goes up, and down again. -/
theorem failed_call_rolls_back_link :
    ∃ k k', Reach (· = Ks.boot smallSb homeDisk) (NameStep 0) k ∧ (dinodes k.fs 2).nlink = 1 ∧
      (NameCall.link (some [97]) (some [97])).exec 0 k = .ok (-1) k' ∧ RolledBack k k' := by
  have hrun : ((NameCall.mknod (some [97]) 1 0).exec 0 (Ks.boot smallSb homeDisk)).test (fun r k =>
      decide ((dinodes k.fs 2).nlink = 1 ∧
        ((NameCall.link (some [97]) (some [97])).exec 0 k).value = some (-1))) = true := by
    decide +kernel
  obtain ⟨r, k, hk, hq⟩ := Outcome.exists_of_test hrun
  obtain ⟨hlink, hval⟩ := of_decide_eq_true hq
  have hr : Reach (· = Ks.boot smallSb homeDisk) (NameStep 0) k := .step (.start rfl) ⟨_, _, hk⟩
  obtain ⟨w, hidle, hcalm, hroot⟩ := usable_homeDisk.rests hr
  exact ⟨k, _, hr, hlink, Outcome.eq_ok hval, failed_call_rolls_back hidle hcalm hroot
    (Outcome.eq_ok hval)⟩

end HaiOS.Sysfile
