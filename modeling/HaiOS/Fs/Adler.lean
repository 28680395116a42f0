/-
  File:      HaiOS/Fs/Adler.lean
  Subject:   THE CHECKSUM OF A FILE IS ITS ADLER-32 (kernel/fs.c: adler32_update,
             inode_checksum).

  `adler32_update` keeps two 16-bit sums in one word and unpacks them for every block. What it
  should compute is said here without words: `adlerA`, 1 plus the sum of the bytes, and `adlerB`,
  the sum of the sums that run up to each byte, both modulo 65521.

  * `noOverflow` -- no addition of the loop leaves 32 bits, whatever word it starts from;
  * `adler32_toNat` -- the word is the pair of the two sums;
  * `checksum_is_adler32` -- block after block is the same as all at once, and `inode_checksum`
    of a file whose blocks cover its size is the Adler-32 of its first `size` bytes.
-/
import HaiOS.Fs.Arrays
import Mathlib.Data.Nat.ModEq

namespace HaiOS

open Lib

/-! ## 1. The two sums -/

/-- The sums that run up to each byte, from `a` on. -/
def runningSums : Nat → List UInt8 → List Nat
  | _, [] => []
  | a, x :: xs => (a + x.toNat) :: runningSums (a + x.toNat) xs

/-- 1 plus the sum of the bytes. -/
def adlerA (data : List UInt8) : Nat := (1 + (data.map UInt8.toNat).sum) % 65521

/-- The sum of the running sums. -/
def adlerB (data : List UInt8) : Nat := (runningSums 1 data).sum % 65521

/-- The running sums may start from the sum so far or from its remainder. -/
theorem runningSums_modEq {a b : Nat} (h : a ≡ b [MOD 65521]) (data : List UInt8) :
    (runningSums a data).sum ≡ (runningSums b data).sum [MOD 65521] := by
  induction data generalizing a b with
  | nil => rfl
  | cons x xs ih =>
    have hx : a + x.toNat ≡ b + x.toNat [MOD 65521] := h.add_right _
    simp only [runningSums, List.sum_cons]
    exact hx.add (ih hx)

/-! ## 2. The loop in 32 bits -/

/-- **No addition of the loop over `data` leaves 32 bits**, from the sums `p` on. -/
def NoOverflow : UInt32 × UInt32 → List UInt8 → Prop
  | _, [] => True
  | p, x :: xs =>
    p.1.toNat + x.toNat < 2 ^ 32 ∧ p.2.toNat + (adlerStep p x).1.toNat < 2 ^ 32 ∧
      NoOverflow (adlerStep p x) xs

section Loop

variable {p : UInt32 × UInt32}

section

variable (h : p.1.toNat < 65536 ∧ p.2.toNat < 65536)
include h

/-- One turn of the loop, on halves of 16 bits. -/
theorem adlerStep_toNat (x : UInt8) :
    (adlerStep p x).1.toNat = (p.1.toNat + x.toNat) % 65521 ∧
      (adlerStep p x).2.toNat = (p.2.toNat + (adlerStep p x).1.toNat) % 65521 := by
  have hx : x.toNat < 256 := x.toNat_lt
  have hm : (65521 : UInt32).toNat = 65521 := rfl
  have h1 : (adlerStep p x).1.toNat = (p.1.toNat + x.toNat) % 65521 := by
    show ((p.1 + x.toUInt32) % 65521).toNat = _
    rw [UInt32.toNat_mod, UInt32.toNat_add, UInt8.toNat_toUInt32, hm,
      Nat.mod_eq_of_lt (show p.1.toNat + x.toNat < 2 ^ 32 by omega)]
  refine ⟨h1, ?_⟩
  show ((p.2 + (adlerStep p x).1) % 65521).toNat = _
  rw [UInt32.toNat_mod, UInt32.toNat_add, hm, Nat.mod_eq_of_lt (show _ < 2 ^ 32 by omega)]

theorem adlerStep_lt (x : UInt8) :
    (adlerStep p x).1.toNat < 65521 ∧ (adlerStep p x).2.toNat < 65521 := by
  obtain ⟨h1, h2⟩ := adlerStep_toNat h x
  omega

theorem noOverflow (data : List UInt8) : NoOverflow p data := by
  induction data generalizing p with
  | nil => trivial
  | cons x xs ih =>
    have hx : x.toNat < 256 := x.toNat_lt
    have hlt := adlerStep_lt h x
    exact ⟨by omega, by omega, ih (by omega)⟩

end

/-- The loop computes the two sums. -/
theorem foldl_adlerStep (h : p.1.toNat < 65521 ∧ p.2.toNat < 65521) (data : List UInt8) :
    (data.foldl adlerStep p).1.toNat = (p.1.toNat + (data.map UInt8.toNat).sum) % 65521 ∧
      (data.foldl adlerStep p).2.toNat =
        (p.2.toNat + (runningSums p.1.toNat data).sum) % 65521 := by
  induction data generalizing p with
  | nil =>
    simp only [List.foldl_nil, List.map_nil, List.sum_nil, runningSums, Nat.add_zero]
    exact ⟨(Nat.mod_eq_of_lt h.1).symm, (Nat.mod_eq_of_lt h.2).symm⟩
  | cons x xs ih =>
    have h16 : p.1.toNat < 65536 ∧ p.2.toNat < 65536 := by omega
    obtain ⟨h1, h2⟩ := adlerStep_toNat h16 x
    obtain ⟨ih1, ih2⟩ := ih (adlerStep_lt h16 x)
    -- the sum so far is kept as a remainder, and so are the sums that run on from it
    have hrun := runningSums_modEq (Nat.mod_modEq (p.1.toNat + x.toNat) 65521) xs
    rw [← h1] at hrun
    have hrun : _ % 65521 = _ % 65521 := hrun
    rw [List.foldl_cons, ih1, ih2]
    simp only [List.map_cons, List.sum_cons, runningSums]
    omega

end Loop

/-- The halves `adler32_update` starts from. -/
theorem adler32_halves (data : List UInt8) :
    (data.foldl adlerStep (1, 0)).1.toNat = adlerA data ∧
      (data.foldl adlerStep (1, 0)).2.toNat = adlerB data := by
  have h := foldl_adlerStep (p := (1, 0)) ⟨by decide, by decide⟩ data
  rw [adlerA, adlerB]
  simpa using h

/-- **The checksum is the pair of the two sums**, in its high and its low half. -/
theorem adler32_toNat (data : List UInt8) :
    (adler32 data).toNat = adlerB data * 65536 + adlerA data := by
  obtain ⟨h1, h2⟩ := adler32_halves data
  have hA : adlerA data < 65521 := Nat.mod_lt _ (by decide)
  have hB : adlerB data < 65521 := Nat.mod_lt _ (by decide)
  have h16 : (16 : UInt32).toNat = 16 := rfl
  have hshift : (data.foldl adlerStep (1, 0)).2.toNat <<< 16 % 2 ^ 32 =
      2 ^ 16 * adlerB data := by
    rw [h2, Nat.shiftLeft_eq, Nat.mod_eq_of_lt (by omega), Nat.mul_comm]
  show ((data.foldl adlerStep (1, 0)).2 <<< 16 ||| (data.foldl adlerStep (1, 0)).1).toNat = _
  rw [UInt32.toNat_or, UInt32.toNat_shiftLeft, h16, hshift, h1,
    ← Nat.two_pow_add_eq_or_of_lt (show adlerA data < 2 ^ 16 by omega)]
  omega

/-! ## 3. The checksum of a file -/

/-- A file whose blocks cover its size, with a buffer left to read them through: the checksum is
    the Adler-32 of the contents, and nothing changes. -/
theorem inodeChecksum_returns {s : Fs} {ip : Nat} (hok : FsOk All s) (hx : Holds s (s.itable ip))
    (hc : (s.itable ip).din.checked)
    (hcov : (s.itable ip).din.size.toNat ≤
      BSIZE * (blocksOf (s.itable ip).din.extents.1).length)
    (hsize : (s.itable ip).din.size.toNat + BSIZE ≤ 2 ^ 32) (hbuf : s.log.lh.length < NBUF) :
    ∃ s', inodeChecksum ip s = .ok (adler32 (content s (s.itable ip).din)) s' ∧
      Touch All .nothing s s' := by
  have hrun := inodeChecksum_covered (fun _ _ h => h) hok hx hcov hsize
  obtain ⟨r, s', he, ht, -, hr⟩ := hrun.returns fun p s' ht hs => by
    have hlog : s'.log = s.log := ht.log_eq fun _ hf => hf
    rw [Starved, hlog] at hs
    omega
  rw [he, hr fun _ => trivial, sumOf, if_pos hc]
  exact ⟨s', rfl, ht⟩

/-- **Block-wise checksums equal Adler-32 of the file.** Continuing with `y` after `x` gives the
    checksum of both; no addition leaves 32 bits; the result packs the two sums; and
    `inode_checksum` of a file or directory whose blocks cover its size is the Adler-32 of its
    first `size` bytes. The size is one that can be rounded up to a block in 32 bits, as every
    size up to `MAXFILE * BSIZE` can. -/
theorem checksum_is_adler32 :
    (∀ x y : List UInt8, adler32Update (adler32Update 1 x) y = adler32Update 1 (x ++ y)) ∧
    (∀ (a : UInt32) (x : List UInt8), NoOverflow (a &&& 0xffff, (a >>> 16) &&& 0xffff) x) ∧
    (∀ x : List UInt8, (adler32Update 1 x).toNat = adlerB x * 65536 + adlerA x) ∧
    ∀ (s : Fs) (ip : Nat), FsOk All s → Holds s (s.itable ip) → (s.itable ip).din.checked →
      (s.itable ip).din.size.toNat ≤ BSIZE * (blocksOf (s.itable ip).din.extents.1).length →
      (s.itable ip).din.size.toNat + BSIZE ≤ 2 ^ 32 → s.log.lh.length < NBUF →
      ∃ s', inodeChecksum ip s = .ok (adler32Update 1 (content s (s.itable ip).din)) s' ∧
        Touch All .nothing s s' :=
  ⟨adler32_append, fun a x => noOverflow ⟨and_ffff_lt a, and_ffff_lt _⟩ x, adler32_toNat,
    fun _ _ hok hx hc hcov hsize hbuf => inodeChecksum_returns hok hx hc hcov hsize hbuf⟩

/-- The small disk with the file of five zero bytes, its inode locked in slot 0. -/
def openFive : Fs :=
  (Fs.boot smallSb Arrays.fiveDisk).setSlot 0 ⟨1, 1, true, Arrays.fiveBytes, ⟨false, 0, false, []⟩⟩

theorem checksum_is_adler32_five : ∃ s', inodeChecksum 0 openFive = .ok 0x50001 s' := by
  have hbits : bits openFive = oneBlock := bits_one _ _
  have hx : Holds openFive (openFive.itable 0) :=
    ⟨by decide +kernel, by decide, by rw [hbits]; decide, by decide +kernel⟩
  have hok : FsOk All openFive :=
    (Arrays.image_fiveDisk.boot fun _ _ => trivial).inv.ok.setSlot 0 _
  obtain ⟨s', hrun, -⟩ := checksum_is_adler32.2.2.2 openFive 0 hok hx (by decide) (by decide)
    (by decide) (by decide +kernel)
  have hsum : adler32Update 1 (content openFive (openFive.itable 0).din) = 0x50001 := by
    decide +kernel
  exact ⟨s', hrun.trans (by rw [hsum])⟩

end HaiOS
