import Refcode.BitCount.Build
import Refcode.Lib.BitScan
import Refcode.Lib.Word

/-!
# Counting trailing zeros

`tzcnt.c`: its back ends, the generic ones in full and the others as what they make of
the result of an intrinsic or an instruction, and the helpers that choose among them.

* `tzcnt32Generic_toNat`, `tzcnt64Generic_toNat` — the generic functions count the
  trailing zeros.
-/

namespace Refcode.BitCount

open Refcode.Lib

variable {w k : ℕ} {x x₀ mask : BitVec w}

/-! ## Back ends -/

/-- `if ((x & mask) == 0) { x >>= k; n += k; }`, on `x` and `n`. -/
def skipLow (k : ℕ) (mask : BitVec w) (s : BitVec w × BitVec 32) : BitVec w × BitVec 32 :=
  if s.1 &&& mask = 0#w then (s.1 >>> k, s.2 + BitVec.ofNat 32 k) else s

def tzcnt32Generic (x : BitVec 32) : BitVec 32 :=
  if x &&& 0x1#32 ≠ 0#32 then 0#32
  else if x = 0#32 then 4#32 <<< 3
  else
    let s := skipLow 16 0x0000FFFF#32 (x, 1#32)
    let s := skipLow 8 0x000000FF#32 s
    let s := skipLow 4 0x0000000F#32 s
    let s := skipLow 2 0x00000003#32 s
    s.2 - (s.1 &&& 0x00000001#32)

def tzcnt64Generic (x : BitVec 64) : BitVec 32 :=
  if x &&& 0x1#64 ≠ 0#64 then 0#32
  else if x = 0#64 then 8#32 <<< 3
  else
    let s := skipLow 32 0xFFFFFFFF#64 (x, 1#32)
    let s := skipLow 16 0x0000FFFF#64 s
    let s := skipLow 8 0x000000FF#64 s
    let s := skipLow 4 0x0000000F#64 s
    let s := skipLow 2 0x00000003#64 s
    (s.2.setWidth 64 - (s.1 &&& 0x00000001#64)).setWidth 32

def tzcnt32MsvcBsf (p : Platform) (x : BitVec 32) : BitVec 32 :=
  if x = 0#32 then 32#32 else p.bitScanForward x

def tzcnt64MsvcBsf (p : Platform) (x : BitVec 64) : BitVec 32 :=
  if x = 0#64 then 64#32 else p.bitScanForward64 x

def tzcnt32GccBuiltin (p : Platform) (x : BitVec 32) : BitVec 32 :=
  if x = 0#32 then 32#32 else p.builtinCtzl (x.setWidth p.longBits)

def tzcnt64GccBuiltin (p : Platform) (x : BitVec 64) : BitVec 32 :=
  if x = 0#64 then 64#32 else p.builtinCtzll x

/-- `-(int)x` is taken to wrap at the least `int`. -/
def tzcnt32MsvcX86 (p : Platform) (x : BitVec 32) : BitVec 32 :=
  if x = 0#32 then 4#32 <<< 3 else 31#32 - p.lzcntIntrinsic (x &&& -x)

def tzcnt64MsvcX64 (p : Platform) (x : BitVec 64) : BitVec 32 :=
  if x = 0#64 then 8#32 <<< 3 else 63#32 - (p.lzcnt64Intrinsic x).setWidth 32

def tzcnt32GccX86 (p : Platform) (x : BitVec 32) : BitVec 32 := p.tzcntInstr32 x

def tzcnt64GccX64 (p : Platform) (x : BitVec 64) : BitVec 32 := (p.tzcntInstr64 x).setWidth 32

def tzcnt32GccArm (p : Platform) (x : BitVec 32) : BitVec 32 :=
  if x = 0#32 then 4#32 <<< 3 else 31#32 - p.clzInstr32 x

def tzcnt64GccArm (p : Platform) (x : BitVec 64) : BitVec 32 :=
  if x = 0#64 then 8#32 <<< 3 else (63#64 - p.clzInstr64 x).setWidth 32

/-! ## The helpers -/

/-- The function of a back end for 32 bits. -/
def tzcnt32By (p : Platform) : BackEnd → BitVec 32 → BitVec 32
  | .generic => tzcnt32Generic
  | .msvcBitScan => tzcnt32MsvcBsf p
  | .gccBuiltin => tzcnt32GccBuiltin p
  | .msvcX86 => tzcnt32MsvcX86 p
  | .gccX86 => tzcnt32GccX86 p
  | .gccArm => tzcnt32GccArm p

/-- The function of a back end for 64 bits. -/
def tzcnt64By (p : Platform) : BackEnd → BitVec 64 → BitVec 32
  | .generic => tzcnt64Generic
  | .msvcBitScan => tzcnt64MsvcBsf p
  | .gccBuiltin => tzcnt64GccBuiltin p
  | .msvcX86 => tzcnt64MsvcX64 p
  | .gccX86 => tzcnt64GccX64 p
  | .gccArm => tzcnt64GccArm p

def tzcnt32Hard (b : Build) (p : Platform) (x : BitVec 32) : Option (BitVec 32) :=
  countHard32 b (tzcnt32By p) x

def tzcnt64Hard (b : Build) (p : Platform) (x : BitVec 32) : Option (BitVec 32) :=
  countHard64 b (tzcnt64By p) x

def tzcnt32Soft (b : Build) (p : Platform) (x : BitVec 32) : BitVec 32 :=
  countSoft32 b .ctzll .ctzl (tzcnt32By p) x

def tzcnt64Soft (b : Build) (p : Platform) (x : BitVec 32) : BitVec 32 :=
  countSoft64 b .ctzll .ctzl (tzcnt64By p) x

def tzcnt32 (b : Build) (p : Platform) (x : BitVec 32) : Option (BitVec 32) :=
  count32 b p .ctzll .ctzl (tzcnt32By p) x

def tzcnt64 (b : Build) (p : Platform) (x : BitVec 32) : Option (BitVec 32) :=
  count64 b p .ctzll .ctzl (tzcnt64By p) x

/-! ## The generic count -/

/-- Between the tests of the generic functions fewer than `k` trailing zeros are left,
and `n` has counted the others, and one more. -/
structure SkippedLow (k : ℕ) (x₀ : BitVec w) (s : BitVec w × BitVec 32) : Prop where
  ne_zero : s.1 ≠ 0#w
  lt : s.1.ctz.toNat < k
  counted : s.2.toNat + s.1.ctz.toNat = 1 + x₀.ctz.toNat

theorem and_mask_eq_zero_iff (hmask : mask.toNat = 2 ^ k - 1) (hx : x ≠ 0#w) :
    x &&& mask = 0#w ↔ k ≤ x.ctz.toNat := by
  rw [← BitVec.toNat_inj, BitVec.toNat_and, hmask, Nat.and_two_pow_sub_one_eq_mod,
    BitVec.toNat_ofNat, Nat.zero_mod, ← two_pow_dvd_iff hx, Nat.dvd_iff_mod_eq_zero]

/-- A test for `k` zeros halves what may be left. -/
theorem SkippedLow.skip {s : BitVec w × BitVec 32} (h : SkippedLow (2 * k) x₀ s)
    (hx₀ : x₀.ctz.toNat < 64) (hmask : mask.toNat = 2 ^ k - 1) :
    SkippedLow k x₀ (skipLow k mask s) := by
  obtain ⟨hne, hlt, hcount⟩ := h
  unfold skipLow
  split
  case isTrue hzero =>
    have hk := (and_mask_eq_zero_iff hmask hne).mp hzero
    have hshift := (lowestBit_ctz hne).shift hk
    refine ⟨hshift.ne_zero, ?_, ?_⟩
    · rw [hshift.ctz]
      omega
    · rw [hshift.ctz, BitVec.toNat_add, BitVec.toNat_ofNat]
      omega
  case isFalse hzero =>
    refine ⟨hne, ?_, hcount⟩
    by_contra hk
    exact hzero ((and_mask_eq_zero_iff hmask hne).mpr (Nat.le_of_not_lt hk))

/-- After the last test the bit that is left corrects the count. -/
theorem SkippedLow.correct {s : BitVec w × BitVec 32} (h : SkippedLow 2 x₀ s)
    (hmask : mask.toNat = 2 ^ 1 - 1) :
    (s.1 &&& mask).toNat ≤ s.2.toNat ∧ s.2.toNat - (s.1 &&& mask).toNat = x₀.ctz.toNat := by
  obtain ⟨hne, hlt, hcount⟩ := h
  have hodd := and_mask_eq_zero_iff hmask hne
  have hbit : (s.1 &&& mask).toNat < 2 := by
    rw [BitVec.toNat_and, hmask, Nat.and_two_pow_sub_one_eq_mod]
    exact Nat.mod_lt _ (by norm_num)
  by_cases hzero : s.1 &&& mask = 0#w
  · have hk := hodd.mp hzero
    rw [hzero, BitVec.toNat_ofNat, Nat.zero_mod]
    omega
  · have hne0 := toNat_ne_zero hzero
    have hk : ¬1 ≤ s.1.ctz.toNat := fun h1 => hzero (hodd.mpr h1)
    omega

/-- An odd word ends at once. -/
theorem ctz_of_odd (hmask : mask.toNat = 2 ^ 1 - 1) (hodd : x &&& mask ≠ 0#w) :
    x.ctz.toNat = 0 := by
  have hx : x ≠ 0#w := by
    rintro rfl
    simp at hodd
  by_contra hk
  exact hodd ((and_mask_eq_zero_iff hmask hx).mpr (Nat.one_le_iff_ne_zero.mpr hk))

theorem SkippedLow.start (hx : x ≠ 0#w) (hk : w ≤ k) : SkippedLow k x (x, 1#32) :=
  ⟨hx, (ctz_lt hx).trans_le hk, rfl⟩

/-- `x` and `n` of `tzcnt32_generic` after its tests, at `n -= x & 0x00000001`. -/
def tzcnt32Tests (x : BitVec 32) : BitVec 32 × BitVec 32 :=
  let s := skipLow 16 0x0000FFFF#32 (x, 1#32)
  let s := skipLow 8 0x000000FF#32 s
  let s := skipLow 4 0x0000000F#32 s
  skipLow 2 0x00000003#32 s

/-- `x` and `n` of `tzcnt64_generic` there. -/
def tzcnt64Tests (x : BitVec 64) : BitVec 64 × BitVec 32 :=
  let s := skipLow 32 0xFFFFFFFF#64 (x, 1#32)
  let s := skipLow 16 0x0000FFFF#64 s
  let s := skipLow 8 0x000000FF#64 s
  let s := skipLow 4 0x0000000F#64 s
  skipLow 2 0x00000003#64 s

theorem tzcnt32Tests_skipped {x : BitVec 32} (hx : x ≠ 0#32) :
    SkippedLow 2 x (tzcnt32Tests x) := by
  have hx₀ : x.ctz.toNat < 64 := (ctz_lt hx).trans (by norm_num)
  have h32 : SkippedLow 32 x (x, 1#32) := SkippedLow.start hx le_rfl
  have h16 := SkippedLow.skip (k := 16) h32 hx₀ (show (0x0000FFFF#32).toNat = _ from rfl)
  have h8 := SkippedLow.skip (k := 8) h16 hx₀ (show (0x000000FF#32).toNat = _ from rfl)
  have h4 := SkippedLow.skip (k := 4) h8 hx₀ (show (0x0000000F#32).toNat = _ from rfl)
  exact SkippedLow.skip (k := 2) h4 hx₀ (show (0x00000003#32).toNat = _ from rfl)

theorem tzcnt64Tests_skipped {x : BitVec 64} (hx : x ≠ 0#64) :
    SkippedLow 2 x (tzcnt64Tests x) := by
  have hx₀ : x.ctz.toNat < 64 := ctz_lt hx
  have h64 : SkippedLow 64 x (x, 1#32) := SkippedLow.start hx le_rfl
  have h32 := SkippedLow.skip (k := 32) h64 hx₀ (show (0xFFFFFFFF#64).toNat = _ from rfl)
  have h16 := SkippedLow.skip (k := 16) h32 hx₀ (show (0x0000FFFF#64).toNat = _ from rfl)
  have h8 := SkippedLow.skip (k := 8) h16 hx₀ (show (0x000000FF#64).toNat = _ from rfl)
  have h4 := SkippedLow.skip (k := 4) h8 hx₀ (show (0x0000000F#64).toNat = _ from rfl)
  exact SkippedLow.skip (k := 2) h4 hx₀ (show (0x00000003#64).toNat = _ from rfl)

theorem tzcnt32Generic_of_even {x : BitVec 32} (heven : x &&& 0x1#32 = 0#32) (hx : x ≠ 0#32) :
    tzcnt32Generic x = (tzcnt32Tests x).2 - ((tzcnt32Tests x).1 &&& 0x00000001#32) := by
  rw [tzcnt32Generic, if_neg (not_not.mpr heven), if_neg hx]
  rfl

theorem tzcnt64Generic_of_even {x : BitVec 64} (heven : x &&& 0x1#64 = 0#64) (hx : x ≠ 0#64) :
    tzcnt64Generic x =
      ((tzcnt64Tests x).2.setWidth 64 - ((tzcnt64Tests x).1 &&& 0x00000001#64)).setWidth 32 := by
  rw [tzcnt64Generic, if_neg (not_not.mpr heven), if_neg hx]
  rfl

/-- **The generic 32-bit count.** -/
theorem tzcnt32Generic_toNat (x : BitVec 32) : (tzcnt32Generic x).toNat = x.ctz.toNat := by
  by_cases heven : x &&& 0x1#32 = 0#32
  · by_cases hx : x = 0#32
    · rw [hx, ctz_zero]
      rfl
    · obtain ⟨hle, hsub⟩ := (tzcnt32Tests_skipped hx).correct
        (show (0x00000001#32).toNat = _ from rfl)
      rw [tzcnt32Generic_of_even heven hx, ← hsub]
      exact BitVec.toNat_sub_of_le hle
  · rw [tzcnt32Generic, if_pos heven, ctz_of_odd rfl heven]
    rfl

/-- **The generic 64-bit count.** -/
theorem tzcnt64Generic_toNat (x : BitVec 64) : (tzcnt64Generic x).toNat = x.ctz.toNat := by
  by_cases heven : x &&& 0x1#64 = 0#64
  · by_cases hx : x = 0#64
    · rw [hx, ctz_zero]
      rfl
    · obtain ⟨hle, hsub⟩ := (tzcnt64Tests_skipped hx).correct
        (show (0x00000001#64).toNat = _ from rfl)
      rw [tzcnt64Generic_of_even heven hx, ← hsub]
      exact toNat_sub_narrow (by norm_num) hle
  · rw [tzcnt64Generic, if_pos heven, ctz_of_odd rfl heven]
    rfl

end Refcode.BitCount
