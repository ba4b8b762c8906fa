import Refcode.BitCount.Build
import Refcode.Lib.BitScan
import Refcode.Lib.Word

/-!
# Counting leading zeros

`lzcnt.c`, built like `tzcnt.c`.  The generic functions read a table of the leading
zeros of four bits, each count one too large so that zero can stand for none set.

* `clzTable4_toNat` — what the table says of the top four bits.
* `lzcnt32Generic_toNat`, `lzcnt64Generic_toNat` — the generic functions count the
  leading zeros.
-/

namespace Refcode.BitCount

open Refcode.Lib

variable {w k : ℕ} {x x₀ mask : BitVec w}

/-! ## Back ends -/

/-- `clz_table_4`. -/
def clzTable4 (i : Fin 16) : BitVec 32 :=
  #v[0, 4, 3, 3, 2, 2, 2, 2, 1, 1, 1, 1, 1, 1, 1, 1].get i

theorem topBits_lt (hw : 4 ≤ w) (x : BitVec w) : (x >>> (w - 4)).toNat < 16 := by
  rw [BitVec.toNat_ushiftRight, Nat.shiftRight_eq_div_pow]
  apply Nat.div_lt_of_lt_mul
  calc x.toNat < 2 ^ w := x.isLt
    _ = 2 ^ (w - 4) * 16 := by rw [show 16 = 2 ^ 4 from rfl, ← Nat.pow_add, Nat.sub_add_cancel hw]

/-- `x >> (sizeof(x)*8 - 4)`, the index into the table. -/
def topBits (hw : 4 ≤ w) (x : BitVec w) : Fin 16 := ⟨(x >>> (w - 4)).toNat, topBits_lt hw x⟩

/-- `if ((x & mask) == 0) { n = k; x <<= k; }`, on `x` and `n`. -/
def skipHighFirst (k : ℕ) (mask : BitVec w) (s : BitVec w × BitVec 32) : BitVec w × BitVec 32 :=
  if s.1 &&& mask = 0#w then (s.1 <<< k, BitVec.ofNat 32 k) else s

/-- `if ((x & mask) == 0) { n += k; x <<= k; }`. -/
def skipHigh (k : ℕ) (mask : BitVec w) (s : BitVec w × BitVec 32) : BitVec w × BitVec 32 :=
  if s.1 &&& mask = 0#w then (s.1 <<< k, s.2 + BitVec.ofNat 32 k) else s

def lzcnt32Generic (x : BitVec 32) : BitVec 32 :=
  if x = 0#32 then 4#32 * 8#32
  else
    let n := clzTable4 (topBits (by decide) x)
    if n = 0#32 then
      let s := skipHighFirst 16 0xFFFF0000#32 (x, n)
      let s := skipHigh 8 0xFF000000#32 s
      let s := skipHigh 4 0xF0000000#32 s
      s.2 + clzTable4 (topBits (by decide) s.1) - 1
    else n - 1

def lzcnt64Generic (x : BitVec 64) : BitVec 32 :=
  if x = 0#64 then 8#32 * 8#32
  else
    let n := clzTable4 (topBits (by decide) x)
    if n = 0#32 then
      let s := skipHighFirst 32 (0xFFFFFFFF#64 <<< 32) (x, n)
      let s := skipHigh 16 (0xFFFF0000#64 <<< 32) s
      let s := skipHigh 8 (0xFF000000#64 <<< 32) s
      let s := skipHigh 4 (0xF0000000#64 <<< 32) s
      s.2 + clzTable4 (topBits (by decide) s.1) - 1
    else n - 1

def lzcnt32MsvcBsr (p : Platform) (x : BitVec 32) : BitVec 32 :=
  if x = 0#32 then 32#32 else 32#32 - p.bitScanReverse x - 1#32

def lzcnt64MsvcBsr (p : Platform) (x : BitVec 64) : BitVec 32 :=
  if x = 0#64 then 64#32 else 64#32 - p.bitScanReverse64 x - 1#32

def lzcnt32GccBuiltin (p : Platform) (x : BitVec 32) : BitVec 32 :=
  if x = 0#32 then 32#32 else p.builtinClz x

def lzcnt64GccBuiltin (p : Platform) (x : BitVec 64) : BitVec 32 :=
  if x = 0#64 then 64#32 else p.builtinClzll x

def lzcnt32MsvcX86 (p : Platform) (x : BitVec 32) : BitVec 32 := p.lzcntIntrinsic x

def lzcnt64MsvcX64 (p : Platform) (x : BitVec 64) : BitVec 32 :=
  (p.lzcnt64Intrinsic x).setWidth 32

def lzcnt32GccX86 (p : Platform) (x : BitVec 32) : BitVec 32 := p.lzcntInstr32 x

def lzcnt64GccX64 (p : Platform) (x : BitVec 64) : BitVec 32 := (p.lzcntInstr64 x).setWidth 32

def lzcnt32GccArm (p : Platform) (x : BitVec 32) : BitVec 32 := p.clzInstr32 x

def lzcnt64GccArm (p : Platform) (x : BitVec 64) : BitVec 32 := (p.clzInstr64 x).setWidth 32

/-! ## The helpers -/

/-- The function of a back end for 32 bits. -/
def lzcnt32By (p : Platform) : BackEnd → BitVec 32 → BitVec 32
  | .generic => lzcnt32Generic
  | .msvcBitScan => lzcnt32MsvcBsr p
  | .gccBuiltin => lzcnt32GccBuiltin p
  | .msvcX86 => lzcnt32MsvcX86 p
  | .gccX86 => lzcnt32GccX86 p
  | .gccArm => lzcnt32GccArm p

/-- The function of a back end for 64 bits. -/
def lzcnt64By (p : Platform) : BackEnd → BitVec 64 → BitVec 32
  | .generic => lzcnt64Generic
  | .msvcBitScan => lzcnt64MsvcBsr p
  | .gccBuiltin => lzcnt64GccBuiltin p
  | .msvcX86 => lzcnt64MsvcX64 p
  | .gccX86 => lzcnt64GccX64 p
  | .gccArm => lzcnt64GccArm p

def lzcnt32Hard (b : Build) (p : Platform) (x : BitVec 32) : Option (BitVec 32) :=
  countHard32 b (lzcnt32By p) x

def lzcnt64Hard (b : Build) (p : Platform) (x : BitVec 32) : Option (BitVec 32) :=
  countHard64 b (lzcnt64By p) x

def lzcnt32Soft (b : Build) (p : Platform) (x : BitVec 32) : BitVec 32 :=
  countSoft32 b .clzll .clzl (lzcnt32By p) x

def lzcnt64Soft (b : Build) (p : Platform) (x : BitVec 32) : BitVec 32 :=
  countSoft64 b .clzll .clzl (lzcnt64By p) x

def lzcnt32 (b : Build) (p : Platform) (x : BitVec 32) : Option (BitVec 32) :=
  count32 b p .clzll .clzl (lzcnt32By p) x

def lzcnt64 (b : Build) (p : Platform) (x : BitVec 32) : Option (BitVec 32) :=
  count64 b p .clzll .clzl (lzcnt64By p) x

/-! ## The table -/

theorem clzTable4_of_eq : ∀ (i : Fin 16) (y : BitVec 4), i.val = y.toNat → y ≠ 0#4 →
    (clzTable4 i).toNat = y.clz.toNat + 1 := by
  decide

/-- The table counts the zeros before the highest bit if that is among the top four. -/
theorem clzTable4_toNat (hw : 4 ≤ w) (hx : x ≠ 0#w) (hlt : x.clz.toNat < 4) :
    (clzTable4 (topBits hw x)).toNat = x.clz.toNat + 1 := by
  have hhigh := highestBit_clz hx
  have htop := (hhigh.drop (n := w - 4) (by omega)).setWidth (v := 4) (by omega)
  have hindex : (topBits hw x).val = ((x >>> (w - 4)).setWidth 4).toNat := by
    rw [BitVec.toNat_setWidth, Nat.mod_eq_of_lt (topBits_lt hw x)]
    rfl
  rw [clzTable4_of_eq _ _ hindex htop.ne_zero, htop.clz]
  omega

/-- Otherwise it has zero. -/
theorem clzTable4_eq_zero (hw : 4 ≤ w) (hle : 4 ≤ x.clz.toNat) :
    clzTable4 (topBits hw x) = 0#32 := by
  have hsmall := (le_clz_iff hw).mp hle
  have hindex : topBits hw x = 0 := by
    apply Fin.ext
    show (x >>> (w - 4)).toNat = 0
    rw [BitVec.toNat_ushiftRight, Nat.shiftRight_eq_div_pow]
    exact Nat.div_eq_of_lt hsmall
  rw [hindex]
  rfl

/-! ## The generic count -/

/-- Between the tests of the generic functions fewer than `k` leading zeros are left,
and `n` has counted the others. -/
structure SkippedHigh (k : ℕ) (x₀ : BitVec w) (s : BitVec w × BitVec 32) : Prop where
  ne_zero : s.1 ≠ 0#w
  lt : s.1.clz.toNat < k
  counted : s.2.toNat + s.1.clz.toNat = x₀.clz.toNat

theorem and_highMask_eq_zero_iff (hk : k ≤ w) (hmask : mask = BitVec.allOnes w <<< (w - k))
    (hx : x ≠ 0#w) : x &&& mask = 0#w ↔ k ≤ x.clz.toNat := by
  have hhigh := highestBit_clz hx
  have hlt := clz_lt hx
  constructor
  · intro hzero
    by_contra hk'
    have hbit : (x &&& mask).getLsbD (w - 1 - x.clz.toNat) = true := by
      rw [BitVec.getLsbD_and, hhigh.set, hmask]
      simp
      omega
    simp [hzero] at hbit
  · intro hle
    apply BitVec.eq_of_getLsbD_eq
    intro i hi
    rw [BitVec.getLsbD_and, hmask, BitVec.getLsbD_zero]
    rcases Nat.lt_or_ge i (w - k) with hik | hik
    · simp [hik]
    · rw [hhigh.above i (by omega), Bool.false_and]

/-- A test for `k` zeros halves what may be left. -/
theorem SkippedHigh.skip {s : BitVec w × BitVec 32} (h : SkippedHigh (2 * k) x₀ s)
    (hx₀ : x₀.clz.toNat < 64) (hk : k ≤ w) (hmask : mask = BitVec.allOnes w <<< (w - k)) :
    SkippedHigh k x₀ (skipHigh k mask s) := by
  obtain ⟨hne, hlt, hcount⟩ := h
  unfold skipHigh
  split
  case isTrue hzero =>
    have hle := (and_highMask_eq_zero_iff hk hmask hne).mp hzero
    have hw := clz_lt hne
    have hshift := (highestBit_clz hne).shift (n := k) (by omega)
    have hclz := hshift.clz
    refine ⟨hshift.ne_zero, ?_, ?_⟩
    · show (s.1 <<< k).clz.toNat < k
      omega
    · rw [hclz, BitVec.toNat_add, BitVec.toNat_ofNat]
      omega
  case isFalse hzero =>
    refine ⟨hne, ?_, hcount⟩
    by_contra hlt'
    exact hzero ((and_highMask_eq_zero_iff hk hmask hne).mpr (Nat.le_of_not_lt hlt'))

/-- The first test sets `n` instead of adding to it, which is still zero. -/
theorem skipHighFirst_eq (k : ℕ) (mask : BitVec w) (x : BitVec w) :
    skipHighFirst k mask (x, 0#32) = skipHigh k mask (x, 0#32) := by
  simp [skipHighFirst, skipHigh]

theorem SkippedHigh.start (hx : x ≠ 0#w) (hk : w ≤ k) : SkippedHigh k x (x, 0#32) :=
  ⟨hx, (clz_lt hx).trans_le hk, by simp⟩

/-- After the last test the table counts the zeros that are left, and one more. -/
theorem SkippedHigh.finish {s : BitVec w × BitVec 32} (h : SkippedHigh 4 x₀ s) (hw : 4 ≤ w)
    (hx₀ : x₀.clz.toNat < 64) :
    (s.2 + clzTable4 (topBits hw s.1)).toNat = x₀.clz.toNat + 1 := by
  obtain ⟨hne, hlt, hcount⟩ := h
  have htable := clzTable4_toNat hw hne hlt
  rw [BitVec.toNat_add_of_lt (by omega)]
  omega

/-- Where the table answers at once, it counts the same. -/
theorem table_toNat (hw : 4 ≤ w) (hx : x ≠ 0#w) (hn : clzTable4 (topBits hw x) ≠ 0#32) :
    (clzTable4 (topBits hw x)).toNat = x.clz.toNat + 1 := by
  apply clzTable4_toNat hw hx
  by_contra hle
  exact hn (clzTable4_eq_zero hw (Nat.le_of_not_lt hle))

/-- `x` and `n` of `lzcnt32_generic` after its tests, at the second look into the table. -/
def lzcnt32Tests (x : BitVec 32) : BitVec 32 × BitVec 32 :=
  let s := skipHighFirst 16 0xFFFF0000#32 (x, clzTable4 (topBits (by decide) x))
  let s := skipHigh 8 0xFF000000#32 s
  skipHigh 4 0xF0000000#32 s

/-- `x` and `n` of `lzcnt64_generic` there. -/
def lzcnt64Tests (x : BitVec 64) : BitVec 64 × BitVec 32 :=
  let s := skipHighFirst 32 (0xFFFFFFFF#64 <<< 32) (x, clzTable4 (topBits (by decide) x))
  let s := skipHigh 16 (0xFFFF0000#64 <<< 32) s
  let s := skipHigh 8 (0xFF000000#64 <<< 32) s
  skipHigh 4 (0xF0000000#64 <<< 32) s

/-- `n` of `lzcnt32_generic` at `return n - 1`. -/
def lzcnt32Biased (x : BitVec 32) : BitVec 32 :=
  let n := clzTable4 (topBits (by decide) x)
  if n = 0#32 then
    (lzcnt32Tests x).2 + clzTable4 (topBits (by decide) (lzcnt32Tests x).1)
  else n

/-- `n` of `lzcnt64_generic` at `return n - 1`. -/
def lzcnt64Biased (x : BitVec 64) : BitVec 32 :=
  let n := clzTable4 (topBits (by decide) x)
  if n = 0#32 then
    (lzcnt64Tests x).2 + clzTable4 (topBits (by decide) (lzcnt64Tests x).1)
  else n

theorem lzcnt32Tests_skipped {x : BitVec 32} (hx : x ≠ 0#32)
    (hn : clzTable4 (topBits (by decide) x) = 0#32) : SkippedHigh 4 x (lzcnt32Tests x) := by
  have hx₀ : x.clz.toNat < 64 := (clz_lt hx).trans (by norm_num)
  rw [lzcnt32Tests, hn, skipHighFirst_eq]
  have h32 : SkippedHigh 32 x (x, 0#32) := SkippedHigh.start hx le_rfl
  have h16 := h32.skip (k := 16) hx₀ (by norm_num) (show 0xFFFF0000#32 = _ from rfl)
  have h8 := h16.skip (k := 8) hx₀ (by norm_num) (show 0xFF000000#32 = _ from rfl)
  exact h8.skip (k := 4) hx₀ (by norm_num) (show 0xF0000000#32 = _ from rfl)

theorem lzcnt64Tests_skipped {x : BitVec 64} (hx : x ≠ 0#64)
    (hn : clzTable4 (topBits (by decide) x) = 0#32) : SkippedHigh 4 x (lzcnt64Tests x) := by
  have hx₀ : x.clz.toNat < 64 := clz_lt hx
  rw [lzcnt64Tests, hn, skipHighFirst_eq]
  have h64 : SkippedHigh 64 x (x, 0#32) := SkippedHigh.start hx le_rfl
  have h32 := h64.skip (k := 32) hx₀ (by norm_num) (show 0xFFFFFFFF#64 <<< 32 = _ from rfl)
  have h16 := h32.skip (k := 16) hx₀ (by norm_num) (show 0xFFFF0000#64 <<< 32 = _ from rfl)
  have h8 := h16.skip (k := 8) hx₀ (by norm_num) (show 0xFF000000#64 <<< 32 = _ from rfl)
  exact h8.skip (k := 4) hx₀ (by norm_num) (show 0xF0000000#64 <<< 32 = _ from rfl)

theorem lzcnt32Biased_toNat {x : BitVec 32} (hx : x ≠ 0#32) :
    (lzcnt32Biased x).toNat = x.clz.toNat + 1 := by
  unfold lzcnt32Biased
  simp only
  split
  case isTrue hn => exact (lzcnt32Tests_skipped hx hn).finish _ ((clz_lt hx).trans (by norm_num))
  case isFalse hn => exact table_toNat _ hx hn

theorem lzcnt64Biased_toNat {x : BitVec 64} (hx : x ≠ 0#64) :
    (lzcnt64Biased x).toNat = x.clz.toNat + 1 := by
  unfold lzcnt64Biased
  simp only
  split
  case isTrue hn => exact (lzcnt64Tests_skipped hx hn).finish _ (clz_lt hx)
  case isFalse hn => exact table_toNat _ hx hn

theorem lzcnt32Generic_of_ne_zero {x : BitVec 32} (hx : x ≠ 0#32) :
    lzcnt32Generic x = lzcnt32Biased x - 1 := by
  unfold lzcnt32Generic lzcnt32Biased
  rw [if_neg hx]
  simp only
  split
  · rfl
  · rfl

theorem lzcnt64Generic_of_ne_zero {x : BitVec 64} (hx : x ≠ 0#64) :
    lzcnt64Generic x = lzcnt64Biased x - 1 := by
  unfold lzcnt64Generic lzcnt64Biased
  rw [if_neg hx]
  simp only
  split
  · rfl
  · rfl

/-- A count that is one too large is not zero. -/
theorem ne_zero_of_biased {n : BitVec 32} {k : ℕ} (h : n.toNat = k + 1) : n ≠ 0#32 := by
  rintro rfl
  simp at h

/-- **The generic 32-bit count.** -/
theorem lzcnt32Generic_toNat (x : BitVec 32) : (lzcnt32Generic x).toNat = x.clz.toNat := by
  by_cases hx : x = 0#32
  · rw [hx, clz_zero]
    rfl
  · have hn := lzcnt32Biased_toNat hx
    rw [lzcnt32Generic_of_ne_zero hx, toNat_sub_one (ne_zero_of_biased hn), hn,
      Nat.add_sub_cancel]

/-- **The generic 64-bit count.** -/
theorem lzcnt64Generic_toNat (x : BitVec 64) : (lzcnt64Generic x).toNat = x.clz.toNat := by
  by_cases hx : x = 0#64
  · rw [hx, clz_zero]
    rfl
  · have hn := lzcnt64Biased_toNat hx
    rw [lzcnt64Generic_of_ne_zero hx, toNat_sub_one (ne_zero_of_biased hn), hn,
      Nat.add_sub_cancel]

end Refcode.BitCount
