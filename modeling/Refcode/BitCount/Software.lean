import Refcode.BitCount.Lzcnt
import Refcode.BitCount.Tzcnt

/-!
# The software back ends

Without an instruction to count with, both files count in plain C, by a bit scan of
Visual C++ or by a built-in of GCC and Clang.  The scans and the built-ins promise nothing
of zero, which their callers answer themselves.

* `lzcntSoftware_correct` — the generic functions of `lzcnt.c` find the highest set bit,
  and the others agree with them.
* `tzcntSoftware_correct` — the generic functions of `tzcnt.c` find the greatest power of
  two that divides, and the others agree with them.
-/

namespace Refcode.BitCount

open Refcode.Lib

variable {w : ℕ} {p : Platform}

/-- Functions that give the width for zero and the same count elsewhere agree. -/
theorem eq_of_count {f g : BitVec w → BitVec 32} {count : BitVec w → ℕ} (hwidth : count 0#w = w)
    (hg : ∀ x, (g x).toNat = count x) (hzero : (f 0#w).toNat = w)
    (hf : ∀ x, x ≠ 0#w → (f x).toNat = count x) (x : BitVec w) : f x = g x := by
  apply BitVec.eq_of_toNat_eq
  rw [hg]
  by_cases hx : x = 0#w
  · rw [hx, hzero, hwidth]
  · exact hf x hx

/-! ## Leading zeros -/

/-- The bit scans find the highest set bit and the built-ins count exactly, of words
that have a set bit. -/
structure ExactReverse (p : Platform) : Prop where
  bsr : ∀ x, x ≠ 0#32 → HighestBit x (p.bitScanReverse x).toNat
  bsr64 : ∀ x, x ≠ 0#64 → HighestBit x (p.bitScanReverse64 x).toNat
  clz : ∀ x, x ≠ 0#32 → (p.builtinClz x).toNat = x.clz.toNat
  clzll : ∀ x, x ≠ 0#64 → (p.builtinClzll x).toNat = x.clz.toNat

/-- The position of the highest set bit, counted from the top, and the width where there
is none. -/
structure CountsLeading (count : BitVec w → BitVec 32) : Prop where
  zero : (count 0#w).toNat = w
  ne_zero : ∀ x, x ≠ 0#w → ∃ k, HighestBit x k ∧ (count x).toNat = w - 1 - k

theorem CountsLeading.of_clz {count : BitVec w → BitVec 32}
    (h : ∀ x, (count x).toNat = x.clz.toNat) : CountsLeading count := by
  constructor
  · rw [h, clz_zero]
  · intro x hx
    have hhigh := highestBit_clz hx
    exact ⟨_, hhigh, (h x).trans hhigh.clz⟩

/-- `32 - n - 1` and `64 - n - 1`, where `n` is the position of the highest set bit. -/
theorem sub_highest_sub_one {x : BitVec w} {n : BitVec 32} (h : HighestBit x n.toNat)
    (hw : w < 2 ^ 32) : (BitVec.ofNat 32 w - n - 1#32).toNat = x.clz.toNat := by
  have hlt := h.lt
  have hsub : (BitVec.ofNat 32 w - n).toNat = w - n.toNat := toNat_literal_sub hw hlt.le
  have hne : BitVec.ofNat 32 w - n ≠ 0#32 :=
    ne_zero_of_biased (k := w - n.toNat - 1) (by omega)
  calc (BitVec.ofNat 32 w - n - 1#32).toNat = w - n.toNat - 1 := by
        rw [← hsub]; exact toNat_sub_one hne
    _ = x.clz.toNat := by rw [h.clz]; omega

theorem lzcnt32MsvcBsr_eq (h : ExactReverse p) (x : BitVec 32) :
    lzcnt32MsvcBsr p x = lzcnt32Generic x := by
  apply eq_of_count clz_zero lzcnt32Generic_toNat rfl
  intro x hx
  rw [lzcnt32MsvcBsr, if_neg hx]
  exact sub_highest_sub_one (h.bsr x hx) (by norm_num)

theorem lzcnt64MsvcBsr_eq (h : ExactReverse p) (x : BitVec 64) :
    lzcnt64MsvcBsr p x = lzcnt64Generic x := by
  apply eq_of_count clz_zero lzcnt64Generic_toNat rfl
  intro x hx
  rw [lzcnt64MsvcBsr, if_neg hx]
  exact sub_highest_sub_one (h.bsr64 x hx) (by norm_num)

theorem lzcnt32GccBuiltin_eq (h : ExactReverse p) (x : BitVec 32) :
    lzcnt32GccBuiltin p x = lzcnt32Generic x := by
  apply eq_of_count clz_zero lzcnt32Generic_toNat rfl
  intro x hx
  rw [lzcnt32GccBuiltin, if_neg hx, h.clz x hx]

theorem lzcnt64GccBuiltin_eq (h : ExactReverse p) (x : BitVec 64) :
    lzcnt64GccBuiltin p x = lzcnt64Generic x := by
  apply eq_of_count clz_zero lzcnt64Generic_toNat rfl
  intro x hx
  rw [lzcnt64GccBuiltin, if_neg hx, h.clzll x hx]

/-- **Leading zeros in software.**  The generic functions count them, look into the table
below 16 only and never subtract from zero; the bit scans and the built-ins give the same
count. -/
theorem lzcntSoftware_correct (h : ExactReverse p) :
    (CountsLeading lzcnt32Generic ∧ CountsLeading lzcnt64Generic) ∧
      (∀ x : BitVec 32,
        (x >>> (32 - 4)).toNat < 16 ∧ ((lzcnt32Tests x).1 >>> (32 - 4)).toNat < 16 ∧
          (x ≠ 0#32 → lzcnt32Generic x = lzcnt32Biased x - 1 ∧ lzcnt32Biased x ≠ 0)) ∧
      (∀ x : BitVec 64,
        (x >>> (64 - 4)).toNat < 16 ∧ ((lzcnt64Tests x).1 >>> (64 - 4)).toNat < 16 ∧
          (x ≠ 0#64 → lzcnt64Generic x = lzcnt64Biased x - 1 ∧ lzcnt64Biased x ≠ 0)) ∧
      (∀ x, lzcnt32MsvcBsr p x = lzcnt32Generic x ∧ lzcnt32GccBuiltin p x = lzcnt32Generic x) ∧
      ∀ x, lzcnt64MsvcBsr p x = lzcnt64Generic x ∧ lzcnt64GccBuiltin p x = lzcnt64Generic x := by
  refine ⟨⟨.of_clz lzcnt32Generic_toNat, .of_clz lzcnt64Generic_toNat⟩, ?_, ?_, ?_, ?_⟩
  · intro x
    refine ⟨topBits_lt (by norm_num) x, topBits_lt (by norm_num) _, fun hx => ?_⟩
    exact ⟨lzcnt32Generic_of_ne_zero hx, ne_zero_of_biased (lzcnt32Biased_toNat hx)⟩
  · intro x
    refine ⟨topBits_lt (by norm_num) x, topBits_lt (by norm_num) _, fun hx => ?_⟩
    exact ⟨lzcnt64Generic_of_ne_zero hx, ne_zero_of_biased (lzcnt64Biased_toNat hx)⟩
  · intro x
    exact ⟨lzcnt32MsvcBsr_eq h x, lzcnt32GccBuiltin_eq h x⟩
  · intro x
    exact ⟨lzcnt64MsvcBsr_eq h x, lzcnt64GccBuiltin_eq h x⟩

theorem exactReverse_exact : ExactReverse (.exact 0) := by
  constructor
  · intro x hx
    have hlt := clz_lt hx
    have hpos : (31 - x.clz).toNat = 31 - x.clz.toNat :=
      toNat_literal_sub (by norm_num) (Nat.le_of_lt_succ hlt)
    show HighestBit x (31 - x.clz).toNat
    rw [hpos]
    exact highestBit_clz hx
  · intro x hx
    have hlt := clz_lt hx
    have hpos : (63 - x.clz).toNat = 63 - x.clz.toNat :=
      toNat_literal_sub (by norm_num) (Nat.le_of_lt_succ hlt)
    show HighestBit x ((63 - x.clz).setWidth 32).toNat
    rw [toNat_setWidth_of_le (n := 63) (by omega) (by norm_num), hpos]
    exact highestBit_clz hx
  · intro x hx
    rfl
  · intro x hx
    exact toNat_setWidth_of_le (clz_lt hx).le (by norm_num)

theorem lzcntSoftware_correct_exact :
    lzcnt32MsvcBsr (.exact 0) 0x00FF1234 = lzcnt32Generic 0x00FF1234 ∧
      lzcnt64GccBuiltin (.exact 0) 0x00FF1234 = lzcnt64Generic 0x00FF1234 := by
  obtain ⟨-, -, -, h32, h64⟩ := lzcntSoftware_correct exactReverse_exact
  exact ⟨(h32 0x00FF1234).1, (h64 0x00FF1234).2⟩

/-! ## Trailing zeros -/

/-- The bit scans find the lowest set bit and the built-ins count exactly, of words
that have a set bit. -/
structure ExactForward (p : Platform) : Prop where
  bsf : ∀ x, x ≠ 0#32 → LowestBit x (p.bitScanForward x).toNat
  bsf64 : ∀ x, x ≠ 0#64 → LowestBit x (p.bitScanForward64 x).toNat
  ctzl : ∀ x, x ≠ 0#p.longBits → (p.builtinCtzl x).toNat = x.ctz.toNat
  ctzll : ∀ x, x ≠ 0#64 → (p.builtinCtzll x).toNat = x.ctz.toNat

/-- The greatest exponent of a power of two that divides the word, and the width for
zero. -/
structure CountsTrailing (count : BitVec w → BitVec 32) : Prop where
  zero : (count 0#w).toNat = w
  ne_zero : ∀ x, x ≠ 0#w → IsGreatest {k | 2 ^ k ∣ x.toNat} (count x).toNat

theorem CountsTrailing.of_ctz {count : BitVec w → BitVec 32}
    (h : ∀ x, (count x).toNat = x.ctz.toNat) : CountsTrailing count := by
  constructor
  · rw [h, ctz_zero]
  · intro x hx
    rw [h]
    constructor
    · exact (two_pow_dvd_iff hx).mpr le_rfl
    · intro k hk
      exact (two_pow_dvd_iff hx).mp hk

theorem tzcnt32MsvcBsf_eq (h : ∀ x, x ≠ 0#32 → LowestBit x (p.bitScanForward x).toNat)
    (x : BitVec 32) : tzcnt32MsvcBsf p x = tzcnt32Generic x := by
  apply eq_of_count ctz_zero tzcnt32Generic_toNat rfl
  intro x hx
  rw [tzcnt32MsvcBsf, if_neg hx, (h x hx).ctz]

theorem tzcnt64MsvcBsf_eq (h : ExactForward p) (x : BitVec 64) :
    tzcnt64MsvcBsf p x = tzcnt64Generic x := by
  apply eq_of_count ctz_zero tzcnt64Generic_toNat rfl
  intro x hx
  rw [tzcnt64MsvcBsf, if_neg hx, (h.bsf64 x hx).ctz]

/-- The built-in sees the argument in an `unsigned long`, with the same lowest bit. -/
theorem tzcnt32GccBuiltin_eq
    (h : ∀ x, x ≠ 0#p.longBits → (p.builtinCtzl x).toNat = x.ctz.toNat) (x : BitVec 32) :
    tzcnt32GccBuiltin p x = tzcnt32Generic x := by
  apply eq_of_count ctz_zero tzcnt32Generic_toNat rfl
  intro x hx
  have hwide := (lowestBit_ctz hx).setWidth ((ctz_lt hx).trans_le p.longBits_le)
  rw [tzcnt32GccBuiltin, if_neg hx, h _ hwide.ne_zero, hwide.ctz]

theorem tzcnt64GccBuiltin_eq (h : ExactForward p) (x : BitVec 64) :
    tzcnt64GccBuiltin p x = tzcnt64Generic x := by
  apply eq_of_count ctz_zero tzcnt64Generic_toNat rfl
  intro x hx
  rw [tzcnt64GccBuiltin, if_neg hx, h.ctzll x hx]

/-- **Trailing zeros in software.**  The generic functions count them, and the bit that
they take off at the end is never more than `n`; the bit scans and the built-ins give the
same count. -/
theorem tzcntSoftware_correct (h : ExactForward p) :
    (CountsTrailing tzcnt32Generic ∧ CountsTrailing tzcnt64Generic) ∧
      (∀ x : BitVec 32, x &&& 0x1#32 = 0#32 → x ≠ 0#32 →
        tzcnt32Generic x = (tzcnt32Tests x).2 - ((tzcnt32Tests x).1 &&& 0x00000001#32) ∧
          ((tzcnt32Tests x).1 &&& 0x00000001#32).toNat ≤ (tzcnt32Tests x).2.toNat) ∧
      (∀ x : BitVec 64, x &&& 0x1#64 = 0#64 → x ≠ 0#64 →
        tzcnt64Generic x =
            ((tzcnt64Tests x).2.setWidth 64 -
              ((tzcnt64Tests x).1 &&& 0x00000001#64)).setWidth 32 ∧
          ((tzcnt64Tests x).1 &&& 0x00000001#64).toNat ≤ (tzcnt64Tests x).2.toNat) ∧
      (∀ x, tzcnt32MsvcBsf p x = tzcnt32Generic x ∧ tzcnt32GccBuiltin p x = tzcnt32Generic x) ∧
      ∀ x, tzcnt64MsvcBsf p x = tzcnt64Generic x ∧ tzcnt64GccBuiltin p x = tzcnt64Generic x := by
  refine ⟨⟨.of_ctz tzcnt32Generic_toNat, .of_ctz tzcnt64Generic_toNat⟩, ?_, ?_, ?_, ?_⟩
  · intro x heven hx
    exact ⟨tzcnt32Generic_of_even heven hx, ((tzcnt32Tests_skipped hx).correct rfl).1⟩
  · intro x heven hx
    exact ⟨tzcnt64Generic_of_even heven hx, ((tzcnt64Tests_skipped hx).correct rfl).1⟩
  · intro x
    exact ⟨tzcnt32MsvcBsf_eq h.bsf x, tzcnt32GccBuiltin_eq h.ctzl x⟩
  · intro x
    exact ⟨tzcnt64MsvcBsf_eq h x, tzcnt64GccBuiltin_eq h x⟩

theorem exactForward_exact : ExactForward (.exact 0) := by
  constructor
  · intro x hx
    exact lowestBit_ctz hx
  · intro x hx
    show LowestBit x (x.ctz.setWidth 32).toNat
    rw [toNat_setWidth_of_le (ctz_lt hx).le (by norm_num)]
    exact lowestBit_ctz hx
  · intro x hx
    exact toNat_setWidth_of_le (v := 32) (ctz_lt hx).le (by decide)
  · intro x hx
    exact toNat_setWidth_of_le (ctz_lt hx).le (by norm_num)

theorem tzcntSoftware_correct_exact :
    tzcnt32GccBuiltin (.exact 0) 0x12345600 = tzcnt32Generic 0x12345600 ∧
      tzcnt64MsvcBsf (.exact 0) 0x12345600 = tzcnt64Generic 0x12345600 := by
  obtain ⟨-, -, -, h32, h64⟩ := tzcntSoftware_correct exactForward_exact
  exact ⟨(h32 0x12345600).2, (h64 0x12345600).1⟩

end Refcode.BitCount
