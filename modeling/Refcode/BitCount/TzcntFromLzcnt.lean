import Refcode.BitCount.Tzcnt

/-!
# Trailing zeros from leading zeros

Visual C++ and ARM have no count of trailing zeros, so `tzcnt.c` subtracts a count of
leading zeros from the highest position.  That is the position of the highest set bit;
it is the one asked for if the lowest bit has been isolated first, or is the only one.

* `tzcntMsvc_eq_iff` — `tzcnt32_msvc_x86` isolates it and is right everywhere,
  `tzcnt64_msvc_x64` does not and is right on zero and the powers of two.
* `tzcntGccArm_eq_iff` — neither function for ARM does.
-/

namespace Refcode.BitCount

open Refcode.Lib

variable {w : ℕ} {p : Platform}

/-- `__lzcnt` and `__lzcnt64` count exactly. -/
structure ExactLzcnt (p : Platform) : Prop where
  lzcnt : ∀ x, p.lzcntIntrinsic x = x.clz
  lzcnt64 : ∀ x, p.lzcnt64Intrinsic x = x.clz

/-- So does `clz`, for both of its operand sizes. -/
structure ExactClz (p : Platform) : Prop where
  clz32 : ∀ x, p.clzInstr32 x = x.clz
  clz64 : ∀ x, p.clzInstr64 x = x.clz

/-! ## What the functions compute -/

theorem tzcnt32MsvcX86_toNat (h : ExactLzcnt p) {x : BitVec 32} (hx : x ≠ 0#32) :
    (tzcnt32MsvcX86 p x).toNat = 31 - (x &&& -x).clz.toNat := by
  have hne : x &&& -x ≠ 0#32 := by
    rw [(lowestBit_ctz hx).isolate]
    exact (twoPow_lowestBit (ctz_lt hx)).ne_zero
  have hlt := clz_lt hne
  rw [tzcnt32MsvcX86, if_neg hx, h.lzcnt]
  exact toNat_literal_sub (by norm_num) (by omega)

theorem tzcnt64MsvcX64_toNat (h : ExactLzcnt p) {x : BitVec 64} (hx : x ≠ 0#64) :
    (tzcnt64MsvcX64 p x).toNat = 63 - x.clz.toNat := by
  have hlt := clz_lt hx
  have hnarrow : (x.clz.setWidth 32).toNat = x.clz.toNat :=
    toNat_setWidth_of_le hlt.le (by norm_num)
  rw [tzcnt64MsvcX64, if_neg hx, h.lzcnt64, ← hnarrow]
  exact toNat_literal_sub (by norm_num) (by omega)

theorem tzcnt32GccArm_toNat (h : ExactClz p) {x : BitVec 32} (hx : x ≠ 0#32) :
    (tzcnt32GccArm p x).toNat = 31 - x.clz.toNat := by
  have hlt := clz_lt hx
  rw [tzcnt32GccArm, if_neg hx, h.clz32]
  exact toNat_literal_sub (by norm_num) (by omega)

theorem tzcnt64GccArm_toNat (h : ExactClz p) {x : BitVec 64} (hx : x ≠ 0#64) :
    (tzcnt64GccArm p x).toNat = 63 - x.clz.toNat := by
  have hlt := clz_lt hx
  rw [tzcnt64GccArm, if_neg hx, h.clz64]
  exact toNat_sub_narrow (a := 63#32) (by norm_num)
    (by rw [show (63#32).toNat = 63 from rfl]; omega)

/-! ## When they are right -/

/-- A function that takes the highest position for the lowest one agrees with one that
counts trailing zeros on zero and the powers of two. -/
theorem eq_iff_of_highest (f g : BitVec w → BitVec 32) (hzero : f 0#w = g 0#w)
    (hf : ∀ x, x ≠ 0#w → (f x).toNat = w - 1 - x.clz.toNat)
    (hg : ∀ x, (g x).toNat = x.ctz.toNat) (x : BitVec w) :
    f x = g x ↔ x = 0#w ∨ ∃ k < w, x = BitVec.twoPow w k := by
  by_cases hx : x = 0#w
  · simp [hx, hzero]
  · rw [← BitVec.toNat_inj, hf x hx, hg, highest_eq_ctz_iff hx]
    simp [hx]

/-- **Visual C++.**  The 32-bit function isolates the lowest bit; the 64-bit one takes
the highest bit for it. -/
theorem tzcntMsvc_eq_iff (h : ExactLzcnt p) :
    (∀ x, tzcnt32MsvcX86 p x = tzcnt32Generic x) ∧
      ∀ x, tzcnt64MsvcX64 p x = tzcnt64Generic x ↔
        x = 0#64 ∨ ∃ k < 64, x = BitVec.twoPow 64 k := by
  constructor
  · intro x
    apply BitVec.eq_of_toNat_eq
    rw [tzcnt32Generic_toNat]
    by_cases hx : x = 0#32
    · rw [hx, ctz_zero]
      rfl
    · rw [tzcnt32MsvcX86_toNat h hx]
      exact clz_isolate hx
  · apply eq_iff_of_highest (tzcnt64MsvcX64 p) tzcnt64Generic rfl
    · intro x hx
      exact tzcnt64MsvcX64_toNat h hx
    · exact tzcnt64Generic_toNat

theorem tzcntMsvc_eq_iff_exact :
    tzcnt32MsvcX86 (.exact 0) 12 = tzcnt32Generic 12 ∧
      tzcnt64MsvcX64 (.exact 0) 8 = tzcnt64Generic 8 := by
  obtain ⟨h32, h64⟩ := tzcntMsvc_eq_iff (p := .exact 0) ⟨fun _ => rfl, fun _ => rfl⟩
  exact ⟨h32 12, (h64 8).mpr (.inr ⟨3, by decide, by decide⟩)⟩

/-- The lowest bit of `3` is at 0, its highest one at 1. -/
theorem tzcnt64MsvcX64_three :
    ExactLzcnt (.exact 0) ∧ tzcnt64MsvcX64 (.exact 0) 3 ≠ tzcnt64Generic 3 := by
  refine ⟨⟨fun _ => rfl, fun _ => rfl⟩, ?_⟩
  decide

/-- **ARM.**  Both functions take the highest bit for the lowest one. -/
theorem tzcntGccArm_eq_iff (h : ExactClz p) :
    (∀ x, tzcnt32GccArm p x = tzcnt32Generic x ↔
        x = 0#32 ∨ ∃ k < 32, x = BitVec.twoPow 32 k) ∧
      ∀ x, tzcnt64GccArm p x = tzcnt64Generic x ↔
        x = 0#64 ∨ ∃ k < 64, x = BitVec.twoPow 64 k := by
  constructor
  · apply eq_iff_of_highest (tzcnt32GccArm p) tzcnt32Generic rfl
    · intro x hx
      exact tzcnt32GccArm_toNat h hx
    · exact tzcnt32Generic_toNat
  · apply eq_iff_of_highest (tzcnt64GccArm p) tzcnt64Generic rfl
    · intro x hx
      exact tzcnt64GccArm_toNat h hx
    · exact tzcnt64Generic_toNat

theorem tzcntGccArm_eq_iff_exact :
    tzcnt32GccArm (.exact 0) 8 = tzcnt32Generic 8 ∧
      tzcnt64GccArm (.exact 0) 8 = tzcnt64Generic 8 := by
  obtain ⟨h32, h64⟩ := tzcntGccArm_eq_iff (p := .exact 0) ⟨fun _ => rfl, fun _ => rfl⟩
  constructor
  · exact (h32 8).mpr (.inr ⟨3, by decide, by decide⟩)
  · exact (h64 8).mpr (.inr ⟨3, by decide, by decide⟩)

theorem tzcntGccArm_three :
    ExactClz (.exact 0) ∧ tzcnt32GccArm (.exact 0) 3 ≠ tzcnt32Generic 3 ∧
      tzcnt64GccArm (.exact 0) 3 ≠ tzcnt64Generic 3 := by
  refine ⟨⟨fun _ => rfl, fun _ => rfl⟩, ?_, ?_⟩
  · decide
  · decide

end Refcode.BitCount
