import Refcode.BitCount.Lzcnt
import Refcode.BitCount.Tzcnt

/-!
# The 64-bit entry points

`tzcnt64` and `lzcnt64` and their `_hard` and `_soft` helpers declare their parameter
as `unsigned int`.  What reaches a back end is the low half of the argument, widened
again; the trailing zeros are those of the argument if the low half has a set bit, the
leading zeros only if the high half has none.

* `tzcnt64_eq_iff`, `lzcnt64_eq_iff` — when the answer is the generic one, for every back end
  that counts right what it is given.
-/

namespace Refcode.BitCount

open Refcode.Lib

variable {b : Build} {p : Platform} {e : BackEnd} {x : BitVec 64}

/-- GCC for x86-64 on Linux. -/
def Build.gccX64 : Build where
  mscVer := none
  gnuc := some (13, 2)
  clang := false
  hasBuiltin := none
  i386 := false
  x86_64 := true
  arm := false
  armArch := none
  mArm := none
  armFeatureClz := false
  lp64 := true

/-- A 64-bit argument after the conversion to `unsigned int` and back. -/
def throughInt (x : BitVec 64) : BitVec 64 := (x.setWidth 32).setWidth 64

/-! ## Trailing zeros -/

/-- A back end that counts the low half right counts the argument right as long as the
low half decides. -/
theorem tzcnt64By_eq_iff
    (hexact : (tzcnt64By p e (throughInt x)).toNat = (throughInt x).ctz.toNat) :
    tzcnt64By p e (throughInt x) = tzcnt64Generic x ↔ x.setWidth 32 ≠ 0#32 ∨ x = 0#64 := by
  rw [← BitVec.toNat_inj, hexact, tzcnt64Generic_toNat]
  exact ctz_narrow_iff (by norm_num)

/-- **`tzcnt64` counts the low half.**  For every build, processor and argument the
three functions return the generic count if and only if the low half has a set bit or
the argument is zero. -/
theorem tzcnt64_eq_iff (b : Build) (p : Platform) (e : BackEnd) (x : BitVec 64)
    (hexact : (tzcnt64By p e (throughInt x)).toNat = (throughInt x).ctz.toNat) :
    (tzcnt64Generic x).toNat = x.ctz.toNat ∧
      (b.hardBackEnd64 = some e →
        (tzcnt64Hard b p (x.setWidth 32) = some (tzcnt64Generic x) ↔
          x.setWidth 32 ≠ 0#32 ∨ x = 0#64)) ∧
      (b.softBackEnd64 .ctzll .ctzl = e →
        (tzcnt64Soft b p (x.setWidth 32) = tzcnt64Generic x ↔
          x.setWidth 32 ≠ 0#32 ∨ x = 0#64)) ∧
      (backEnd64 b p .ctzll .ctzl = some e →
        (tzcnt64 b p (x.setWidth 32) = some (tzcnt64Generic x) ↔
          x.setWidth 32 ≠ 0#32 ∨ x = 0#64)) :=
  ⟨tzcnt64Generic_toNat x, helpers64_iff (tzcnt64By_eq_iff hexact)⟩

theorem tzcnt64_eq_iff_odd :
    tzcnt64 .gccX64 (.exact (1 <<< 5)) ((0x100000001#64).setWidth 32) =
      some (tzcnt64Generic 0x100000001#64) := by
  obtain ⟨-, -, -, hentry⟩ := tzcnt64_eq_iff .gccX64 (.exact (1 <<< 5)) .gccX86 0x100000001#64
    (by decide +kernel)
  exact (hentry rfl).mpr (.inl (by decide))

/-- The only set bit of `2^32` is lost on the way. -/
theorem tzcnt64_two_pow_32 :
    (∀ e, (tzcnt64By (.exact (1 <<< 5)) e (throughInt 0x100000000#64)).toNat =
        (throughInt 0x100000000#64).ctz.toNat) ∧
      tzcnt64Hard .gccX64 (.exact (1 <<< 5)) ((0x100000000#64).setWidth 32) ≠
        some (tzcnt64Generic 0x100000000#64) ∧
      tzcnt64Soft .gccX64 (.exact (1 <<< 5)) ((0x100000000#64).setWidth 32) ≠
        tzcnt64Generic 0x100000000#64 ∧
      tzcnt64 .gccX64 (.exact (1 <<< 5)) ((0x100000000#64).setWidth 32) ≠
        some (tzcnt64Generic 0x100000000#64) := by
  refine ⟨?_, ?_, ?_, ?_⟩
  · intro e
    cases e <;> decide +kernel
  · decide +kernel
  · decide +kernel
  · decide +kernel

/-! ## Leading zeros -/

/-- A back end that counts the low half right counts the argument right as long as the
low half decides. -/
theorem lzcnt64By_eq_iff
    (hexact : (lzcnt64By p e (throughInt x)).toNat = (throughInt x).clz.toNat) :
    lzcnt64By p e (throughInt x) = lzcnt64Generic x ↔ x.toNat < 2 ^ 32 := by
  rw [← BitVec.toNat_inj, hexact, lzcnt64Generic_toNat]
  exact clz_narrow_iff (by norm_num)

/-- **`lzcnt64` counts the low half**, and 32 more.  For every build, processor and
argument the three functions return the generic count if and only if the argument fits
an `unsigned int`. -/
theorem lzcnt64_eq_iff (b : Build) (p : Platform) (e : BackEnd) (x : BitVec 64)
    (hexact : (lzcnt64By p e (throughInt x)).toNat = (throughInt x).clz.toNat) :
    (lzcnt64Generic x).toNat = x.clz.toNat ∧
      (b.hardBackEnd64 = some e →
        (lzcnt64Hard b p (x.setWidth 32) = some (lzcnt64Generic x) ↔ x.toNat < 2 ^ 32)) ∧
      (b.softBackEnd64 .clzll .clzl = e →
        (lzcnt64Soft b p (x.setWidth 32) = lzcnt64Generic x ↔ x.toNat < 2 ^ 32)) ∧
      (backEnd64 b p .clzll .clzl = some e →
        (lzcnt64 b p (x.setWidth 32) = some (lzcnt64Generic x) ↔ x.toNat < 2 ^ 32)) :=
  ⟨lzcnt64Generic_toNat x, helpers64_iff (lzcnt64By_eq_iff hexact)⟩

theorem lzcnt64_eq_iff_small :
    lzcnt64 .gccX64 (.exact (1 <<< 5)) ((0xFFFF#64).setWidth 32) =
      some (lzcnt64Generic 0xFFFF#64) := by
  obtain ⟨-, -, -, hentry⟩ := lzcnt64_eq_iff .gccX64 (.exact (1 <<< 5)) .gccX86 0xFFFF#64
    (by decide +kernel)
  exact (hentry rfl).mpr (by decide)

theorem lzcnt64_two_pow_32 :
    (∀ e, (lzcnt64By (.exact (1 <<< 5)) e (throughInt 0x100000000#64)).toNat =
        (throughInt 0x100000000#64).clz.toNat) ∧
      lzcnt64Hard .gccX64 (.exact (1 <<< 5)) ((0x100000000#64).setWidth 32) ≠
        some (lzcnt64Generic 0x100000000#64) ∧
      lzcnt64Soft .gccX64 (.exact (1 <<< 5)) ((0x100000000#64).setWidth 32) ≠
        lzcnt64Generic 0x100000000#64 ∧
      lzcnt64 .gccX64 (.exact (1 <<< 5)) ((0x100000000#64).setWidth 32) ≠
        some (lzcnt64Generic 0x100000000#64) := by
  refine ⟨?_, ?_, ?_, ?_⟩
  · intro e
    cases e <;> decide +kernel
  · decide +kernel
  · decide +kernel
  · decide +kernel

end Refcode.BitCount
