import Refcode.BitCount.Dispatch
import Refcode.BitCount.Software

/-!
# The feature test

`has_tzcnt_hard` reads bit 5 of ECX from leaf `0x80000001`.  That is the bit of LZCNT, as
in `lzcnt.c`; TZCNT came with BMI1, which is bit 3 of EBX from leaf 7.  A processor that
has the one and not the other executes the encoding of TZCNT as BSF.

* `tzcnt32_of_lzcnt`, `tzcnt32_of_no_lzcnt` — what the test chooses between.
* `tzcnt32X86_eq_iff` — where `tzcnt32` is right whatever BSF leaves in its destination.
-/

namespace Refcode.BitCount

open Refcode.Lib

variable {b : Build} {p : Platform} {ebx x : BitVec 32}

/-- An x86 or x64 build by GCC or by Clang, which may stand in for Visual C++. -/
def Build.x86Gcc (b : Build) : Bool :=
  (b.archX86 || b.archX64) && b.gccOrClang && (!b.msvc || b.clang)

/-- Bit 5 of ECX from leaf `0x80000001`. -/
def hasLzcnt (ecx : BitVec 32) : Bool := (ecx &&& (1#32 <<< 5)) != 0#32

/-- Bit 3 of EBX from leaf 7, which the source does not read. -/
def hasBmi1 (ebx : BitVec 32) : Bool := (ebx &&& (1#32 <<< 3)) != 0#32

/-- How the processor executes the encoding of TZCNT: as BSF, which finds the lowest set
bit and promises nothing of zero, unless it has BMI1. -/
structure ExecutesTzcnt (p : Platform) (ebx : BitVec 32) : Prop where
  tzcnt : hasBmi1 ebx = true → ∀ x, (p.tzcntInstr32 x).toNat = x.ctz.toNat
  bsf : hasBmi1 ebx = false → ∀ x, x ≠ 0#32 → LowestBit x (p.tzcntInstr32 x).toNat

/-- The built-in, and the bit scan where Clang stands in for Visual C++, are exact for
words that have a set bit. -/
structure ExactFallback (b : Build) (p : Platform) : Prop where
  ctzl : ∀ x, x ≠ 0#p.longBits → (p.builtinCtzl x).toNat = x.ctz.toNat
  bsf : b.msvc = true → ∀ x, x ≠ 0#32 → LowestBit x (p.bitScanForward x).toNat

/-! ## What the test chooses between -/

theorem Build.x86Gcc_iff :
    b.x86Gcc = true ↔
      (b.archX86 || b.archX64) = true ∧ b.gccOrClang = true ∧ (!b.msvc || b.clang) = true := by
  simp only [Build.x86Gcc, Bool.and_eq_true, and_assoc]

theorem hasCnt32Hard_of_x86Gcc (hb : b.x86Gcc = true) : b.hasCnt32Hard = true := by
  obtain ⟨harch, hgcc, -⟩ := Build.x86Gcc_iff.mp hb
  rw [Build.hasCnt32Hard, if_pos harch, hgcc, Bool.or_true]

theorem hardBackEnd32_of_x86Gcc (hb : b.x86Gcc = true) : b.hardBackEnd32 = some .gccX86 := by
  obtain ⟨harch, hgcc, hclang⟩ := Build.x86Gcc_iff.mp hb
  have hvisual : ¬(b.msvc && !b.clang) = true := by
    cases hmsvc : b.msvc <;> simp_all
  rw [Build.hardBackEnd32, if_pos harch, Build.x86BackEnd, if_neg hvisual, if_pos hgcc]

theorem hasCntHard_of_x86Gcc (hb : b.x86Gcc = true) : hasCntHard b p = hasLzcnt p.cpuidEcx := by
  obtain ⟨harch, hgcc, -⟩ := Build.x86Gcc_iff.mp hb
  rw [hasCntHard, if_pos harch, cpuidInfo, if_pos (by rw [hgcc, Bool.or_true]), hasLzcnt]

/-- With the bit of LZCNT the instruction counts. -/
theorem tzcnt32_of_lzcnt (hb : b.x86Gcc = true) (h : hasLzcnt p.cpuidEcx = true) :
    tzcnt32 b p x = some (p.tzcntInstr32 x) := by
  rw [tzcnt32, count32, hasCnt32Hard_of_x86Gcc hb, hasCntHard_of_x86Gcc hb, h, Bool.and_self,
    if_pos rfl, countHard32, hardBackEnd32_of_x86Gcc hb]
  rfl

/-- Without it `tzcnt32_soft` does. -/
theorem tzcnt32_of_no_lzcnt (hb : b.x86Gcc = true) (h : hasLzcnt p.cpuidEcx = false) :
    tzcnt32 b p x = some (tzcnt32Soft b p x) := by
  rw [tzcnt32, count32, hasCnt32Hard_of_x86Gcc hb, hasCntHard_of_x86Gcc hb, h,
    if_neg (by decide)]
  rfl

/-- Whatever `tzcnt32_soft` reaches, it is right. -/
theorem tzcnt32Soft_eq (h : ExactFallback b p) (x : BitVec 32) : tzcnt32Soft b p x = x.ctz := by
  apply BitVec.eq_of_toNat_eq
  rw [← tzcnt32Generic_toNat, tzcnt32Soft, countSoft32, Build.softBackEnd32]
  split
  case isTrue hmsvc => exact congrArg _ (tzcnt32MsvcBsf_eq (h.bsf hmsvc) x)
  case isFalse =>
    split
    case isTrue => exact congrArg _ (tzcnt32GccBuiltin_eq h.ctzl x)
    case isFalse => rfl

/-- The instruction is right with BMI1, and without it if a bit is set. -/
theorem tzcntInstr32_eq (h : ExecutesTzcnt p ebx) (hx : hasBmi1 ebx = true ∨ x ≠ 0#32) :
    p.tzcntInstr32 x = x.ctz := by
  apply BitVec.eq_of_toNat_eq
  cases hbmi : hasBmi1 ebx with
  | true => exact h.tzcnt hbmi x
  | false =>
    have hne : x ≠ 0#32 := by
      rcases hx with hx | hx
      · rw [hbmi] at hx
        cases hx
      · exact hx
    exact (h.bsf hbmi x hne).ctz.symm

/-! ## When it is right -/

/-- A processor that has no TZCNT, with `r` for what BSF leaves of zero. -/
def Platform.bsf (ecx r : BitVec 32) : Platform :=
  { Platform.exact ecx with tzcntInstr32 := fun x => if x = 0#32 then r else x.ctz }

theorem executesTzcnt_bsf {ecx r : BitVec 32} (h : hasBmi1 ebx = false) :
    ExecutesTzcnt (.bsf ecx r) ebx := by
  constructor
  · intro hbmi
    rw [h] at hbmi
    cases hbmi
  · intro hbmi x hx
    show LowestBit x (if x = 0#32 then r else x.ctz).toNat
    rw [if_neg hx]
    exact lowestBit_ctz hx

theorem exactFallback_bsf {ecx r : BitVec 32} : ExactFallback b (.bsf ecx r) := by
  constructor
  · intro x hx
    exact toNat_setWidth_of_le (v := 32) (ctz_lt hx).le (show 64 < 2 ^ 32 by norm_num)
  · intro hmsvc x hx
    exact lowestBit_ctz hx

/-- **`has_tzcnt_hard` tests for the wrong instruction.**  On every x86 or x64 build by GCC
or Clang and for all feature bits, `tzcnt32` of `x` is right on every such processor if and
only if LZCNT is missing, or BMI1 is there, or `x` has a set bit. -/
theorem tzcnt32X86_eq_iff (b : Build) (hb : b.x86Gcc = true) (ecx ebx x : BitVec 32) :
    (∀ p : Platform, p.cpuidEcx = ecx → ExecutesTzcnt p ebx → ExactFallback b p →
        tzcnt32 b p x = some x.ctz) ↔
      hasLzcnt ecx = false ∨ hasBmi1 ebx = true ∨ x ≠ 0#32 := by
  constructor
  · intro hright
    by_contra hcond
    push Not at hcond
    obtain ⟨hlzcnt, hbmi, rfl⟩ := hcond
    simp only [ne_eq, Bool.not_eq_false, Bool.not_eq_true] at hlzcnt hbmi
    -- BSF may leave a zero where 32 is asked for
    have hzero := hright (.bsf ecx 0) rfl (executesTzcnt_bsf hbmi) exactFallback_bsf
    rw [tzcnt32_of_lzcnt hb hlzcnt, Option.some_inj] at hzero
    have hleft : (Platform.bsf ecx 0).tzcntInstr32 0#32 = 0#32 := rfl
    have hwidth : (0#32).ctz.toNat = 32 := ctz_zero
    rw [← hzero, hleft] at hwidth
    cases hwidth
  · rintro hcond p rfl hexec hsoft
    cases hlzcnt : hasLzcnt p.cpuidEcx with
    | false => rw [tzcnt32_of_no_lzcnt hb hlzcnt, tzcnt32Soft_eq hsoft]
    | true =>
      rw [hlzcnt] at hcond
      rw [tzcnt32_of_lzcnt hb hlzcnt, tzcntInstr32_eq hexec (hcond.resolve_left (by decide))]

theorem tzcnt32X86_eq_iff_bmi1 :
    tzcnt32 .gccX64 (.exact (1 <<< 5)) 0#32 = some (0#32).ctz := by
  have hright := (tzcnt32X86_eq_iff .gccX64 rfl (1 <<< 5) (1 <<< 3) 0).mpr (.inr (.inl rfl))
  apply hright (.exact (1 <<< 5)) rfl
  · exact ⟨fun _ _ => rfl, fun h => absurd h (by decide)⟩
  · refine ⟨fun x hx => ?_, fun _ x hx => lowestBit_ctz hx⟩
    exact toNat_setWidth_of_le (v := 32) (ctz_lt hx).le (show 64 < 2 ^ 32 by norm_num)

/-- With LZCNT and without BMI1, BSF of zero may leave a zero, as if the lowest bit were
set. -/
theorem tzcnt32X86_zero :
    Build.gccX64.x86Gcc = true ∧ ExecutesTzcnt (.bsf (1 <<< 5) 0) 0 ∧
      ExactFallback .gccX64 (.bsf (1 <<< 5) 0) ∧ (0#32).ctz = 32 ∧
      tzcnt32 .gccX64 (.bsf (1 <<< 5) 0) 0 = some 0 := by
  refine ⟨rfl, executesTzcnt_bsf rfl, exactFallback_bsf, ?_, ?_⟩
  · decide +kernel
  · decide +kernel

end Refcode.BitCount
