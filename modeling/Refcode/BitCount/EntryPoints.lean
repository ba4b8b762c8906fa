import Refcode.BitCount.FeatureTest
import Refcode.BitCount.TzcntFromLzcnt

/-!
# The 32-bit entry points on every build

`tzcnt32` and `lzcnt32` reach one of six functions, whatever the macros and the feature
bits are.  What `lzcnt.c` reaches is right: the bit it tests is that of the instruction it
uses.  What `tzcnt.c` reaches is right but for two of the six.

* `lzcnt32_correct` — `lzcnt32` counts right on every build and processor.
* `tzcnt32_eq_iff` — exactly where `tzcnt32` does.
-/

namespace Refcode.BitCount

open Refcode.Lib

variable {b : Build} {p p' : Platform} {longLong long : Builtin} {e : BackEnd}

/-! ## The function reached -/

/-- The back end that `tzcnt32` or `lzcnt32` reaches. -/
def backEnd32 (b : Build) (p : Platform) (longLong long : Builtin) : Option BackEnd :=
  if b.hasCnt32Hard && hasCntHard b p then b.hardBackEnd32
  else some (b.softBackEnd32 longLong long)

/-- Every build reaches one. -/
theorem exists_backEnd32 (b : Build) (p : Platform) (longLong long : Builtin) :
    ∃ e, backEnd32 b p longLong long = some e := by
  unfold backEnd32
  split
  case isTrue hhard =>
    rw [Bool.and_eq_true] at hhard
    exact Option.isSome_iff_exists.mp (Build.hardBackEnd32_isSome hhard.1)
  case isFalse => exact ⟨_, rfl⟩

/-- The entry points return what it returns. -/
theorem count32_eq_map (count : BackEnd → BitVec 32 → BitVec 32) (x : BitVec 32) :
    count32 b p longLong long count x = (backEnd32 b p longLong long).map (count · x) := by
  unfold count32 backEnd32
  split
  · rfl
  · rfl

/-- Which back end is reached depends on the feature bits of the processor only. -/
theorem backEnd32_congr (h : p.cpuidEcx = p'.cpuidEcx) :
    backEnd32 b p longLong long = backEnd32 b p' longLong long := by
  have hbits : hasCntHard b p = hasCntHard b p' := by
    rw [hasCntHard, hasCntHard, cpuidInfo, cpuidInfo, h]
  rw [backEnd32, backEnd32, hbits]

theorem softBackEnd32_cases (b : Build) (longLong long : Builtin) :
    b.softBackEnd32 longLong long = .msvcBitScan ∨
      b.softBackEnd32 longLong long = .gccBuiltin ∨
        b.softBackEnd32 longLong long = .generic := by
  unfold Build.softBackEnd32
  split_ifs <;> simp

/-- The x86 instructions are reached on a processor with LZCNT only. -/
theorem hasLzcnt_of_backEnd32 (h : backEnd32 b p longLong long = some e)
    (he : e = .msvcX86 ∨ e = .gccX86) : hasLzcnt p.cpuidEcx = true := by
  unfold backEnd32 at h
  split at h
  case isTrue hhard =>
    rw [Bool.and_eq_true] at hhard
    have harch : (b.archX86 || b.archX64) = true := by
      by_contra hnot
      rw [Build.hardBackEnd32, if_neg hnot] at h
      have harm : b.armBackEnd = some e := by
        split_ifs at h with hb
        exact h
      unfold Build.armBackEnd at harm
      split_ifs at harm
      rcases he with rfl | rfl <;> cases harm
    have hbit := hhard.2
    have hknown : (b.msvc || b.gccOrClang) = true := by
      have hcompiler := hhard.1
      rw [Build.hasCnt32Hard, if_pos harch, Bool.or_eq_true] at hcompiler
      rcases hcompiler with hmsvc | hgcc
      · obtain ⟨v, hv, -⟩ := (Option.any_eq_true _ _).mp hmsvc
        simp [Build.msvc, hv]
      · simp [hgcc]
    rwa [hasCntHard, if_pos harch, cpuidInfo, if_pos hknown] at hbit
  case isFalse =>
    rw [Option.some_inj] at h
    rcases softBackEnd32_cases b longLong long with hs | hs | hs
    all_goals
      rw [hs] at h
      rcases he with rfl | rfl <;> cases h

/-! ## Leading zeros -/

/-- What `lzcnt.c` relies on: LZCNT and its intrinsic count where `cpuid` says so. -/
structure ExactLeading (p : Platform) : Prop where
  reverse : ExactReverse p
  clz : ExactClz p
  lzcntIntrinsic : hasLzcnt p.cpuidEcx = true → ∀ x, p.lzcntIntrinsic x = x.clz
  lzcntInstr32 : hasLzcnt p.cpuidEcx = true → ∀ x, p.lzcntInstr32 x = x.clz

/-- **`lzcnt32` is right everywhere**: on every build, on every processor and for every
word. -/
theorem lzcnt32_correct (b : Build) (h : ExactLeading p) (x : BitVec 32) :
    lzcnt32 b p x = some x.clz := by
  have hgeneric : lzcnt32Generic x = x.clz := BitVec.eq_of_toNat_eq (lzcnt32Generic_toNat x)
  obtain ⟨e, he⟩ := exists_backEnd32 b p .clzll .clzl
  rw [lzcnt32, count32_eq_map, he, Option.map_some, Option.some_inj]
  cases e with
  | generic => exact hgeneric
  | msvcBitScan => exact (lzcnt32MsvcBsr_eq h.reverse x).trans hgeneric
  | gccBuiltin => exact (lzcnt32GccBuiltin_eq h.reverse x).trans hgeneric
  | msvcX86 => exact h.lzcntIntrinsic (hasLzcnt_of_backEnd32 he (.inl rfl)) x
  | gccX86 => exact h.lzcntInstr32 (hasLzcnt_of_backEnd32 he (.inr rfl)) x
  | gccArm => exact h.clz.clz32 x

/-- Without LZCNT its encoding is executed as BSR. -/
theorem lzcnt32_correct_bsr :
    lzcnt32 .gccX64 { Platform.exact 0 with lzcntInstr32 := fun x => 31 - x.clz } 0xF0 =
      some 24 := by
  have hright := lzcnt32_correct .gccX64
    (p := { Platform.exact 0 with lzcntInstr32 := fun x => 31 - x.clz })
    ⟨⟨exactReverse_exact.bsr, exactReverse_exact.bsr64, exactReverse_exact.clz,
      exactReverse_exact.clzll⟩, ⟨fun _ => rfl, fun _ => rfl⟩, fun _ _ => rfl,
      fun hbit => absurd hbit (by decide)⟩ 0xF0
  rw [hright]
  decide +kernel

/-! ## Trailing zeros -/

/-- What `tzcnt.c` relies on, on a processor with the feature bits `ebx` of leaf 7; the
intrinsics for LZCNT count where `cpuid` says so. -/
structure ExactTrailing (p : Platform) (ebx : BitVec 32) : Prop where
  forward : ExactForward p
  lzcnt : hasLzcnt p.cpuidEcx = true → ExactLzcnt p
  clz : ExactClz p
  executes : ExecutesTzcnt p ebx

/-- Zero, or a word with one bit set. -/
def Sparse {w : ℕ} (x : BitVec w) : Prop := x = 0#w ∨ ∃ k < w, x = BitVec.twoPow w k

/-- Where the function of a back end is right that counts 32 bits. -/
def BackEnd.TrailingRight (ebx x : BitVec 32) : BackEnd → Prop
  | .gccX86 => hasBmi1 ebx = true ∨ x ≠ 0#32
  | .gccArm => Sparse x
  | .generic | .msvcBitScan | .gccBuiltin | .msvcX86 => True

theorem exactTrailing_bsf {ecx ebx r : BitVec 32} (h : hasBmi1 ebx = false) :
    ExactTrailing (.bsf ecx r) ebx where
  forward := ⟨exactForward_exact.bsf, exactForward_exact.bsf64, exactForward_exact.ctzl,
    exactForward_exact.ctzll⟩
  lzcnt _ := ⟨fun _ => rfl, fun _ => rfl⟩
  clz := ⟨fun _ => rfl, fun _ => rfl⟩
  executes := executesTzcnt_bsf h

theorem exactLzcnt_exact {ecx : BitVec 32} : ExactLzcnt (.exact ecx) :=
  ⟨fun _ => rfl, fun _ => rfl⟩

theorem exactTrailing_exact {ecx ebx : BitVec 32} : ExactTrailing (.exact ecx) ebx where
  forward := ⟨exactForward_exact.bsf, exactForward_exact.bsf64, exactForward_exact.ctzl,
    exactForward_exact.ctzll⟩
  lzcnt _ := exactLzcnt_exact
  clz := ⟨fun _ => rfl, fun _ => rfl⟩
  executes := ⟨fun _ _ => rfl, fun _ _ hx => lowestBit_ctz hx⟩

/-- The ARM function takes the highest bit for the lowest one. -/
theorem tzcnt32GccArm_iff (h : ExactClz p) (x : BitVec 32) :
    tzcnt32GccArm p x = x.ctz ↔ Sparse x := by
  have hgeneric : tzcnt32Generic x = x.ctz := BitVec.eq_of_toNat_eq (tzcnt32Generic_toNat x)
  rw [← hgeneric]
  exact eq_iff_of_highest (tzcnt32GccArm p) tzcnt32Generic rfl
    (fun x hx => tzcnt32GccArm_toNat h hx) tzcnt32Generic_toNat x

theorem tzcnt32MsvcX86_eq (h : ExactLzcnt p) (x : BitVec 32) : tzcnt32MsvcX86 p x = x.ctz := by
  apply BitVec.eq_of_toNat_eq
  by_cases hx : x = 0#32
  · rw [hx, ctz_zero]
    rfl
  · rw [tzcnt32MsvcX86_toNat h hx]
    exact clz_isolate hx

/-- A back end is right about the words that `TrailingRight` names, where the intrinsics for
LZCNT are exact if it uses them. -/
theorem tzcnt32By_eq {ebx x : BitVec 32} (h : ExactTrailing p ebx)
    (hlzcnt : e = .msvcX86 → ExactLzcnt p) (hx : e.TrailingRight ebx x) :
    tzcnt32By p e x = x.ctz := by
  have hgeneric : tzcnt32Generic x = x.ctz := BitVec.eq_of_toNat_eq (tzcnt32Generic_toNat x)
  cases e with
  | generic => exact hgeneric
  | msvcBitScan => exact (tzcnt32MsvcBsf_eq h.forward.bsf x).trans hgeneric
  | gccBuiltin => exact (tzcnt32GccBuiltin_eq h.forward.ctzl x).trans hgeneric
  | msvcX86 => exact tzcnt32MsvcX86_eq (hlzcnt rfl) x
  | gccX86 => exact tzcntInstr32_eq h.executes hx
  | gccArm => exact (tzcnt32GccArm_iff h.clz x).mpr hx

/-- **What each back end computes**, on processors with given feature bits. -/
theorem tzcnt32By_eq_iff (ecx ebx x : BitVec 32) (e : BackEnd)
    (hlzcnt : e = .msvcX86 → hasLzcnt ecx = true) :
    (∀ p : Platform, p.cpuidEcx = ecx → ExactTrailing p ebx → tzcnt32By p e x = x.ctz) ↔
      e.TrailingRight ebx x := by
  refine ⟨fun hright => ?_, fun hx p hp h => ?_⟩
  · cases e with
    | generic | msvcBitScan | gccBuiltin | msvcX86 => trivial
    | gccX86 =>
      by_contra hcond
      rw [BackEnd.TrailingRight, not_or, Bool.not_eq_true, not_not] at hcond
      obtain ⟨hbmi, rfl⟩ := hcond
      -- BSF may leave a zero where 32 is asked for
      have hzero := hright (.bsf ecx 0) rfl (exactTrailing_bsf hbmi)
      have hwidth : (0#32).ctz.toNat = 32 := ctz_zero
      rw [← hzero] at hwidth
      cases hwidth
    | gccArm =>
      have hexact : ExactTrailing (.exact ecx) ebx := exactTrailing_exact
      exact (tzcnt32GccArm_iff hexact.clz x).mp (hright _ rfl hexact)
  · refine tzcnt32By_eq h (fun he => h.lzcnt ?_) hx
    rw [hp]
    exact hlzcnt he

/-- **Where `tzcnt32` is right**, on every build and for all feature bits: by the
instruction of x86 except for zero on a processor without BMI1, on ARM for words with at
most one bit set, and everywhere by the others. -/
theorem tzcnt32_eq_iff (b : Build) (ecx ebx x : BitVec 32) :
    (∀ p : Platform, p.cpuidEcx = ecx → ExactTrailing p ebx → tzcnt32 b p x = some x.ctz) ↔
      ∀ e, backEnd32 b (.exact ecx) .ctzll .ctzl = some e → e.TrailingRight ebx x := by
  obtain ⟨e, he⟩ := exists_backEnd32 b (.exact ecx) .ctzll .ctzl
  have hreach : ∀ p : Platform, p.cpuidEcx = ecx →
      tzcnt32 b p x = some (tzcnt32By p e x) := by
    intro p hp
    have hexact : p.cpuidEcx = (Platform.exact ecx).cpuidEcx := hp
    rw [tzcnt32, count32_eq_map, backEnd32_congr hexact, he, Option.map_some]
  have hlzcnt : e = .msvcX86 → hasLzcnt ecx = true := fun hmsvc =>
    hasLzcnt_of_backEnd32 he (.inl hmsvc)
  rw [he]
  simp only [Option.some_inj, forall_eq']
  rw [← tzcnt32By_eq_iff ecx ebx x e hlzcnt]
  refine forall_congr' fun p => forall_congr' fun hp => ?_
  rw [hreach p hp, Option.some_inj]

/-- GCC for 64-bit ARM on Linux. -/
def Build.gccArm64 : Build where
  mscVer := none
  gnuc := some (13, 2)
  clang := false
  hasBuiltin := none
  i386 := false
  x86_64 := false
  arm := false
  armArch := some 8
  mArm := none
  armFeatureClz := true
  lp64 := true

/-- On ARM the lowest set bit of `12` is not found. -/
theorem tzcnt32_eq_iff_arm : ¬ ∀ p : Platform, p.cpuidEcx = 0 → ExactTrailing p 0 →
    tzcnt32 .gccArm64 p 12 = some (12#32).ctz := by
  intro hright
  have hsparse : Sparse (12#32) := (tzcnt32_eq_iff .gccArm64 0 0 12).mp hright .gccArm rfl
  revert hsparse
  unfold Sparse
  decide

end Refcode.BitCount
