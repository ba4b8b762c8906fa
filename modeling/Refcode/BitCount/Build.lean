import Mathlib.Data.Nat.Notation

/-!
# Builds and platforms of the bit counting files

`tzcnt.c` and `lzcnt.c` begin with the same preprocessor tests and end with the same
dispatch.  What they test are the macros of a `Build`; what their back ends call, the
intrinsics, the instructions and `cpuid`, is a `Platform`.

* `hardBackEnd32`, `hardBackEnd64`, `softBackEnd32`, `softBackEnd64` — the function
  that the preprocessor leaves in the body of a `_hard` or `_soft` helper.
* `hardBackEnd32_isSome`, `hardBackEnd64_isSome` — where the `_hard` helpers are compiled, no
  `#error` is reached.
* `helpers64_iff` — what holds of the answer of a back end holds of the helpers that
  reach it.
-/

namespace Refcode.BitCount

/-! ## Macros -/

/-- What `__has_builtin` is asked about. -/
inductive Builtin where
  | ctzl
  | ctzll
  | clzl
  | clzll

/-- The predefined macros. -/
structure Build where
  /-- `_MSC_VER`. -/
  mscVer : Option ℕ
  /-- `__GNUC__` and `__GNUC_MINOR__`. -/
  gnuc : Option (ℕ × ℕ)
  /-- `__clang__`. -/
  clang : Bool
  /-- `__has_builtin`. -/
  hasBuiltin : Option (Builtin → Bool)
  /-- `__i386` or `_M_IX86`. -/
  i386 : Bool
  /-- `__x86_64__` or `_M_X64`. -/
  x86_64 : Bool
  /-- `__arm__`. -/
  arm : Bool
  /-- `__ARM_ARCH`. -/
  armArch : Option ℕ
  /-- `_M_ARM`. -/
  mArm : Option ℕ
  /-- `__ARM_FEATURE_CLZ`. -/
  armFeatureClz : Bool
  /-- `_WIN64`, `_LP64` or `__LP64__`. -/
  lp64 : Bool

namespace Build

variable (b : Build)

/-- `defined(_MSC_VER)`. -/
def msvc : Bool := b.mscVer.isSome

/-- `defined(__GNUC__) || defined(__clang__)`. -/
def gccOrClang : Bool := b.gnuc.isSome || b.clang

def archX86 : Bool := b.i386

def archX64 : Bool := !b.archX86 && b.x86_64

def archArm : Bool :=
  !b.archX86 && !b.archX64 &&
    ((b.arm && b.armArch.any (5 ≤ ·)) || b.mArm.any (5 ≤ ·) || b.armFeatureClz)

def arch64Bit : Bool := b.lp64

/-- `HAS_TZCNT32_HARD` and `HAS_LZCNT32_HARD`. -/
def hasCnt32Hard : Bool :=
  if b.archX86 || b.archX64 then b.mscVer.any (1500 ≤ ·) || b.gccOrClang
  else b.archArm && b.gccOrClang

/-- `HAS_TZCNT64_HARD` and `HAS_LZCNT64_HARD`. -/
def hasCnt64Hard : Bool := b.hasCnt32Hard && b.arch64Bit

/-- `HAS_TZCNT_INTRINSIC` and `HAS_LZCNT_INTRINSIC`, with the built-ins that Clang is
asked about. -/
def hasCntIntrinsic (longLong long : Builtin) : Bool :=
  if b.mscVer.any (1500 ≤ ·) && (b.archX86 || b.archX64) && !b.clang then true
  else if b.gnuc.any (fun v => v.1 > 4 || (v.1 == 4 && v.2 ≥ 7)) then true
  else b.clang && b.hasBuiltin.any (fun has => has longLong || has long)

/-! ## Back ends -/

end Build

/-- The functions that count for themselves.  Both files have each of them for 32 and
for 64 bits. -/
inductive BackEnd where
  /-- `_generic`. -/
  | generic
  /-- `tzcnt32_msvc_bsf`, `tzcnt64_msvc_bsf`, `lzcnt32_msvc_bsr` and `lzcnt64_msvc_bsr`. -/
  | msvcBitScan
  /-- `_gcc_builtin`. -/
  | gccBuiltin
  /-- `32_msvc_x86` and `64_msvc_x64`. -/
  | msvcX86
  /-- `32_gcc_x86` and `64_gcc_x64`. -/
  | gccX86
  /-- `_gcc_arm`. -/
  | gccArm
  deriving DecidableEq

namespace Build

variable (b : Build)

/-- The x86 branch of the `_hard` helpers; `none` is `#error`. -/
def x86BackEnd : Option BackEnd :=
  if b.msvc && !b.clang then some .msvcX86
  else if b.gccOrClang then some .gccX86
  else none

/-- The ARM branch of the `_hard` helpers. -/
def armBackEnd : Option BackEnd := if b.gccOrClang then some .gccArm else none

/-- The body of `tzcnt32_hard` and `lzcnt32_hard`. -/
def hardBackEnd32 : Option BackEnd :=
  if b.archX86 || b.archX64 then b.x86BackEnd
  else if b.archArm then b.armBackEnd
  else none

/-- The body of `tzcnt64_hard` and `lzcnt64_hard`. -/
def hardBackEnd64 : Option BackEnd :=
  if b.archX64 then b.x86BackEnd
  else if b.archArm && b.arch64Bit then b.armBackEnd
  else none

/-- The body of `tzcnt32_soft` and `lzcnt32_soft`. -/
def softBackEnd32 (longLong long : Builtin) : BackEnd :=
  if b.msvc then .msvcBitScan
  else if b.hasCntIntrinsic longLong long then .gccBuiltin
  else .generic

/-- The body of `tzcnt64_soft` and `lzcnt64_soft`. -/
def softBackEnd64 (longLong long : Builtin) : BackEnd :=
  if b.arch64Bit then b.softBackEnd32 longLong long else .generic

variable {b : Build}

/-- Every x86 build with a hardware count has a compiler the helpers know. -/
theorem x86BackEnd_isSome (h : (b.mscVer.any (1500 ≤ ·) || b.gccOrClang) = true) :
    b.x86BackEnd.isSome := by
  unfold x86BackEnd
  by_cases hg : b.gccOrClang = true
  · rw [if_pos hg]
    split <;> rfl
  · simp only [Bool.not_eq_true] at hg
    have hclang : b.clang = false := by
      simp only [gccOrClang, Bool.or_eq_false_iff] at hg
      exact hg.2
    have hmsvc : b.msvc = true := by
      rw [hg, Bool.or_false, Option.any_eq_true] at h
      obtain ⟨v, hv, -⟩ := h
      simp [msvc, hv]
    simp [hmsvc, hclang]

/-- **No `#error` for 32 bits.** -/
theorem hardBackEnd32_isSome (h : b.hasCnt32Hard = true) : b.hardBackEnd32.isSome := by
  unfold hasCnt32Hard at h
  unfold hardBackEnd32
  split at h
  case isTrue hx =>
    rw [if_pos hx]
    exact x86BackEnd_isSome h
  case isFalse hx =>
    simp only [Bool.and_eq_true] at h
    rw [if_neg hx, if_pos h.1, armBackEnd, if_pos h.2]
    rfl

/-- **No `#error` for 64 bits**, unless the build is 64-bit and yet for `__i386`. -/
theorem hardBackEnd64_isSome (h : b.hasCnt64Hard = true) (hx86 : b.archX86 = false) :
    b.hardBackEnd64.isSome := by
  simp only [hasCnt64Hard, Bool.and_eq_true] at h
  have hsome := hardBackEnd32_isSome h.1
  unfold hardBackEnd32 at hsome
  unfold hardBackEnd64
  rw [hx86, Bool.false_or] at hsome
  rwa [h.2, Bool.and_true]

end Build

/-! ## The platform -/

/-- What the files call and do not define.  `_BitScanForward` and the others of that
kind store their result in a variable; here they return it. -/
structure Platform where
  /-- `info[2]` after `cpuid` for leaf `0x80000001`. -/
  cpuidEcx : BitVec 32
  /-- The width of `unsigned long`. -/
  longBits : ℕ
  longBits_le : 32 ≤ longBits
  bitScanForward : BitVec 32 → BitVec 32
  bitScanForward64 : BitVec 64 → BitVec 32
  bitScanReverse : BitVec 32 → BitVec 32
  bitScanReverse64 : BitVec 64 → BitVec 32
  /-- `__builtin_ctzl`. -/
  builtinCtzl : BitVec longBits → BitVec 32
  builtinCtzll : BitVec 64 → BitVec 32
  builtinClz : BitVec 32 → BitVec 32
  builtinClzll : BitVec 64 → BitVec 32
  /-- `__lzcnt`. -/
  lzcntIntrinsic : BitVec 32 → BitVec 32
  lzcnt64Intrinsic : BitVec 64 → BitVec 64
  /-- The instruction `tzcnt`, as the processor executes it. -/
  tzcntInstr32 : BitVec 32 → BitVec 32
  tzcntInstr64 : BitVec 64 → BitVec 64
  /-- The instruction `lzcnt`. -/
  lzcntInstr32 : BitVec 32 → BitVec 32
  lzcntInstr64 : BitVec 64 → BitVec 64
  /-- The instruction `clz`. -/
  clzInstr32 : BitVec 32 → BitVec 32
  clzInstr64 : BitVec 64 → BitVec 64

/-- A platform that counts exactly wherever it is asked, with the feature bits of its
processor. -/
def Platform.exact (ecx : BitVec 32) : Platform where
  cpuidEcx := ecx
  longBits := 64
  longBits_le := by decide
  bitScanForward x := x.ctz
  bitScanForward64 x := x.ctz.setWidth 32
  bitScanReverse x := 31 - x.clz
  bitScanReverse64 x := (63 - x.clz).setWidth 32
  builtinCtzl x := x.ctz.setWidth 32
  builtinCtzll x := x.ctz.setWidth 32
  builtinClz x := x.clz
  builtinClzll x := x.clz.setWidth 32
  lzcntIntrinsic x := x.clz
  lzcnt64Intrinsic x := x.clz
  tzcntInstr32 x := x.ctz
  tzcntInstr64 x := x.ctz
  lzcntInstr32 x := x.clz
  lzcntInstr64 x := x.clz
  clzInstr32 x := x.clz
  clzInstr64 x := x.clz

/-- `info[2]` of `has_tzcnt_hard` and `has_lzcnt_hard`, which starts as zero. -/
def cpuidInfo (b : Build) (p : Platform) : BitVec 32 :=
  if b.msvc || b.gccOrClang then p.cpuidEcx else 0#32

/-- `has_tzcnt_hard` and `has_lzcnt_hard`. -/
def hasCntHard (b : Build) (p : Platform) : Bool :=
  if b.archX86 || b.archX64 then (cpuidInfo b p &&& (1#32 <<< 5)) != 0#32
  else b.archArm

/-! ## The helpers

Both files have them with the same bodies, around their own back ends. -/

section Helpers

variable (b : Build) (p : Platform) (longLong long : Builtin)

/-- `tzcnt32_hard` and `lzcnt32_hard`; `none` where the preprocessor stops with `#error`. -/
def countHard32 (count : BackEnd → BitVec 32 → BitVec 32) (x : BitVec 32) : Option (BitVec 32) :=
  b.hardBackEnd32.map (count · x)

/-- `tzcnt64_hard` and `lzcnt64_hard`.  Their parameter is an `unsigned int`, which the
call of the back end widens. -/
def countHard64 (count : BackEnd → BitVec 64 → BitVec 32) (x : BitVec 32) : Option (BitVec 32) :=
  b.hardBackEnd64.map (count · (x.setWidth 64))

/-- `tzcnt32_soft` and `lzcnt32_soft`. -/
def countSoft32 (count : BackEnd → BitVec 32 → BitVec 32) (x : BitVec 32) : BitVec 32 :=
  count (b.softBackEnd32 longLong long) x

/-- `tzcnt64_soft` and `lzcnt64_soft`, again of an `unsigned int`. -/
def countSoft64 (count : BackEnd → BitVec 64 → BitVec 32) (x : BitVec 32) : BitVec 32 :=
  count (b.softBackEnd64 longLong long) (x.setWidth 64)

/-- `tzcnt32` and `lzcnt32`. -/
def count32 (count : BackEnd → BitVec 32 → BitVec 32) (x : BitVec 32) : Option (BitVec 32) :=
  if b.hasCnt32Hard && hasCntHard b p then countHard32 b count x
  else some (countSoft32 b longLong long count x)

/-- `tzcnt64` and `lzcnt64`, of an `unsigned int`, too. -/
def count64 (count : BackEnd → BitVec 64 → BitVec 32) (x : BitVec 32) : Option (BitVec 32) :=
  if b.hasCnt64Hard && hasCntHard b p then countHard64 b count x
  else some (countSoft64 b longLong long count x)

/-- The back end that `tzcnt64` or `lzcnt64` reaches. -/
def backEnd64 : Option BackEnd :=
  if b.hasCnt64Hard && hasCntHard b p then b.hardBackEnd64
  else some (b.softBackEnd64 longLong long)

variable {b}

/-- Every build reaches some back end, unless it is 64-bit and yet for `__i386`. -/
theorem backEnd64_isSome (h : b.archX86 = false) : (backEnd64 b p longLong long).isSome := by
  unfold backEnd64
  split
  case isTrue hhard =>
    rw [Bool.and_eq_true] at hhard
    exact Build.hardBackEnd64_isSome hhard.1 h
  case isFalse => rfl

variable {p longLong long}

/-- The helpers return what the back end returns that they reach. -/
theorem count64_eq_map (count : BackEnd → BitVec 64 → BitVec 32) (x : BitVec 32) :
    count64 b p longLong long count x =
      (backEnd64 b p longLong long).map (count · (x.setWidth 64)) := by
  unfold count64 backEnd64
  split
  · rfl
  · rfl

/-- What holds of the answer of a back end holds of the helpers that reach it. -/
theorem helpers64_iff {count : BackEnd → BitVec 64 → BitVec 32} {e : BackEnd} {x r : BitVec 32}
    {P : Prop} (h : count e (x.setWidth 64) = r ↔ P) :
    (b.hardBackEnd64 = some e → (countHard64 b count x = some r ↔ P)) ∧
      (b.softBackEnd64 longLong long = e → (countSoft64 b longLong long count x = r ↔ P)) ∧
      (backEnd64 b p longLong long = some e →
        (count64 b p longLong long count x = some r ↔ P)) := by
  refine ⟨?_, ?_, ?_⟩
  · intro hhard
    rw [countHard64, hhard, Option.map_some, Option.some_inj]
    exact h
  · intro hsoft
    rw [countSoft64, hsoft]
    exact h
  · intro hreach
    rw [count64_eq_map, hreach, Option.map_some, Option.some_inj]
    exact h

end Helpers

end Refcode.BitCount
