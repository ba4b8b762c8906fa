import Refcode.BitCount.EntryPoints

/-!
# The self-tests

`tzcnt.c` and `lzcnt.c` end with a `main` that tests every function the build has, and
exits with `-1` if one fails.  The tests feed zero and the words with one bit set.

* `doTest_eq_zero_iff` — what a test finds out about a function.
* `tzcntMain_eq_zero_iff`, `lzcntMain_eq_zero_iff` — what the exit codes say.
* `selfTests_miss` — on exact hardware both programs exit with zero, on every build; the
  function that makes `tzcnt32` wrong on ARM passes.
-/

namespace Refcode.BitCount

open Refcode.Lib

variable {w : ℕ} {b : Build} {p : Platform} {input : ℕ → BitVec w} {proc : BitVec w → BitVec 32}

/-! ## One test -/

/-- `for (i = 0; i <= width; ++i)`, with the rounds that are left. -/
def testLoop (input : ℕ → BitVec w) (proc : BitVec w → BitVec 32) : ℕ → ℕ → Int → Int
  | 0, _, testResult => testResult
  | n + 1, i, testResult =>
    let r := proc (input i)
    testLoop input proc n (i + 1) (if r ≠ BitVec.ofNat 32 i then -1 else testResult)

/-- `do_test32` and `do_test64`, less what they print; `input` is what they compute from
the counter. -/
def doTest (input : ℕ → BitVec w) (proc : BitVec w → BitVec 32) : Int :=
  testLoop input proc (w + 1) 0 0

/-- `0x00000001 << i` in `tzcnt.c`, taken to give the top bit for the last one, and the
special case. -/
def tzcntInput (w i : ℕ) : BitVec w := if i = w then 0 else 1#w <<< i

/-- `0x80000000 >> i` in `lzcnt.c`. -/
def lzcntInput (w i : ℕ) : BitVec w := if i = w then 0 else BitVec.twoPow w (w - 1) >>> i

/-- The loop returns zero exactly if no test failed before it and all of its own pass. -/
theorem testLoop_eq_zero_iff {n i : ℕ} {testResult : Int} :
    testLoop input proc n i testResult = 0 ↔
      testResult = 0 ∧ ∀ j < n, proc (input (i + j)) = BitVec.ofNat 32 (i + j) := by
  induction n generalizing i testResult with
  | zero => simp [testLoop]
  | succ n ih =>
    rw [testLoop, ih]
    by_cases hr : proc (input i) = BitVec.ofNat 32 i
    · have hshift : (∀ j < n, proc (input (i + 1 + j)) = BitVec.ofNat 32 (i + 1 + j)) ↔
          ∀ j < n + 1, proc (input (i + j)) = BitVec.ofNat 32 (i + j) := by
        rw [Nat.forall_lt_succ_left]
        simp [hr, Nat.add_assoc, Nat.add_comm 1]
      simp [hr, hshift]
    · simp only [ne_eq, hr, not_false_eq_true, if_true]
      refine iff_of_false (by simp) ?_
      rintro ⟨-, hall⟩
      exact hr (hall 0 (Nat.succ_pos n))

theorem doTest_eq_zero_iff :
    doTest input proc = 0 ↔ ∀ i ≤ w, proc (input i) = BitVec.ofNat 32 i := by
  simp [doTest, testLoop_eq_zero_iff]

/-- **What a test finds out** about a function that is to count: it is right on zero and on
the words with one bit set. -/
theorem doTest_iff {count : BitVec w → ℕ} (hw : w < 2 ^ 32)
    (hinput : ∀ x, Sparse x ↔ ∃ i ≤ w, input i = x) (hcount : ∀ i ≤ w, count (input i) = i) :
    doTest input proc = 0 ↔ ∀ x, Sparse x → (proc x).toNat = count x := by
  rw [doTest_eq_zero_iff]
  refine ⟨fun h x hx => ?_, fun h i hi => ?_⟩
  · obtain ⟨i, hi, rfl⟩ := (hinput x).mp hx
    rw [h i hi, hcount i hi, BitVec.toNat_ofNat, Nat.mod_eq_of_lt (by omega)]
  · apply BitVec.eq_of_toNat_eq
    rw [h _ ((hinput _).mpr ⟨i, hi, rfl⟩), hcount i hi, BitVec.toNat_ofNat,
      Nat.mod_eq_of_lt (by omega)]

theorem tzcntInput_of_lt {i : ℕ} (hi : i < w) : tzcntInput w i = BitVec.twoPow w i :=
  if_neg hi.ne

theorem lzcntInput_of_lt {i : ℕ} (hi : i < w) :
    lzcntInput w i = BitVec.twoPow w (w - 1 - i) := by
  rw [lzcntInput, if_neg hi.ne]
  apply BitVec.eq_of_getLsbD_eq
  intro j hj
  simp only [BitVec.getLsbD_ushiftRight, BitVec.getLsbD_twoPow]
  rcases Nat.lt_or_ge (i + j) w with hlt | hge
  · have heq : w - 1 = i + j ↔ w - 1 - i = j := by omega
    simp [heq, show w - 1 < w by omega, show w - 1 - i < w by omega]
  · simp [show w - 1 ≠ i + j by omega, show w - 1 - i ≠ j by omega]

theorem sparse_iff_tzcntInput (x : BitVec w) : Sparse x ↔ ∃ i ≤ w, tzcntInput w i = x := by
  refine ⟨?_, ?_⟩
  · rintro (rfl | ⟨k, hk, rfl⟩)
    · exact ⟨w, le_rfl, if_pos rfl⟩
    · exact ⟨k, hk.le, tzcntInput_of_lt hk⟩
  · rintro ⟨i, hi, rfl⟩
    rcases hi.lt_or_eq with hlt | rfl
    · exact .inr ⟨i, hlt, tzcntInput_of_lt hlt⟩
    · exact .inl (if_pos rfl)

theorem sparse_iff_lzcntInput (x : BitVec w) : Sparse x ↔ ∃ i ≤ w, lzcntInput w i = x := by
  refine ⟨?_, ?_⟩
  · rintro (rfl | ⟨k, hk, rfl⟩)
    · exact ⟨w, le_rfl, if_pos rfl⟩
    · refine ⟨w - 1 - k, by omega, ?_⟩
      rw [lzcntInput_of_lt (by omega), show w - 1 - (w - 1 - k) = k by omega]
  · rintro ⟨i, hi, rfl⟩
    rcases hi.lt_or_eq with hlt | rfl
    · exact .inr ⟨w - 1 - i, by omega, lzcntInput_of_lt hlt⟩
    · exact .inl (if_pos rfl)

theorem doTest_tzcnt_iff (hw : w < 2 ^ 32) :
    doTest (tzcntInput w) proc = 0 ↔ ∀ x, Sparse x → (proc x).toNat = x.ctz.toNat := by
  apply doTest_iff hw sparse_iff_tzcntInput
  intro i hi
  rcases hi.lt_or_eq with hlt | rfl
  · rw [tzcntInput_of_lt hlt]
    exact (twoPow_lowestBit hlt).ctz
  · rw [tzcntInput, if_pos rfl]
    exact ctz_zero

theorem doTest_lzcnt_iff (hw : w < 2 ^ 32) :
    doTest (lzcntInput w) proc = 0 ↔ ∀ x, Sparse x → (proc x).toNat = x.clz.toNat := by
  apply doTest_iff hw sparse_iff_lzcntInput
  intro i hi
  rcases hi.lt_or_eq with hlt | rfl
  · rw [lzcntInput_of_lt hlt, (twoPow_highestBit (by omega)).clz]
    omega
  · rw [lzcntInput, if_pos rfl]
    exact clz_zero

/-! ## The programs -/

/-- The functions that `main` tests for 32 bits. -/
def tested32 (b : Build) (p : Platform) (longLong long : Builtin) : List BackEnd :=
  (if b.hasCnt32Hard && hasCntHard b p then
    (if b.archX86 || b.archX64 then b.x86BackEnd.toList else []) ++
      (if b.archArm then b.armBackEnd.toList else [])
  else []) ++
  (if b.msvc then [.msvcBitScan]
  else if b.hasCntIntrinsic longLong long then [.gccBuiltin]
  else []) ++ [.generic]

/-- Those for 64 bits. -/
def tested64 (b : Build) (p : Platform) (longLong long : Builtin) : List BackEnd :=
  (if b.hasCnt64Hard && hasCntHard b p then
    (if b.archX64 then b.x86BackEnd.toList else []) ++
      (if b.archArm then b.armBackEnd.toList else [])
  else []) ++
  (if b.arch64Bit then
    if b.msvc then [.msvcBitScan]
    else if b.hasCntIntrinsic longLong long then [.gccBuiltin]
    else []
  else []) ++ [.generic]

/-- What `tzcnt32` or `lzcnt32` reaches is tested. -/
theorem mem_tested32 {longLong long : Builtin} {e : BackEnd}
    (h : backEnd32 b p longLong long = some e) : e ∈ tested32 b p longLong long := by
  unfold backEnd32 at h
  unfold tested32
  split at h
  case isTrue hhard =>
    rw [if_pos hhard]
    unfold Build.hardBackEnd32 at h
    split_ifs at h with hx harm
    · simp [hx, h]
    · simp [hx, harm, h]
  case isFalse hsoft =>
    rw [if_neg hsoft]
    rw [Option.some_inj, Build.softBackEnd32] at h
    split_ifs at h with hmsvc hbuiltin
    · simp [hmsvc, ← h]
    · simp [hmsvc, hbuiltin, ← h]
    · simp [hmsvc, hbuiltin, ← h]

/-- `if (do_test(...) != 0) exitCode = -1;`, one test after the other. -/
def exitCode (results : List Int) : Int :=
  results.foldl (fun exitCode result => if result ≠ 0 then -1 else exitCode) 0

/-- The exit code of `tzcnt.c`. -/
def tzcntMain (b : Build) (p : Platform) : Int :=
  exitCode ((tested32 b p .ctzll .ctzl).map (fun e => doTest (tzcntInput 32) (tzcnt32By p e)) ++
    (tested64 b p .ctzll .ctzl).map fun e => doTest (tzcntInput 64) (tzcnt64By p e))

/-- The exit code of `lzcnt.c`. -/
def lzcntMain (b : Build) (p : Platform) : Int :=
  exitCode ((tested32 b p .clzll .clzl).map (fun e => doTest (lzcntInput 32) (lzcnt32By p e)) ++
    (tested64 b p .clzll .clzl).map fun e => doTest (lzcntInput 64) (lzcnt64By p e))

theorem exitCode_eq_zero_iff {results : List Int} :
    exitCode results = 0 ↔ ∀ result ∈ results, result = 0 := by
  unfold exitCode
  induction results using List.reverseRecOn with
  | nil => simp
  | append_singleton results result ih =>
    rw [List.foldl_append, List.foldl_cons, List.foldl_nil]
    by_cases hresult : result = 0
    · rw [if_neg (not_not.mpr hresult), ih]
      simp [hresult, or_imp]
    · rw [if_pos hresult]
      exact iff_of_false (by simp) fun hall => hresult (hall result (by simp))

theorem tzcntMain_eq_zero_iff : tzcntMain b p = 0 ↔
    (∀ e ∈ tested32 b p .ctzll .ctzl, ∀ x, Sparse x → (tzcnt32By p e x).toNat = x.ctz.toNat) ∧
      ∀ e ∈ tested64 b p .ctzll .ctzl, ∀ x, Sparse x →
        (tzcnt64By p e x).toNat = x.ctz.toNat := by
  have h32 : 32 < 2 ^ 32 := by norm_num
  have h64 : 64 < 2 ^ 32 := by norm_num
  simp [tzcntMain, exitCode_eq_zero_iff, or_imp, forall_and, doTest_tzcnt_iff h32,
    doTest_tzcnt_iff h64]

theorem lzcntMain_eq_zero_iff : lzcntMain b p = 0 ↔
    (∀ e ∈ tested32 b p .clzll .clzl, ∀ x, Sparse x → (lzcnt32By p e x).toNat = x.clz.toNat) ∧
      ∀ e ∈ tested64 b p .clzll .clzl, ∀ x, Sparse x →
        (lzcnt64By p e x).toNat = x.clz.toNat := by
  have h32 : 32 < 2 ^ 32 := by norm_num
  have h64 : 64 < 2 ^ 32 := by norm_num
  simp [lzcntMain, exitCode_eq_zero_iff, or_imp, forall_and, doTest_lzcnt_iff h32,
    doTest_lzcnt_iff h64]

/-! ## On exact hardware -/

section Exact

variable {ecx : BitVec 32}

/-- The functions that take the highest bit for the lowest one. -/
theorem tzcnt64MsvcX64_iff (h : ExactLzcnt p) (x : BitVec 64) :
    tzcnt64MsvcX64 p x = tzcnt64Generic x ↔ Sparse x :=
  eq_iff_of_highest (tzcnt64MsvcX64 p) tzcnt64Generic rfl
    (fun _ hne => tzcnt64MsvcX64_toNat h hne) tzcnt64Generic_toNat x

theorem tzcnt64GccArm_iff (h : ExactClz p) (x : BitVec 64) :
    tzcnt64GccArm p x = tzcnt64Generic x ↔ Sparse x :=
  eq_iff_of_highest (tzcnt64GccArm p) tzcnt64Generic rfl
    (fun _ hne => tzcnt64GccArm_toNat h hne) tzcnt64Generic_toNat x

/-- Where the lowest set bit is the highest one the functions for ARM and that of Visual
C++ for 64 bits are right, too. -/
theorem tzcnt32By_exact (e : BackEnd) {x : BitVec 32} (hx : Sparse x) :
    tzcnt32By (.exact ecx) e x = x.ctz := by
  have hexact : ExactTrailing (.exact ecx) (1#32 <<< 3) := exactTrailing_exact
  refine tzcnt32By_eq hexact (fun _ => exactLzcnt_exact) ?_
  cases e with
  | gccX86 => exact .inl (by decide)
  | gccArm => exact hx
  | generic | msvcBitScan | gccBuiltin | msvcX86 => trivial

/-- A count fits a smaller word, too. -/
theorem toNat_narrow_clz (x : BitVec 64) : (x.clz.setWidth 32).toNat = x.clz.toNat := by
  by_cases hx : x = 0#64
  · rw [hx, toNat_setWidth_of_le clz_zero.le (by norm_num)]
  · exact toNat_setWidth_of_le (clz_lt hx).le (by norm_num)

theorem toNat_narrow_ctz (x : BitVec 64) : (x.ctz.setWidth 32).toNat = x.ctz.toNat := by
  by_cases hx : x = 0#64
  · rw [hx, toNat_setWidth_of_le ctz_zero.le (by norm_num)]
  · exact toNat_setWidth_of_le (ctz_lt hx).le (by norm_num)

theorem tzcnt64By_exact (e : BackEnd) {x : BitVec 64} (hx : Sparse x) :
    tzcnt64By (.exact ecx) e x = tzcnt64Generic x := by
  obtain ⟨hforward, -, hclz, -⟩ : ExactTrailing (.exact ecx) 0 := exactTrailing_exact
  have hcount : x.ctz.setWidth 32 = tzcnt64Generic x := by
    apply BitVec.eq_of_toNat_eq
    rw [tzcnt64Generic_toNat, toNat_narrow_ctz]
  cases e with
  | generic => rfl
  | msvcBitScan => exact tzcnt64MsvcBsf_eq hforward x
  | gccBuiltin => exact tzcnt64GccBuiltin_eq hforward x
  | msvcX86 => exact (tzcnt64MsvcX64_iff exactLzcnt_exact x).mpr hx
  | gccX86 => exact hcount
  | gccArm => exact (tzcnt64GccArm_iff hclz x).mpr hx

theorem lzcnt32By_exact (e : BackEnd) (x : BitVec 32) :
    lzcnt32By (.exact ecx) e x = lzcnt32Generic x := by
  have hexact : ExactReverse (.exact ecx) := ⟨exactReverse_exact.bsr, exactReverse_exact.bsr64,
    exactReverse_exact.clz, exactReverse_exact.clzll⟩
  have hcount : x.clz = lzcnt32Generic x := (BitVec.eq_of_toNat_eq (lzcnt32Generic_toNat x)).symm
  cases e with
  | generic => rfl
  | msvcBitScan => exact lzcnt32MsvcBsr_eq hexact x
  | gccBuiltin => exact lzcnt32GccBuiltin_eq hexact x
  | msvcX86 | gccX86 | gccArm => exact hcount

theorem lzcnt64By_exact (e : BackEnd) (x : BitVec 64) :
    lzcnt64By (.exact ecx) e x = lzcnt64Generic x := by
  have hexact : ExactReverse (.exact ecx) := ⟨exactReverse_exact.bsr, exactReverse_exact.bsr64,
    exactReverse_exact.clz, exactReverse_exact.clzll⟩
  have hcount : x.clz.setWidth 32 = lzcnt64Generic x := by
    apply BitVec.eq_of_toNat_eq
    rw [lzcnt64Generic_toNat, toNat_narrow_clz]
  cases e with
  | generic => rfl
  | msvcBitScan => exact lzcnt64MsvcBsr_eq hexact x
  | gccBuiltin => exact lzcnt64GccBuiltin_eq hexact x
  | msvcX86 | gccX86 | gccArm => exact hcount

end Exact

/-- **What the self-tests find out, and what they miss.**  A program exits with zero if and
only if every function it tests is right on zero and on the words with one bit set.  On
exact hardware both do, on every build and for all feature bits; yet where `tzcnt32` uses
the function for ARM it is wrong on all other words. -/
theorem selfTests_miss (b : Build) (ecx : BitVec 32) :
    (∀ p, tzcntMain b p = 0 ↔
      (∀ e ∈ tested32 b p .ctzll .ctzl, ∀ x, Sparse x →
        (tzcnt32By p e x).toNat = x.ctz.toNat) ∧
      ∀ e ∈ tested64 b p .ctzll .ctzl, ∀ x, Sparse x →
        (tzcnt64By p e x).toNat = x.ctz.toNat) ∧
    (∀ p, lzcntMain b p = 0 ↔
      (∀ e ∈ tested32 b p .clzll .clzl, ∀ x, Sparse x →
        (lzcnt32By p e x).toNat = x.clz.toNat) ∧
      ∀ e ∈ tested64 b p .clzll .clzl, ∀ x, Sparse x →
        (lzcnt64By p e x).toNat = x.clz.toNat) ∧
    tzcntMain b (.exact ecx) = 0 ∧ lzcntMain b (.exact ecx) = 0 ∧
    (backEnd32 b (.exact ecx) .ctzll .ctzl = some .gccArm →
      .gccArm ∈ tested32 b (.exact ecx) .ctzll .ctzl ∧
        ∀ x, tzcnt32 b (.exact ecx) x = some x.ctz ↔ Sparse x) := by
  refine ⟨fun p => tzcntMain_eq_zero_iff, fun p => lzcntMain_eq_zero_iff, ?_, ?_, fun harm => ?_⟩
  · rw [tzcntMain_eq_zero_iff]
    refine ⟨fun e _ x hx => ?_, fun e _ x hx => ?_⟩
    · rw [tzcnt32By_exact e hx]
    · rw [tzcnt64By_exact e hx, tzcnt64Generic_toNat]
  · rw [lzcntMain_eq_zero_iff]
    refine ⟨fun e _ x _ => ?_, fun e _ x _ => ?_⟩
    · rw [lzcnt32By_exact, lzcnt32Generic_toNat]
    · rw [lzcnt64By_exact, lzcnt64Generic_toNat]
  · refine ⟨mem_tested32 harm, fun x => ?_⟩
    have hexact : ExactTrailing (.exact ecx) 0 := exactTrailing_exact
    rw [tzcnt32, count32_eq_map, harm, Option.map_some, Option.some_inj]
    exact tzcnt32GccArm_iff hexact.clz x

/-- The program passes on ARM, where it takes the lowest set bit of `12` to be at `3`. -/
theorem selfTests_miss_arm : tzcntMain .gccArm64 (.exact 0) = 0 ∧
    tzcnt32 .gccArm64 (.exact 0) 12 ≠ some (12#32).ctz := by
  obtain ⟨-, -, hmain, -, harm⟩ := selfTests_miss .gccArm64 0
  refine ⟨hmain, fun heq => ?_⟩
  have hsparse : Sparse (12#32) := ((harm rfl).2 12).mp heq
  revert hsparse
  unfold Sparse
  decide

end Refcode.BitCount
