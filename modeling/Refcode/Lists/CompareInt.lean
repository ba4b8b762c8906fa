import Refcode.Lists.InvertedSigns

/-!
# The comparator of the sample

`compare_int` of `search.c` subtracts the element from the key.  Where the difference is
no `int` it wraps to the other side of zero: the elements that are too far from the key
are taken for the other side of it.

* `sign_sub_iff` — the wrapped difference has the sign of the difference exactly if that
  is an `int`.
* `nsBinarySearch_compareInt_iff` — the search finds a key that is there if and only if
  the differences are that it needs on its way.
-/

namespace Refcode.Lists

open Refcode.Lib

variable {w : ℕ}

/-! ## The comparator -/

/-- `*(int*)a`. -/
def loadInt (m : Mem w) (a : BitVec w) : BitVec 32 :=
  wordOfBytes 4 fun i => m (a + BitVec.ofNat w i)

/-- `compare_int`, with a subtraction that wraps. -/
def compareInt : CompareProc w Unit := fun _context a b m x =>
  ((loadInt m a - loadInt m b).toInt, x)

/-- The number is an `int`. -/
def FitsInt (d : ℤ) : Prop := -0x80000000 ≤ d ∧ d ≤ 0x7FFFFFFF

instance (d : ℤ) : Decidable (FitsInt d) := inferInstanceAs (Decidable (_ ∧ _))

/-- What the wrapped difference of two `int`s is. -/
theorem toInt_sub_cases (a b : BitVec 32) :
    FitsInt (a.toInt - b.toInt) ∧ (a - b).toInt = a.toInt - b.toInt ∨
      0x80000000 ≤ a.toInt - b.toInt ∧ (a - b).toInt = a.toInt - b.toInt - 0x100000000 ∨
      a.toInt - b.toInt < -0x80000000 ∧ (a - b).toInt = a.toInt - b.toInt + 0x100000000 := by
  have ha := a.toInt_lt
  have ha' := a.le_toInt
  have hb := b.toInt_lt
  have hb' := b.le_toInt
  have hsub : (a - b).toInt = _ := BitVec.toInt_sub
  rw [Int.bmod_eq_emod, show ((2 ^ 32 : ℕ) : ℤ) = 0x100000000 from rfl] at hsub
  by_cases hover : 0x80000000 ≤ a.toInt - b.toInt
  · refine .inr (.inl ⟨hover, ?_⟩)
    rw [hsub]
    split <;> omega
  · by_cases hunder : a.toInt - b.toInt < -0x80000000
    · refine .inr (.inr ⟨hunder, ?_⟩)
      rw [hsub]
      split <;> omega
    · refine .inl ⟨⟨by omega, by omega⟩, ?_⟩
      rw [hsub]
      split <;> omega

/-- Only equal numbers have a wrapped difference of zero. -/
theorem toInt_sub_eq_zero_iff (a b : BitVec 32) :
    (a - b).toInt = 0 ↔ a.toInt - b.toInt = 0 := by
  have ha := a.toInt_lt
  have ha' := a.le_toInt
  have hb := b.toInt_lt
  have hb' := b.le_toInt
  rcases toInt_sub_cases a b with ⟨-, heq⟩ | ⟨hover, heq⟩ | ⟨hunder, heq⟩
  · rw [heq]
  · omega
  · omega

/-- **The sign of a wrapped difference.** -/
theorem sign_sub_iff (a b : BitVec 32) :
    SignType.sign (a - b).toInt = SignType.sign (a.toInt - b.toInt) ↔
      FitsInt (a.toInt - b.toInt) := by
  have ha := a.toInt_lt
  have ha' := a.le_toInt
  have hb := b.toInt_lt
  have hb' := b.le_toInt
  rcases toInt_sub_cases a b with ⟨hfits, heq⟩ | ⟨hover, heq⟩ | ⟨hunder, heq⟩
  · simp [heq, hfits]
  · have hneg : (a - b).toInt < 0 := by omega
    have hpos : 0 < a.toInt - b.toInt := by omega
    rw [sign_neg hneg, sign_pos hpos]
    refine iff_of_false (by decide) ?_
    rintro ⟨-, hlt⟩
    omega
  · have hpos : 0 < (a - b).toInt := by omega
    have hneg : a.toInt - b.toInt < 0 := by omega
    rw [sign_neg hneg, sign_pos hpos]
    refine iff_of_false (by decide) ?_
    rintro ⟨hle, -⟩
    omega

/-! ## The search -/

/-- An array of `int`s in memory, and a key to look for. -/
structure IntList (w : ℕ) where
  pKey : BitVec w
  pList : BitVec w
  count : BitVec w
  pUserData : BitVec w
  mem : Mem w

/-- The call of a search with `sizeof(int)` and `compare_int`. -/
def IntList.query (L : IntList w) : Query w Unit where
  pKey := L.pKey
  pList := L.pList
  count := L.count
  stride := 4
  compareProc := compareInt
  pUserData := L.pUserData
  mem := L.mem

def IntList.key (L : IntList w) : ℤ := (loadInt L.mem L.pKey).toInt

/-- The element at an index. -/
def IntList.value (L : IntList w) (i : ℕ) : ℤ :=
  (loadInt L.mem (L.query.element (BitVec.ofNat w i))).toInt

/-- On which side of an element the key is. -/
noncomputable def IntList.side (L : IntList w) (i : ℕ) : SignType :=
  SignType.sign (L.key - L.value i)

/-- An array in ascending order. -/
structure SortedInts (w : ℕ) extends IntList w where
  fits : toIntList.query.Fits
  sorted : ∀ i j, i ≤ j → j < count.toNat → toIntList.value i ≤ toIntList.value j

namespace IntList

variable {L : IntList w}

/-- The side that `compare_int` takes the key for. -/
noncomputable def answered (L : IntList w) (i : ℕ) : SignType :=
  SignType.sign
    (loadInt L.mem L.pKey - loadInt L.mem (L.query.element (BitVec.ofNat w i))).toInt

theorem query_signs (L : IntList w) : L.query.Signs L.answered := by
  intro i _ x
  rw [answered, BitVec.ofNat_toNat, BitVec.setWidth_eq]
  rfl

theorem answered_eq_zero_iff {i : ℕ} : L.answered i = 0 ↔ L.side i = 0 := by
  rw [answered, side, sign_eq_zero_iff, sign_eq_zero_iff]
  exact toInt_sub_eq_zero_iff _ _

theorem answered_eq_side_iff {i : ℕ} :
    L.answered i = L.side i ↔ FitsInt (L.key - L.value i) := sign_sub_iff _ _

theorem side_eq_zero_iff {i : ℕ} : L.side i = 0 ↔ L.value i = L.key := by
  rw [side, sign_eq_zero_iff, sub_eq_zero, eq_comm]

end IntList

namespace SortedInts

variable {L : SortedInts w}

theorem falling (L : SortedInts w) : Falling L.side L.count.toNat := by
  intro i j hij hj
  have hle := L.sorted i j hij hj
  exact SignType.sign.monotone (by omega)

/-- An array of elements of four bytes takes up less than half the address space. -/
theorem count_lt_half (hw : 3 ≤ w) (L : SortedInts w) : L.count.toNat < 2 ^ (w - 1) := by
  have hfits : L.pList.toNat + L.count.toNat * (4 : BitVec w).toNat ≤ 2 ^ w := L.fits
  have h4 : (4 : BitVec w).toNat = 4 := toNat_literal (by norm_num) hw
  have hpow : 2 * 2 ^ (w - 1) = 2 ^ w := mul_pow_sub_one (by omega) 2
  have hpos : 0 < 2 ^ (w - 1) := by positivity
  rw [h4] at hfits
  omega

/-- The search finds the key if `compare_int` is right wherever it has to be. -/
theorem finds_iff (hw : 3 ≤ w) (L : SortedInts w) (hkey : ∃ j < L.count.toNat, L.value j = L.key) :
    Finds L.query L.side () ↔
      ∀ i, Visits L.side 0 L.count.toNat i → FitsInt (L.key - L.value i) := by
  have hzero : ∃ j < L.query.count.toNat, L.side j = 0 := by
    obtain ⟨j, hj, heq⟩ := hkey
    exact ⟨j, hj, IntList.side_eq_zero_iff.mpr heq⟩
  have hiff := nsBinarySearch_finds_iff (x := ()) (by omega) L.query_signs L.falling
    (fun _ _ => IntList.answered_eq_zero_iff) hzero (L.count_lt_half hw)
  simp only [IntList.answered_eq_side_iff] at hiff
  exact hiff

/-- What it returns if it finds the key. -/
theorem finds_side_iff (L : SortedInts w) :
    Finds L.query L.side () ↔
      ∃ fuel r, nsBinarySearch L.query fuel () = some r ∧ (∀ i ∈ r.probes, i < L.count) ∧
        ∃ i < L.count, r.result = some (L.query.element i) ∧ L.value i.toNat = L.key := by
  simp only [Finds, IntList.side_eq_zero_iff]
  rfl

end SortedInts

/-- **`compare_int` and numbers that are far apart.**  On every sorted array and for every
key that occurs in it, the binary search with `compare_int` looks at the array only and
returns an element equal to the key if and only if the key less the element is an `int`
at every element where halving by numeric order looks. -/
theorem nsBinarySearch_compareInt_iff (hw : 3 ≤ w) (L : SortedInts w)
    (hkey : ∃ j < L.count.toNat, L.value j = L.key) :
    (∃ fuel r, nsBinarySearch L.query fuel () = some r ∧ (∀ i ∈ r.probes, i < L.count) ∧
        ∃ i < L.count, r.result = some (L.query.element i) ∧ L.value i.toNat = L.key) ↔
      ∀ i, Visits L.side 0 L.count.toNat i → FitsInt (L.key - L.value i) := by
  rw [← L.finds_side_iff]
  exact L.finds_iff hw hkey

/-! ## Two arrays -/

/-- The `int`s from address `16` on, and one to look for at address `4`. -/
def intsInMemory (key : BitVec 32) (xs : List (BitVec 32)) : IntList 64 where
  pKey := 4
  pList := 16
  count := BitVec.ofNat 64 xs.length
  pUserData := 0
  mem := fun a =>
    if a < 16 then wordByte (q := 4) key (a.toNat - 4)
    else wordByte (q := 4) (xs.getD ((a.toNat - 16) / 4) 0) ((a.toNat - 16) % 4)

/-- The array and the key of `main`. -/
def sampleInts : SortedInts 64 where
  toIntList := intsInMemory 4 [1, 2, 3, 4, 5]
  fits := by
    show _ ≤ _
    decide +kernel
  sorted := by
    have hsorted : ∀ j < 5, ∀ i ≤ j, (intsInMemory 4 [1, 2, 3, 4, 5]).value i ≤
        (intsInMemory 4 [1, 2, 3, 4, 5]).value j := by decide +kernel
    intro i j hij hj
    exact hsorted j hj i hij

theorem nsBinarySearch_compareInt_sample :
    ∃ fuel r, nsBinarySearch sampleInts.query fuel () = some r ∧
      ∃ i < sampleInts.count, r.result = some (sampleInts.query.element i) ∧
        sampleInts.value i.toNat = 4 := by
  have hfits : ∀ i < sampleInts.count.toNat, FitsInt (sampleInts.key - sampleInts.value i) := by
    decide +kernel
  have hkey : sampleInts.key = 4 := by decide +kernel
  obtain ⟨fuel, r, hr, -, i, hi, hres, heq⟩ :=
    (nsBinarySearch_compareInt_iff (by norm_num) sampleInts ⟨3, by decide +kernel⟩).mpr
      (fun i hi => hfits i hi.mem.2)
  exact ⟨fuel, r, hr, i, hi, hres, heq.trans hkey⟩

/-- `INT_MIN` and `INT_MAX`, and `INT_MAX` to look for. -/
def extremeInts : SortedInts 64 where
  toIntList := intsInMemory 0x7FFFFFFF [0x80000000, 0x7FFFFFFF]
  fits := by
    show _ ≤ _
    decide +kernel
  sorted := by
    have hsorted : ∀ j < 2, ∀ i ≤ j, (intsInMemory 0x7FFFFFFF [0x80000000, 0x7FFFFFFF]).value i ≤
        (intsInMemory 0x7FFFFFFF [0x80000000, 0x7FFFFFFF]).value j := by decide +kernel
    intro i j hij hj
    exact hsorted j hj i hij

/-- `INT_MAX - INT_MIN` is `-1`, and the search is sent left from index `0`. -/
theorem nsBinarySearch_compareInt_extreme :
    (∃ j < extremeInts.count.toNat, extremeInts.value j = extremeInts.key) ∧
      ¬ ∃ fuel r, nsBinarySearch extremeInts.query fuel () = some r ∧
        (∀ i ∈ r.probes, i < extremeInts.count) ∧
          ∃ i < extremeInts.count, r.result = some (extremeInts.query.element i) ∧
            extremeInts.value i.toNat = extremeInts.key := by
  have hkey : ∃ j < extremeInts.count.toNat, extremeInts.value j = extremeInts.key :=
    ⟨1, by decide +kernel⟩
  refine ⟨hkey, ?_⟩
  rw [← extremeInts.finds_side_iff, extremeInts.finds_iff (by norm_num) hkey]
  intro hfits
  have hfirst := hfits 0 (.here (by decide +kernel))
  revert hfirst
  decide +kernel

end Refcode.Lists
