import Refcode.Lib.Neighbours
import Refcode.Lists.CompareInt

/-!
# Sorting with the comparator of the sample

`compare_int` says of any two numbers that one of them may come first, but where differences
are no `int`s its answers are not transitive.  The elements sorted here begin with an `int`;
what comes after it in an element is up to the caller.

* `nsSort_compareInt` — whatever the numbers are, each is followed by one that is at most
  `INT_MAX + 1` larger, or by one that is more than `INT_MAX` smaller; so the result is
  ascending if and only if its neighbours differ by `int`s.
* `nsSort_compareInt_iff` — all arrangements of an array come out ascending if and only if
  all its numbers differ by `int`s.
-/

namespace Refcode.Lists

open Refcode.Lib

variable {w : ℕ}

/-! ## Numbers and records -/

/-- The number that a record begins with. -/
def intOf (r : List Byte) : BitVec 32 := wordOfBytes 4 fun i => r.getD i 0

/-- What `compare_int` answers for two records. -/
def relInt (a b : List Byte) : Int := (intOf a - intOf b).toInt

/-- The `int` at the start of an element. -/
def SortArgs.intAt (A : SortArgs w Unit) (m : Mem w) (i : ℕ) : ℤ := (loadInt m (A.element i)).toInt

/-- The numbers ascend. -/
def SortArgs.Ascending (A : SortArgs w Unit) (m : Mem w) : Prop :=
  ∀ i j, i ≤ j → j < A.count.toNat → A.intAt m i ≤ A.intAt m j

/-- An array of elements that begin with an `int`, sorted with `compare_int`. -/
structure SortArgs.OfInts (A : SortArgs w Unit) : Prop where
  fits : A.Fits
  room : 4 ≤ A.stride.toNat
  proc : A.compareProc = compareInt

variable {A : SortArgs w Unit} {m m₀ : Mem w} {s : SortState w Unit} {i : ℕ}

/-- When one number may come before another. -/
theorem relInt_nonpos_iff (a b : List Byte) :
    relInt a b ≤ 0 ↔
      FitsInt ((intOf a).toInt - (intOf b).toInt) ∧ (intOf a).toInt - (intOf b).toInt ≤ 0 ∨
        0x7FFFFFFF < (intOf a).toInt - (intOf b).toInt := by
  have ha := (intOf a).toInt_lt
  have ha' := (intOf a).le_toInt
  have hb := (intOf b).toInt_lt
  have hb' := (intOf b).le_toInt
  rw [relInt]
  rcases toInt_sub_cases (intOf a) (intOf b) with ⟨hfits, heq⟩ | ⟨hover, heq⟩ | ⟨hunder, heq⟩
  · have hle := hfits.2
    simp only [hfits, true_and]
    omega
  · exact iff_of_true (by omega) (.inr (by omega))
  · refine iff_of_false (by omega) ?_
    rintro (⟨⟨hle, -⟩, -⟩ | hlt) <;> omega

theorem relInt_total (a b : List Byte) : relInt a b ≤ 0 ∨ relInt b a ≤ 0 := by
  rw [relInt_nonpos_iff, relInt_nonpos_iff]
  simp only [FitsInt]
  omega

namespace SortArgs.OfInts

variable (h : A.OfInts)
include h

theorem loadInt_element (m : Mem w) (i : ℕ) : loadInt m (A.element i) = intOf (A.record m i) := by
  refine wordOfBytes_congr fun t ht => ?_
  have hroom := h.room
  rw [List.getD_eq_getElem?_getD, SortArgs.record, Mem.read_getElem? (by omega)]
  rfl

theorem intAt_eq (m : Mem w) (i : ℕ) : A.intAt m i = (intOf (A.record m i)).toInt := by
  rw [SortArgs.intAt, h.loadInt_element]

theorem comparesBy (m₀ : Mem w) : A.ComparesBy m₀ relInt := by
  intro m _ i _ j _ x
  rw [h.proc, relInt, ← h.loadInt_element, ← h.loadInt_element]
  rfl

/-- **Neighbours in the result are in the order of `compare_int`.** -/
theorem neighbours (s : SortState w Unit) :
    (A.records (nsSort A s).mem).IsChain (fun a b => relInt a b ≤ 0) ∧
      A.Rearranged s.mem (nsSort A s).mem := by
  have hinit : A.Rearranged s.mem s.mem := .refl
  obtain ⟨hrec, hR⟩ := nsSort_refines h.fits (drives_askBy h.fits (h.comparesBy s.mem)) () hinit
  refine ⟨?_, hR⟩
  rw [hrec]
  exact insertionSort_isChain (T := fun _ => True) (fun _ p x _ _ _ => decide_eq_true_iff)
    (fun a b _ _ => relInt_total a b) fun _ _ => trivial

/-- An array that `compare_int` finds nothing wrong with is left as it is. -/
theorem records_of_isChain (hchain : (A.records s.mem).IsChain fun a b => relInt a b ≤ 0) :
    A.records (nsSort A s).mem = A.records s.mem := by
  have hinit : A.Rearranged s.mem s.mem := .refl
  rw [(nsSort_refines h.fits (drives_askBy h.fits (h.comparesBy s.mem)) () hinit).1]
  exact insertionSort_of_isChain (T := fun _ => True) (fun _ p x _ _ _ => decide_eq_true_iff)
    (fun _ _ => trivial) hchain

/-- The numbers ascend if the records do. -/
theorem ascending_iff :
    A.Ascending m ↔
      (A.records m).Pairwise fun a b => (intOf a).toInt ≤ (intOf b).toInt := by
  rw [List.pairwise_iff_getElem]
  simp only [SortArgs.length_records, SortArgs.Ascending, h.intAt_eq]
  constructor
  · intro hall i j hi hj hij
    simpa [SortArgs.records] using hall i j hij.le hj
  · intro hall i j hij hj
    rcases Nat.lt_or_eq_of_le hij with hlt | rfl
    · simpa [SortArgs.records] using hall i j (hlt.trans hj) hj hlt
    · exact le_rfl

/-- Neighbours that differ by `int`s and are in the order of `compare_int` ascend. -/
theorem ascending_of_isChain (hchain : (A.records m).IsChain fun a b => relInt a b ≤ 0)
    (hdiff : ∀ i, i + 1 < A.count.toNat → FitsInt (A.intAt m i - A.intAt m (i + 1))) :
    A.Ascending m := by
  rw [h.ascending_iff, ← List.isChain_iff_pairwise, List.isChain_iff_getElem]
  intro i hi
  have hrel := List.isChain_iff_getElem.mp hchain i hi
  have hlt : i + 1 < A.count.toNat := by simpa using hi
  have hfits := hdiff i hlt
  rw [h.intAt_eq, h.intAt_eq] at hfits
  simp only [SortArgs.records, List.getElem_map, List.getElem_range] at hrel ⊢
  rcases (relInt_nonpos_iff _ _).mp hrel with ⟨-, hle⟩ | hfar
  · omega
  · exact absurd hfits.2 (by omega)

end SortArgs.OfInts

/-! ## What the sort does to numbers -/

/-- **`ns_sort` with `compare_int`.**  Whatever the numbers are, the result is the same records
in another order, and every number is followed by one that is at most `INT_MAX + 1` larger or
by one that is more than `INT_MAX` smaller.  The result is ascending if and only if the
neighbours in it differ by `int`s. -/
theorem nsSort_compareInt (h : A.OfInts) (s : SortState w Unit) :
    A.Rearranged s.mem (nsSort A s).mem ∧
      (∀ i, i + 1 < A.count.toNat →
        let d := A.intAt (nsSort A s).mem (i + 1) - A.intAt (nsSort A s).mem i
        0 ≤ d ∧ d ≤ 0x80000000 ∨ d < -0x7FFFFFFF) ∧
      (A.Ascending (nsSort A s).mem ↔ ∀ i, i + 1 < A.count.toNat →
        FitsInt (A.intAt (nsSort A s).mem i - A.intAt (nsSort A s).mem (i + 1))) := by
  obtain ⟨hchain, hR⟩ := h.neighbours s
  have hnext : ∀ i, i + 1 < A.count.toNat →
      FitsInt (A.intAt (nsSort A s).mem i - A.intAt (nsSort A s).mem (i + 1)) ∧
          A.intAt (nsSort A s).mem i - A.intAt (nsSort A s).mem (i + 1) ≤ 0 ∨
        0x7FFFFFFF < A.intAt (nsSort A s).mem i - A.intAt (nsSort A s).mem (i + 1) := by
    intro i hi
    have hrel := List.isChain_iff_getElem.mp hchain i (by simpa using hi)
    simp only [SortArgs.records, List.getElem_map, List.getElem_range] at hrel
    rw [h.intAt_eq, h.intAt_eq]
    exact (relInt_nonpos_iff _ _).mp hrel
  refine ⟨hR, fun i hi => ?_, fun hasc i hi => ?_, h.ascending_of_isChain hchain⟩
  · rcases hnext i hi with ⟨⟨hlow, -⟩, hle⟩ | hfar
    · left
      omega
    · right
      omega
  · have hle := hasc i (i + 1) (Nat.le_succ i) hi
    rcases hnext i hi with ⟨hfits, -⟩ | hfar
    · exact hfits
    · omega

/-- The `int`s of an array at address `16`. -/
def intArray (count : BitVec 64) : SortArgs 64 Unit where
  pBase := 16
  count := count
  stride := 4
  compareProc := compareInt
  pUserData := 0

theorem intArray_ofInts : (intArray 3).OfInts := ⟨by decide, by decide, rfl⟩

/-- `INT_MAX`, `INT_MIN` and `0` are left in this order. -/
theorem nsSort_compareInt_extreme :
    let s : SortState 64 Unit := ⟨(intsInMemory 0 [0x7FFFFFFF, 0x80000000, 0]).mem, (), [], []⟩
    ¬ (intArray 3).Ascending (nsSort (intArray 3) s).mem := by
  intro s hasc
  have hdiff := (nsSort_compareInt intArray_ofInts s).2.2.mp hasc 0 (by decide)
  revert hdiff
  decide +kernel

/-! ## Arrangements -/

/-- The memory with the given records in the array. -/
def SortArgs.arrange (A : SortArgs w Unit) (L : List (List Byte)) (m : Mem w) : Mem w := fun a =>
  if A.InArray a then
    (L.getD ((a - A.pBase).toNat / A.stride.toNat) []).getD
      ((a - A.pBase).toNat % A.stride.toNat) 0
  else m a

theorem SortArgs.element_eq_offset (A : SortArgs w Unit) (i : ℕ) :
    A.element i = A.pBase + BitVec.ofNat w (i * A.stride.toNat) := by
  rw [SortArgs.element, Lists.element, BitVec.ofNat_mul, BitVec.ofNat_toNat, BitVec.setWidth_eq]

/-- Every list of records that has the size of the array can be put there. -/
theorem SortArgs.records_arrange {L : List (List Byte)} (hfits : A.Fits)
    (hlen : L.length = A.count.toNat) (hsize : ∀ r ∈ L, r.length = A.stride.toNat) (m : Mem w) :
    A.records (A.arrange L m) = L := by
  refine SortArgs.records_eq hlen fun i hi => ?_
  have hget : i < L.length := hlen ▸ hi
  rw [List.getElem?_eq_getElem hget, Option.some.injEq]
  have hrow : L[i].length = A.stride.toNat := hsize _ (List.getElem_mem hget)
  refine List.ext_getElem? fun t => ?_
  rcases Nat.lt_or_ge t A.stride.toNat with ht | ht
  · have hend := mul_add_le_mul (n := A.stride.toNat) hi
    have hbound : i * A.stride.toNat + t < 2 ^ w := by
      unfold SortArgs.Fits at hfits
      omega
    have hin : A.InArray (A.element i + BitVec.ofNat w t) :=
      hfits.element_inArray hi (inRange_offset ht A.stride.isLt.le)
    have hoff : (A.element i + BitVec.ofNat w t - A.pBase).toNat = i * A.stride.toNat + t := by
      rw [A.element_eq_offset, offset_add, toNat_offset_sub hbound]
    have hdiv : (i * A.stride.toNat + t) / A.stride.toNat = i := by
      rw [Nat.mul_comm, Nat.mul_add_div (by omega), Nat.div_eq_of_lt ht, Nat.add_zero]
    rw [SortArgs.record, Mem.read_getElem? ht, SortArgs.arrange, if_pos hin, hoff,
      Nat.mul_add_mod_of_lt ht, hdiv]
    simp [hget, hrow, ht]
  · rw [List.getElem?_eq_none (by omega), List.getElem?_eq_none (by simpa [SortArgs.record])]

/-- Every order of the records is an arrangement. -/
theorem SortArgs.arrange_perm {L : List (List Byte)} (hfits : A.Fits)
    (hperm : L.Perm (A.records m)) :
    A.records (A.arrange L m) = L ∧ A.Rearranged m (A.arrange L m) := by
  have hlen : L.length = A.count.toNat := by rw [hperm.length_eq, SortArgs.length_records]
  have hsize : ∀ r ∈ L, r.length = A.stride.toNat := by
    intro r hr
    obtain ⟨i, -, rfl⟩ := SortArgs.mem_records.mp (hperm.mem_iff.mp hr)
    simp [SortArgs.record]
  have hrec := SortArgs.records_arrange hfits hlen hsize m
  refine ⟨hrec, ?_, fun a ha => if_neg ha⟩
  rw [hrec]
  exact hperm

/-! ## An arrangement that stays -/

/-- The records in ascending order of their numbers. -/
def ascending (l : List (List Byte)) : List (List Byte) :=
  l.mergeSort fun a b => (intOf a).toInt ≤ (intOf b).toInt

/-- The records with the numbers from zero on, and after them those below. -/
def rotated (l : List (List Byte)) : List (List Byte) :=
  (ascending l).filter (fun r => 0 ≤ (intOf r).toInt) ++
    (ascending l).filter (fun r => ¬ 0 ≤ (intOf r).toInt)

variable {l : List (List Byte)} {a b : List Byte}

theorem ascending_pairwise (l : List (List Byte)) :
    (ascending l).Pairwise fun a b => (intOf a).toInt ≤ (intOf b).toInt := by
  have hsorted : (ascending l).Pairwise fun a b => decide ((intOf a).toInt ≤ (intOf b).toInt) := by
    refine List.pairwise_mergeSort (fun a b c hab hbc => ?_) (fun a b => ?_) l
    · simp only [decide_eq_true_eq] at *
      omega
    · simp only [Bool.or_eq_true, decide_eq_true_eq]
      omega
  exact hsorted.imp fun hle => of_decide_eq_true hle

theorem rotated_perm (l : List (List Byte)) : (rotated l).Perm l := by
  have hsplit := List.filter_append_perm (fun r => decide (0 ≤ (intOf r).toInt)) (ascending l)
  simp only [← decide_not] at hsplit
  exact hsplit.trans (List.mergeSort_perm l _)

/-- Numbers of one sign differ by an `int`. -/
theorem relInt_of_le (hle : (intOf a).toInt ≤ (intOf b).toInt)
    (hsign : 0 ≤ (intOf a).toInt ↔ 0 ≤ (intOf b).toInt) : relInt a b ≤ 0 := by
  have ha := (intOf a).le_toInt
  have hb := (intOf b).toInt_lt
  refine (relInt_nonpos_iff a b).mpr (.inl ⟨⟨?_, ?_⟩, ?_⟩) <;> omega

/-- **`compare_int` finds nothing wrong** with the numbers from zero on followed by those below,
if two of them are too far apart. -/
theorem rotated_isChain (ha : a ∈ l) (hb : b ∈ l)
    (hfar : 0x7FFFFFFF < (intOf a).toInt - (intOf b).toInt) :
    (rotated l).IsChain fun a b => relInt a b ≤ 0 := by
  have hlow := (intOf b).le_toInt
  have hhigh := (intOf a).toInt_lt
  have hasc := ascending_pairwise l
  have hperm : (ascending l).Perm l := List.mergeSort_perm l _
  refine List.isChain_append.mpr ⟨?_, ?_, ?_⟩
  · refine (List.Pairwise.isChain ((hasc.filter _).imp_of_mem ?_))
    intro x y hx hy hle
    simp only [List.mem_filter, decide_eq_true_eq] at hx hy
    exact relInt_of_le hle (iff_of_true hx.2 hy.2)
  · refine (List.Pairwise.isChain ((hasc.filter _).imp_of_mem ?_))
    intro x y hx hy hle
    simp only [List.mem_filter, decide_eq_true_eq] at hx hy
    exact relInt_of_le hle (iff_of_false hx.2 hy.2)
  · -- the largest number before the smallest
    intro x hx y hy
    have hup : a ∈ (ascending l).filter (fun r => 0 ≤ (intOf r).toInt) :=
      List.mem_filter.mpr ⟨hperm.mem_iff.mpr ha, by rw [decide_eq_true_eq]; omega⟩
    have hdown : b ∈ (ascending l).filter (fun r => ¬ 0 ≤ (intOf r).toInt) :=
      List.mem_filter.mpr ⟨hperm.mem_iff.mpr hb, by rw [decide_eq_true_eq]; omega⟩
    obtain ⟨hne, rfl⟩ := List.mem_getLast?_eq_getLast hx
    have hmax := (hasc.filter _).rel_getLast hup
    rw [List.head?_eq_some_head (List.ne_nil_of_mem hdown), Option.mem_some] at hy
    have hmin := (hasc.filter _).rel_head hdown
    rw [hy] at hmin
    exact (relInt_nonpos_iff _ y).mpr (.inr (by omega))

/-- The larger number comes first. -/
theorem not_pairwise_rotated (ha : a ∈ l) (hb : b ∈ l)
    (hfar : 0x7FFFFFFF < (intOf a).toInt - (intOf b).toInt) :
    ¬ (rotated l).Pairwise fun a b => (intOf a).toInt ≤ (intOf b).toInt := by
  have hlow := (intOf b).le_toInt
  have hhigh := (intOf a).toInt_lt
  have hperm : (ascending l).Perm l := List.mergeSort_perm l _
  intro hpairwise
  have hle := (List.pairwise_append.mp hpairwise).2.2 a
    (List.mem_filter.mpr ⟨hperm.mem_iff.mpr ha, by rw [decide_eq_true_eq]; omega⟩) b
    (List.mem_filter.mpr ⟨hperm.mem_iff.mpr hb, by rw [decide_eq_true_eq]; omega⟩)
  omega

/-- **When every arrangement is sorted.**  `ns_sort` with `compare_int` puts all arrangements of
an array in ascending order if and only if every two numbers of the array differ by an
`int`. -/
theorem nsSort_compareInt_iff (h : A.OfInts) (s : SortState w Unit) :
    (∀ s' : SortState w Unit, A.Rearranged s.mem s'.mem → A.Ascending (nsSort A s').mem) ↔
      ∀ i < A.count.toNat, ∀ j < A.count.toNat, FitsInt (A.intAt s.mem i - A.intAt s.mem j) := by
  constructor
  · intro hall i hi j hj
    by_contra hfits
    -- the larger of the two numbers and the smaller
    obtain ⟨a, ha, b, hb, hfar⟩ : ∃ a ∈ A.records s.mem, ∃ b ∈ A.records s.mem,
        0x7FFFFFFF < (intOf a).toInt - (intOf b).toInt := by
      have hai : A.record s.mem i ∈ A.records s.mem := SortArgs.mem_records.mpr ⟨i, hi, rfl⟩
      have haj : A.record s.mem j ∈ A.records s.mem := SortArgs.mem_records.mpr ⟨j, hj, rfl⟩
      rw [h.intAt_eq, h.intAt_eq, FitsInt, not_and_or] at hfits
      rcases hfits with hlow | hhigh
      · exact ⟨_, haj, _, hai, by omega⟩
      · exact ⟨_, hai, _, haj, by omega⟩
    obtain ⟨hrec, hR⟩ := SortArgs.arrange_perm h.fits (rotated_perm (A.records s.mem))
    let s' : SortState w Unit := { s with mem := A.arrange (rotated (A.records s.mem)) s.mem }
    have hstays : A.records (nsSort A s').mem = A.records s'.mem := by
      refine h.records_of_isChain ?_
      rw [hrec]
      exact rotated_isChain ha hb hfar
    have hasc := hall s' hR
    rw [h.ascending_iff, hstays, hrec] at hasc
    exact not_pairwise_rotated ha hb hfar hasc
  · intro hdiff s' hR
    obtain ⟨hchain, hR'⟩ := h.neighbours s'
    refine h.ascending_of_isChain hchain fun i hi => ?_
    have hmem : ∀ {n}, n < A.count.toNat → A.record (nsSort A s').mem n ∈ A.records s.mem :=
      fun hn => hR.perm.mem_iff.mp (hR'.mem hn)
    obtain ⟨j, hj, hrecj⟩ := SortArgs.mem_records.mp (hmem (Nat.lt_of_succ_lt hi))
    obtain ⟨k, hk, hreck⟩ := SortArgs.mem_records.mp (hmem hi)
    have hfits := hdiff j hj k hk
    rwa [h.intAt_eq, h.intAt_eq, hrecj, hreck, ← h.intAt_eq, ← h.intAt_eq] at hfits

/-- `7`, `-3` and `5` are sorted, in whatever order they stand. -/
theorem nsSort_compareInt_iff_sample :
    let s : SortState 64 Unit := ⟨(intsInMemory 0 [7, -3, 5]).mem, (), [], []⟩
    ∀ s' : SortState 64 Unit, (intArray 3).Rearranged s.mem s'.mem →
      (intArray 3).Ascending (nsSort (intArray 3) s').mem := by
  intro s
  refine (nsSort_compareInt_iff intArray_ofInts s).mpr ?_
  have hdiff : ∀ i < 3, ∀ j < 3,
      FitsInt ((intArray 3).intAt s.mem i - (intArray 3).intAt s.mem j) := by decide +kernel
  exact hdiff

end Refcode.Lists
