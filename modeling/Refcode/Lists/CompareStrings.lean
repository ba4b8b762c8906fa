import Refcode.Lib.CString
import Refcode.Lists.BinarySearch

/-!
# Searching a list of strings

The second sample of `search.c` looks for a string in a list of pointers to strings:
`compare_strings` takes the key as it is, and loads the pointer that an element is.  Only
the sign of what `strcmp` answers is known.

* `nsBinarySearch_answers_iff`, `nsSortedSearch_answers_iff` — on a falling list, when
  the searches answer right.
* `searchStrings_iff` — on a sorted list of strings, in terms of the strings.
-/

namespace Refcode.Lists

open Refcode.Lib

/-! ## When the searches are right -/

section Answers

variable {w : ℕ} {σ : Type*} {Q : Query w σ} {c : ℕ → SignType} {x : σ} {fuel : ℕ}

/-- A key below the first element is below all of them, and the binary search leaves the
list. -/
theorem nsBinarySearch_wrong {r : Found w σ} (hc : Q.Signs c) (hfall : Falling c Q.count.toNat)
    (hcount : Q.count ≠ 0) (hfirst : c 0 = -1) (hr : nsBinarySearch Q fuel x = some r) :
    ¬ Answers Q c r := by
  intro hans
  have hneg : ∀ i < Q.count, ∀ y, (Q.compare i y).1 < 0 := by
    intro i hi y
    exact (hc.neg_iff hi).mpr (hfall.neg (Nat.zero_le _) hi hfirst)
  obtain ⟨i, hi, hout⟩ := nsBinarySearch_leaves hcount hneg hr
  exact hout (hans.probes_lt i hi)

theorem nsBinarySearch_answers_iff (hw : 2 ≤ w) (hc : Q.Signs c)
    (hfall : Falling c Q.count.toNat) :
    (∃ fuel r, nsBinarySearch Q fuel x = some r ∧ Answers Q c r) ↔ Q.count = 0 ∨ c 0 ≠ -1 := by
  refine ⟨?_, fun h => ?_⟩
  · rintro ⟨fuel, r, hr, hans⟩
    by_contra hnot
    push Not at hnot
    exact nsBinarySearch_wrong hc hfall hnot.1 hnot.2 hr hans
  · exact ⟨_, nsBinarySearch_total hw hc hfall (fun hcount => h.resolve_left hcount)
      (Nat.lt_succ_self _)⟩

theorem nsSortedSearch_answers_iff (hw : 4 ≤ w) (hc : Q.Signs c)
    (hfall : Falling c Q.count.toNat) :
    (∃ fuel r, nsSortedSearch Q fuel x = some r ∧ Answers Q c r) ↔ Q.count < 10 ∨ c 0 ≠ -1 := by
  refine ⟨?_, fun h => ?_⟩
  · rintro ⟨fuel, r, hr, hans⟩
    by_contra hnot
    rw [not_or, Ne, not_not] at hnot
    rw [nsSortedSearch, if_neg hnot.1] at hr
    have hcount : Q.count ≠ 0 := by
      intro h0
      have hpos := zero_lt_of_long hw hnot.1
      simp [h0] at hpos
    exact nsBinarySearch_wrong hc hfall hcount hnot.2 hr hans
  · exact ⟨_, nsSortedSearch_total hw hc hfall (fun hlong => h.resolve_left hlong)
      (Nat.lt_succ_self _)⟩

end Answers

/-! ## Lists of strings -/

variable {q : ℕ} {σ : Type*} {strcmp : Mem (8 * q) → BitVec (8 * q) → BitVec (8 * q) → ℤ}

/-- `compare_strings`, on a machine with pointers of `q` bytes. -/
def compareStrings (strcmp : Mem (8 * q) → BitVec (8 * q) → BitVec (8 * q) → ℤ) :
    CompareProc (8 * q) σ := fun _context a b m x => (strcmp m a (m.loadWord b), x)

/-- `sizeof(char*)`. -/
def sizeofPointer (q : ℕ) : BitVec (8 * q) := BitVec.ofNat (8 * q) q

/-- A list of pointers to strings in memory, and a string to look for. -/
structure StringList (q : ℕ) where
  pKey : BitVec (8 * q)
  pList : BitVec (8 * q)
  count : BitVec (8 * q)
  pUserData : BitVec (8 * q)
  mem : Mem (8 * q)
  key : List ℕ
  text : ℕ → List ℕ
  pList_ne : pList ≠ 0
  fits : pList.toNat + count.toNat * (sizeofPointer q).toNat ≤ 2 ^ (8 * q)
  key_at : CString mem pKey key
  text_at : ∀ i < count,
    CString mem (mem.loadWord (element pList (sizeofPointer q) i)) (text i.toNat)

/-- The strings in ascending order. -/
structure SortedStrings (q : ℕ) extends StringList q where
  sorted : ∀ i j, i ≤ j → j < count.toNat → text i ≤ text j

/-- The call of a search with `sizeof(char*)` and `compare_strings`. -/
def StringList.query (L : StringList q)
    (strcmp : Mem (8 * q) → BitVec (8 * q) → BitVec (8 * q) → ℤ) : Query (8 * q) σ where
  pKey := L.pKey
  pList := L.pList
  count := L.count
  stride := sizeofPointer q
  compareProc := compareStrings strcmp
  pUserData := L.pUserData
  mem := L.mem

/-- The address of an element of the list. -/
def StringList.element (L : StringList q) (i : BitVec (8 * q)) : BitVec (8 * q) :=
  Lists.element L.pList (sizeofPointer q) i

/-- **A right answer**: the list only was looked at, and what is returned points to the
key, or is `NULL` because no string of the list is the key. -/
structure StringList.Located (L : StringList q) (r : Found (8 * q) σ) : Prop where
  probes_lt : ∀ i ∈ r.probes, i < L.count
  result : (r.result = none ∧ ∀ i < L.count, L.text i.toNat ≠ L.key) ∨
    ∃ i < L.count, r.result = some (L.element i) ∧ L.element i ≠ 0 ∧ L.text i.toNat = L.key

namespace StringList

variable {L : StringList q}

theorem query_signs (hstrcmp : IsStrcmp strcmp) (L : StringList q) :
    (L.query strcmp : Query (8 * q) σ).Signs fun i => side L.key (L.text i) := by
  intro i hi x
  exact hstrcmp _ _ _ _ _ L.key_at (L.text_at i hi)

theorem element_ne (L : StringList q) {i : BitVec (8 * q)} (hi : i < L.count) :
    L.element i ≠ 0 := by
  have hfits : (L.query strcmpBytes : Query (8 * q) Unit).Fits := L.fits
  exact hfits.element_ne_null L.pList_ne hi

/-- Right answers to a comparison by `strcmp` are right about the strings. -/
theorem located_iff {r : Found (8 * q) σ} :
    Answers (L.query strcmp) (fun i => side L.key (L.text i)) r ↔ L.Located r := by
  have hside : ∀ i, side L.key (L.text i) = 0 ↔ L.text i = L.key := by
    intro i
    rw [side_eq_zero_iff, eq_comm]
  refine ⟨fun h => ⟨h.probes_lt, ?_⟩, fun h => ⟨h.probes_lt, ?_⟩⟩
  · rcases h.result with ⟨hnull, hnone⟩ | ⟨i, hi, hres, hzero⟩
    · exact .inl ⟨hnull, fun i hi heq => hnone i hi ((hside _).mpr heq)⟩
    · exact .inr ⟨i, hi, hres, L.element_ne hi, (hside _).mp hzero⟩
  · rcases h.result with ⟨hnull, hnone⟩ | ⟨i, hi, hres, -, heq⟩
    · exact .inl ⟨hnull, fun i hi hzero => hnone i hi ((hside _).mp hzero)⟩
    · exact .inr ⟨i, hi, hres, (hside _).mpr heq⟩

end StringList

theorem SortedStrings.falling (L : SortedStrings q) :
    Falling (fun i => side L.key (L.text i)) L.count.toNat :=
  fun i j hij hj => side_le (L.sorted i j hij hj)

/-- **Searching a sorted list of strings** with `compare_strings`, over any `strcmp`.  The
binary search ends inside the list with a right answer if and only if the list is empty or
its first string is not greater than the key; `ns_sorted_search` also for any list
shorter than ten; the linear search always. -/
theorem searchStrings_iff (hq : 0 < q) (hstrcmp : IsStrcmp strcmp) (L : SortedStrings q) (x : σ) :
    ((∃ fuel r, nsBinarySearch (L.query strcmp) fuel x = some r ∧ L.Located r) ↔
      L.count = 0 ∨ L.text 0 ≤ L.key) ∧
    ((∃ fuel r, nsSortedSearch (L.query strcmp) fuel x = some r ∧ L.Located r) ↔
      L.count < 10 ∨ L.text 0 ≤ L.key) ∧
    ∃ fuel r, nsLinearSearch (L.query strcmp) fuel x = some r ∧ L.Located r := by
  have hsigns : (L.query strcmp : Query (8 * q) σ).Signs fun i => side L.key (L.text i) :=
    L.query_signs hstrcmp
  have hfirst : side L.key (L.text 0) ≠ -1 ↔ L.text 0 ≤ L.key := by
    rw [Ne, side_eq_neg_one_iff, not_lt]
  have hbinary := nsBinarySearch_answers_iff (x := x) (by omega) hsigns L.falling
  have hsorted := nsSortedSearch_answers_iff (x := x) (by omega) hsigns L.falling
  obtain ⟨r, hr, hans⟩ := nsLinearSearch_total (x := x) hsigns (Nat.lt_succ_self L.count.toNat)
  simp only [StringList.located_iff] at hbinary hsorted hans
  rw [hfirst] at hbinary hsorted
  exact ⟨hbinary, hsorted, _, r, hr, hans⟩

/-! ## The list of the sample -/

/-- `"apple"`, `"banana"`, `"cherry"` and `"date"`. -/
def fruits : List (List ℕ) :=
  [[97, 112, 112, 108, 101], [98, 97, 110, 97, 110, 97], [99, 104, 101, 114, 114, 121],
    [100, 97, 116, 101]]

/-- The strings from address `128` on, sixteen bytes for each, and the pointers to them
from address `16` on. -/
def fruitMemory : Mem (8 * 8) := fun a =>
  if a < 128 then wordByte (q := 8) (BitVec.ofNat _ (128 + (a.toNat - 16) / 8 * 16))
    ((a.toNat - 16) % 8)
  else BitVec.ofNat 8 ((fruits.getD ((a.toNat - 128) / 16) []).getD ((a.toNat - 128) % 16) 0)

/-- The list and the key of `main`. -/
def sampleStrings : SortedStrings 8 where
  pKey := 160
  pList := 16
  count := 4
  pUserData := 0
  mem := fruitMemory
  key := fruits.getD 2 []
  text := fun i => fruits.getD i []
  pList_ne := by decide
  fits := by decide
  key_at := by
    have hread : readString fruitMemory 16 160 = some (fruits.getD 2 []) := by decide +kernel
    exact readString_sound hread
  text_at := by
    have htext : ∀ i < 4, readString fruitMemory 16 (fruitMemory.loadWord
        (element 16 (sizeofPointer 8) (BitVec.ofNat _ i))) = some (fruits.getD i []) := by
      decide +kernel
    intro i hi
    have hread := htext i.toNat hi
    rw [BitVec.ofNat_toNat, BitVec.setWidth_eq] at hread
    exact readString_sound hread
  sorted := by
    have hsorted : ∀ j < 4, ∀ i ≤ j, fruits.getD i [] ≤ fruits.getD j [] := by decide +kernel
    intro i j hij hj
    exact hsorted j hj i hij

theorem searchStrings_sample : ∃ fuel r,
    nsBinarySearch (sampleStrings.query strcmpBytes) fuel () = some r ∧
      sampleStrings.Located r := by
  have hboth := searchStrings_iff (by norm_num) isStrcmp_strcmpBytes sampleStrings ()
  have hle : sampleStrings.text 0 ≤ sampleStrings.key := by decide +kernel
  exact hboth.1.mpr (.inr hle)

end Refcode.Lists
