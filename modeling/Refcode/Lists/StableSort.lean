import Refcode.Lib.StableSort
import Refcode.Lists.SortThenSearch

/-!
# The sort is stable

`ns_sort` stops moving an element at the first one that is not greater, so it never
moves it past an equal one.

* `nsSort_stableSorted` — the records of the sorted array are the stable sorted
  rearrangement of those before.
* `nsSort_stable` — the same in terms of the callback and of the positions in the array.
-/

namespace Refcode.Lists

open Refcode.Lib

variable {w : ℕ} {σ : Type*} {A : SortArgs w σ} {s : SortState w σ}
  {rel : List Byte → List Byte → Int}

theorem nsSort_stableSorted (hfits : A.Fits) (hrel : A.ComparesBy s.mem rel)
    (hord : TotalPreorderOn (· ∈ A.records s.mem) rel) :
    StableSorted (fun a b => rel a b ≤ 0) (A.records s.mem) (A.records (nsSort A s).mem) := by
  have hinit : A.Rearranged s.mem s.mem := .refl
  rw [(nsSort_refines hfits (drives_askBy hfits hrel) () hinit).1]
  apply insertionSort_stableSorted (T := (· ∈ A.records s.mem))
  · intro n p x y _ _
    exact decide_eq_true_iff
  · intro a b ha hb
    exact hord.total ha hb
  · intro a b c ha hb hc
    exact hord.trans a b c ha hb hc
  · intro p hp
    exact hp

/-- **`ns_sort` is a stable sort.**  If the callback compares elements by a total
preorder on their contents, the array holds afterwards the one stable sorted
rearrangement of its records: neighbours compare at most equal, no record is lost or
broken, and two that compare equal stand in the order they had. -/
theorem nsSort_stable (hfits : A.Fits) (hrel : A.ComparesBy s.mem rel)
    (hord : TotalPreorderOn (· ∈ A.records s.mem) rel) :
    (∀ L, StableSorted (fun a b => rel a b ≤ 0) (A.records s.mem) L ↔
        L = A.records (nsSort A s).mem) ∧
      (∀ i, i + 1 < A.count.toNat → ∀ x, (A.compareProc A.pUserData (A.element i)
        (A.element (i + 1)) (nsSort A s).mem x).1 ≤ 0) ∧
      A.Rearranged s.mem (nsSort A s).mem ∧
      ∃ π : Equiv.Perm (Fin A.count.toNat),
        (∀ i : Fin A.count.toNat, A.record (nsSort A s).mem i = A.record s.mem (π i)) ∧
        ∀ i j : Fin A.count.toNat, i < j → ∀ x,
          (A.compareProc A.pUserData (A.element i) (A.element j) (nsSort A s).mem x).1 = 0 →
            π i < π j := by
  have hstable := nsSort_stableSorted hfits hrel hord
  obtain ⟨hsorted, hm⟩ := nsSort_sorted hfits hrel hord
  set m := (nsSort A s).mem
  refine ⟨?_, ?_, hm, ?_⟩
  · intro L
    constructor
    · intro hL
      exact hL.unique hstable
    · rintro rfl
      exact hstable
  · intro i hi x
    have hle : rel (A.record m i) (A.record m (i + 1)) ≤ 0 := by
      have hpair := List.pairwise_iff_getElem.mp hsorted i (i + 1) (by simp; omega)
        (by simpa using hi) (Nat.lt_succ_self i)
      simpa [SortArgs.records] using hpair
    exact (nonpos_iff_of_sign_eq (hrel m hm i (by omega) (i + 1) hi x)).mpr hle
  · obtain ⟨π, hfrom, horder⟩ := hstable.positions SortArgs.length_records
    refine ⟨π, ?_, ?_⟩
    · intro i
      have heq := hfrom i
      rw [SortArgs.records_getElem? i.isLt, SortArgs.records_getElem? (π i).isLt] at heq
      exact Option.some_inj.mp heq
    · intro i j hij x hzero
      have hsign := hrel m hm i i.isLt j j.isLt x
      rw [hzero, sign_zero, eq_comm, sign_eq_zero_iff] at hsign
      have hback : rel (A.record m j) (A.record m i) ≤ 0 := by
        by_contra hpos
        have hneg := (hord.antisymm _ _ (hm.mem i.isLt) (hm.mem j.isLt)).mpr (not_le.mp hpos)
        omega
      exact horder i j hij _ _ (SortArgs.records_getElem? i.isLt)
        (SortArgs.records_getElem? j.isLt) hback

/-! ## An array of pairs -/

/-- Three pairs of bytes at address `16`, compared by their first bytes. -/
def pairArray : SortArgs 64 Unit where
  pBase := 16
  count := 3
  stride := 2
  compareProc := fun _ a b m x => ((m a).toNat - (m b).toNat, x)
  pUserData := 0

/-- The pairs `(5, 0)`, `(3, 0)` and `(5, 1)`. -/
def pairState : SortState 64 Unit where
  mem := fun a => if a = 16 ∨ a = 20 then 5 else if a = 18 then 3 else if a = 21 then 1 else 0
  user := ()
  compared := []
  swapped := []

example : pairArray.records (nsSort pairArray pairState).mem = [[3, 0], [5, 0], [5, 1]] := by
  decide

theorem nsSort_stable_pairArray : ∃ π : Equiv.Perm (Fin 3),
    pairArray.record (nsSort pairArray pairState).mem 1 = pairArray.record pairState.mem (π 1) ∧
      π 1 < π 2 := by
  let rel : List Byte → List Byte → Int := fun a b => (a.headD 0).toNat - (b.headD 0).toNat
  have hrel : pairArray.ComparesBy pairState.mem rel := by
    intro m _ i _ j _ x
    have hhead : ∀ i, (pairArray.record m i).headD 0 = m (pairArray.element i) := by
      intro i
      simp [SortArgs.record, pairArray, Mem.read, List.range_succ]
    simp only [rel, hhead]
    rfl
  have hord : TotalPreorderOn (· ∈ pairArray.records pairState.mem) rel :=
    ⟨fun a b _ _ => by simp only [rel]; omega, fun a b c _ _ _ => by simp only [rel]; omega⟩
  obtain ⟨-, -, -, π, hfrom, horder⟩ := nsSort_stable (by decide) hrel hord
  exact ⟨π, hfrom (1 : Fin 3), horder (1 : Fin 3) (2 : Fin 3) (by decide) () (by decide)⟩

end Refcode.Lists
