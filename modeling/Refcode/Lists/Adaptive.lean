import Refcode.Lib.Inversions
import Refcode.Lists.AnyComparator

/-!
# How much the sort does

With a callback that orders the records, `ns_sort` exchanges neighbours once for each
inversion of the array, byte by byte, and compares once more for each element that does
not go to the front.  Nothing that exchanges neighbours can do with less, and an array in
order is read once and left as it is.

* `nsSortAnswers_refines` — the answers are those of the order on the records.
* `length_nsSort_swapped` — the bytes exchanged, for any callback.
* `nsSort_adaptive` — the result.
-/

namespace Refcode.Lists

open Refcode.Lib

variable {w : ℕ} {σ τ : Type*} {A : SortArgs w σ} {s : SortState w σ} {a b : BitVec w} {j k : ℕ}

/-! ## The answers of an oracle -/

section Answers

variable {ask : ℕ → List Byte → List Byte → τ → Bool × τ} {R : SortState w σ → τ → Prop} {y : τ}
  (hfits : A.Fits) (hD : Drives A ask R)
include hfits hD

/-- The inner loop gets the answers of the insertion of one record. -/
theorem insertLoopAnswers_refines {rev ys : List (List Byte)} {x : List Byte} (hR : R s y)
    (h : A.records s.mem = rev.reverse ++ x :: ys) :
    insertLoopAnswers A rev.length s = settleAnswers ask x rev y := by
  induction rev generalizing s y ys with
  | nil => rfl
  | cons p ps ih =>
    have hsplit : A.records s.mem = ps.reverse ++ p :: x :: ys := by simpa using h
    have hj := (SortArgs.pair_at hsplit).1
    have hans := hD.answer hR hsplit
    rw [List.length_cons, insertLoopAnswers_succ, settleAnswers]
    by_cases hle : (A.compareAt ps.length s).1 ≤ 0
    · simp [hle, hans.mpr hle]
    · have hmoved : A.records (A.exchange ps.length (A.compareAt ps.length s).2).mem
          = ps.reverse ++ x :: p :: ys := records_exchange hfits hj hsplit rfl
      have hnot : ¬ (ask ps.length p x y).1 = true := fun ht => hle (hans.mp ht)
      simp [hle, hnot, ih (hD.move hR hsplit hle) hmoved]

/-- The outer loop gets those of the insertion of all the records that are left. -/
theorem sortLoopAnswers_refines {acc l : List (List Byte)} (hR : R s y)
    (h : A.records s.mem = acc.reverse ++ l) :
    sortLoopAnswers A l.length acc.length s = insertAnswers ask acc l y := by
  induction l generalizing acc s y with
  | nil => rfl
  | cons x xs ih =>
    obtain ⟨hrec, hR'⟩ := insertLoop_refines hfits hD hR h
    have hnext := ih hR' hrec
    rw [length_settle] at hnext
    rw [List.length_cons, sortLoopAnswers, insertAnswers, hnext,
      insertLoopAnswers_refines hfits hD hR h]

/-- **The answers of the callback are those of the oracle.** -/
theorem nsSortAnswers_refines (hR : R s y) :
    nsSortAnswers A s = insertAnswers ask [] (A.records s.mem) y := by
  have hlen : (A.records s.mem).length = A.count.toNat := SortArgs.length_records
  cases hrec : A.records s.mem with
  | nil =>
    have hzero : A.count.toNat - 1 = 0 := by
      rw [hrec, List.length_nil] at hlen
      omega
    rw [nsSortAnswers, hzero]
    rfl
  | cons x xs =>
    have hrounds : A.count.toNat - 1 = xs.length := by
      rw [hrec, List.length_cons] at hlen
      omega
    have hone : A.records s.mem = [x].reverse ++ xs := hrec
    rw [nsSortAnswers, hrounds]
    exact sortLoopAnswers_refines hfits hD hR hone

end Answers

/-! ## The bytes exchanged -/

theorem length_swapBytes_swapped :
    (swapBytes k a b s).swapped.length = s.swapped.length + k := by
  induction k with
  | zero => rfl
  | succ k ih => simp [swapBytes_succ, SortState.swapByte, ih, Nat.add_assoc]

/-- An exchange for each answer above zero. -/
theorem length_insertLoop_swapped : (insertLoop A j s).swapped.length =
    s.swapped.length + (insertLoopAnswers A j s).count false * A.stride.toNat := by
  induction j generalizing s with
  | zero => simp [insertLoop, insertLoopAnswers]
  | succ j ih =>
    have hsame : (A.compareAt j s).2.swapped = s.swapped := rfl
    rw [insertLoop_succ, insertLoopAnswers_succ]
    split
    · simp [hsame]
    · rw [ih, SortArgs.exchange, length_swapBytes_swapped, hsame, List.count_cons_self,
        Nat.succ_mul]
      omega

theorem length_sortLoop_swapped {n i : ℕ} : (sortLoop A n i s).swapped.length =
    s.swapped.length + (sortLoopAnswers A n i s).count false * A.stride.toNat := by
  induction n generalizing i s with
  | zero => simp [sortLoop, sortLoopAnswers]
  | succ n ih =>
    rw [sortLoop, ih, length_insertLoop_swapped, sortLoopAnswers, List.count_append, Nat.add_mul,
      Nat.add_assoc]

/-- **The bytes that `ns_sort` exchanges**, with any callback. -/
theorem length_nsSort_swapped : (nsSort A s).swapped.length =
    s.swapped.length + (nsSortAnswers A s).count false * A.stride.toNat :=
  length_sortLoop_swapped

/-- Without an answer above zero nothing is written. -/
theorem insertLoop_mem (h : false ∉ insertLoopAnswers A j s) : (insertLoop A j s).mem = s.mem := by
  cases j with
  | zero => rfl
  | succ j =>
    rw [insertLoopAnswers_succ] at h
    rw [insertLoop_succ]
    split_ifs at h ⊢
    · rfl
    · simp at h

theorem sortLoop_mem {n i : ℕ} (h : false ∉ sortLoopAnswers A n i s) :
    (sortLoop A n i s).mem = s.mem := by
  induction n generalizing i s with
  | zero => rfl
  | succ n ih =>
    rw [sortLoopAnswers, List.mem_append, not_or] at h
    rw [sortLoop, ih h.2, insertLoop_mem h.1]

/-! ## The result -/

/-- The inversions of the array. -/
def SortArgs.inversions (A : SortArgs w σ) (rel : List Byte → List Byte → Int) (m : Mem w) : ℕ :=
  Lib.inversions (fun a b => rel a b ≤ 0) (A.records m)

/-- The elements of the array that are not below all those before them. -/
def SortArgs.followers (A : SortArgs w σ) (rel : List Byte → List Byte → Int) (m : Mem w) : ℕ :=
  Lib.followers (fun a b => rel a b ≤ 0) [] (A.records m)

variable {rel : List Byte → List Byte → Int}

/-- The first element follows nothing. -/
theorem SortArgs.followers_le {m : Mem w} : A.followers rel m ≤ A.count.toNat - 1 := by
  have hlen : (A.records m).length = A.count.toNat := length_records
  unfold SortArgs.followers
  cases hrec : A.records m with
  | nil => simp [Lib.followers]
  | cons x xs =>
    have hle : Lib.followers (fun a b => rel a b ≤ 0) [x] xs ≤ xs.length := followers_le_length
    rw [hrec, List.length_cons] at hlen
    rw [followers_nil_cons]
    omega

/-- In an array in order all the others follow it. -/
theorem SortArgs.followers_of_sorted {m : Mem w}
    (h : (A.records m).Pairwise fun a b => rel a b ≤ 0) :
    A.followers rel m = A.count.toNat - 1 := by
  have hlen : (A.records m).length = A.count.toNat := length_records
  unfold SortArgs.followers
  cases hrec : A.records m with
  | nil => simp [← hlen, hrec, Lib.followers]
  | cons x xs =>
    rw [hrec] at h hlen
    have hfirst := (List.pairwise_cons.mp h).1
    rw [followers_nil_cons, followers_eq_length fun z hz => ⟨x, by simp, hfirst z hz⟩, ← hlen,
      List.length_cons, Nat.add_sub_cancel]

section Order

variable (hfits : A.Fits) (hrel : A.ComparesBy s.mem rel)
include hfits hrel

theorem count_true_nsSortAnswers :
    (nsSortAnswers A s).count true = A.followers rel s.mem := by
  have hinit : A.Rearranged s.mem s.mem := .refl
  have hanswers : nsSortAnswers A s = insertAnswers (askBy rel) [] (A.records s.mem) () :=
    nsSortAnswers_refines hfits (drives_askBy hfits hrel) hinit
  rw [hanswers]
  apply count_true_insertAnswers (T := fun _ => True)
  · intro n p x y _ _
    exact decide_eq_true_iff
  · simp
  · simp

theorem count_false_nsSortAnswers (hord : TotalPreorderOn (· ∈ A.records s.mem) rel) :
    (nsSortAnswers A s).count false = A.inversions rel s.mem := by
  have hinit : A.Rearranged s.mem s.mem := .refl
  have hanswers : nsSortAnswers A s = insertAnswers (askBy rel) [] (A.records s.mem) () :=
    nsSortAnswers_refines hfits (drives_askBy hfits hrel) hinit
  have hcount : (insertAnswers (askBy rel) [] (A.records s.mem) ()).count false =
      crossings (fun a b => rel a b ≤ 0) [] (A.records s.mem) + A.inversions rel s.mem := by
    apply count_false_insertAnswers (T := (· ∈ A.records s.mem))
    · intro n p x y _ _
      exact decide_eq_true_iff
    · intro a b ha hb
      exact hord.total ha hb
    · intro a b c ha hb hc
      exact hord.trans a b c ha hb hc
    · simp
    · simp
    · exact .nil
  rw [hanswers, hcount, crossings_nil, Nat.zero_add]

/-- **What `ns_sort` costs.**  If the callback compares elements by a total preorder on
their contents, the sort exchanges `stride` bytes for each inversion, as few as any
sequence of exchanges of neighbours that sorts the array; it compares once for each
inversion and once for each element that is not below all those before it, of which there
are fewer than elements.  An array in order is not written to. -/
theorem nsSort_adaptive (hord : TotalPreorderOn (· ∈ A.records s.mem) rel) :
    (nsSort A s).swapped.length
        = s.swapped.length + A.inversions rel s.mem * A.stride.toNat ∧
      (∀ n L, Exchanges (A.records s.mem) n L → L.Pairwise (fun a b => rel a b ≤ 0) →
        (nsSort A s).swapped.length ≤ s.swapped.length + n * A.stride.toNat) ∧
      (nsSort A s).compared.length
        = s.compared.length + A.inversions rel s.mem + A.followers rel s.mem ∧
      A.followers rel s.mem ≤ A.count.toNat - 1 ∧
      ((A.records s.mem).Pairwise (fun a b => rel a b ≤ 0) →
        (nsSort A s).mem = s.mem ∧
          (nsSort A s).compared.length = s.compared.length + (A.count.toNat - 1)) := by
  have hfalse := count_false_nsSortAnswers hfits hrel hord
  have htrue := count_true_nsSortAnswers hfits hrel
  have hswapped : (nsSort A s).swapped.length = _ := length_nsSort_swapped
  have hcompared : (nsSort A s).compared.length
      = s.compared.length + A.inversions rel s.mem + A.followers rel s.mem := by
    rw [nsSort, length_sortLoop_compared, ← hfalse, ← htrue, nsSortAnswers]
    have hboth := List.count_false_add_count_true
      (sortLoopAnswers A (A.count.toNat - 1) 1 s)
    omega
  rw [hfalse] at hswapped
  refine ⟨hswapped, ?_, hcompared, SortArgs.followers_le, ?_⟩
  · intro n L hL hsorted
    have hleast : A.inversions rel s.mem ≤ Lib.inversions (fun a b => rel a b ≤ 0) L + n :=
      hL.inversions_le
    rw [inversions_eq_zero.mpr hsorted, Nat.zero_add] at hleast
    rw [hswapped]
    exact Nat.add_le_add_left (Nat.mul_le_mul_right _ hleast) _
  · intro hsorted
    have hzero : A.inversions rel s.mem = 0 := inversions_eq_zero.mpr hsorted
    refine ⟨sortLoop_mem ?_, ?_⟩
    · rw [← List.count_eq_zero]
      exact hfalse.trans hzero
    · rw [hcompared, hzero, SortArgs.followers_of_sorted hsorted, Nat.add_zero]

end Order

/-- The bytes `9`, `5` and `7` have two inversions, and `7` is not below `5`. -/
theorem nsSort_adaptive_byteArray :
    (nsSort byteArray byteState).swapped.length = 2 ∧
      (nsSort byteArray byteState).compared.length = 3 := by
  let rel : List Byte → List Byte → Int := fun a b => byteValue (some a) - byteValue (some b)
  have hrel : byteArray.ComparesBy byteState.mem rel := by
    intro m _ i _ j _ x
    simp only [rel, byteValue_record]
    rfl
  have hord : TotalPreorderOn (· ∈ byteArray.records byteState.mem) rel :=
    ⟨fun a b _ _ => by simp only [rel]; omega, fun a b c _ _ _ => by simp only [rel]; omega⟩
  obtain ⟨hswapped, -, hcompared, -, -⟩ := nsSort_adaptive (by decide) hrel hord
  have hinversions : byteArray.inversions rel byteState.mem = 2 := by decide
  have hfollowers : byteArray.followers rel byteState.mem = 1 := by decide
  rw [hinversions] at hswapped hcompared
  rw [hfollowers] at hcompared
  exact ⟨hswapped, hcompared⟩

end Refcode.Lists
