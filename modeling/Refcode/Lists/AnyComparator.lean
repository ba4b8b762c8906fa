import Refcode.Lib.Transcript
import Refcode.Lists.SortThenSearch

/-!
# The sort under any comparator

Whatever the callback answers, consistent or not, `ns_sort` stays inside the array and
exchanges whole records.

* `Safe` — what every step of the sort preserves.
* `nsSortAnswers` — what the callback answers, in order.
* `nsSort_any` — at most one comparison for each pair of elements, inside the array; the
  same records afterwards, arranged as insertion on a list arranges them with these
  answers.
-/

namespace Refcode.Lists

open Refcode.Lib

variable {w : ℕ} {σ : Type*} {A : SortArgs w σ} {s s₀ : SortState w σ} {a b p q : BitVec w}
  {j k : ℕ}

/-! ## The answers -/

/-- Whether the callback answers at most zero, in the rounds of the inner loop. -/
def insertLoopAnswers (A : SortArgs w σ) : ℕ → SortState w σ → List Bool
  | 0, _ => []
  | j + 1, s =>
    let r := A.compareAt j s
    if r.1 ≤ 0 then [true] else false :: insertLoopAnswers A j (A.exchange j r.2)

/-- The same in those of the outer loop. -/
def sortLoopAnswers (A : SortArgs w σ) : ℕ → ℕ → SortState w σ → List Bool
  | 0, _, _ => []
  | n + 1, i, s => insertLoopAnswers A i s ++ sortLoopAnswers A n (i + 1) (insertLoop A i s)

def nsSortAnswers (A : SortArgs w σ) (s : SortState w σ) : List Bool :=
  sortLoopAnswers A (A.count.toNat - 1) 1 s

/-! ## What a step preserves -/

/-- All bytes of an element at `p` belong to the array. -/
def SortArgs.Inside (A : SortArgs w σ) (p : BitVec w) : Prop :=
  A.pBase.toNat ≤ p.toNat ∧
    p.toNat + A.stride.toNat ≤ A.pBase.toNat + A.count.toNat * A.stride.toNat

/-- From `s₀` on the records have only been rearranged, and only addresses of the array
have been compared and exchanged. -/
structure SortArgs.Safe (A : SortArgs w σ) (s₀ s : SortState w σ) : Prop where
  rearranged : A.Rearranged s₀.mem s.mem
  compared : ∀ c ∈ s.compared, c ∈ s₀.compared ∨ A.Inside c.1 ∧ A.Inside c.2
  swapped : ∀ c ∈ s.swapped, c ∈ s₀.swapped ∨ A.InArray c.1 ∧ A.InArray c.2

theorem SortArgs.Safe.refl : A.Safe s s := ⟨.refl, fun _ hc => .inl hc, fun _ hc => .inl hc⟩

theorem SortArgs.Fits.inside (hfits : A.Fits) (hj : j < A.count.toNat) :
    A.Inside (A.element j) := by
  have hle := mul_add_le_mul (n := A.stride.toNat) hj
  rw [SortArgs.Inside, hfits.toNat_element hj]
  omega

@[simp] theorem swapBytes_compared : (swapBytes k a b s).compared = s.compared := by
  induction k with
  | zero => rfl
  | succ k ih => rw [swapBytes_succ, SortState.swapByte, ih]

/-- The innermost loop exchanges the bytes at equal offsets. -/
theorem mem_swapBytes_swapped {c : BitVec w × BitVec w} :
    c ∈ (swapBytes k a b s).swapped ↔
      c ∈ s.swapped ∨ ∃ i < k, c = (a + BitVec.ofNat w i, b + BitVec.ofNat w i) := by
  induction k with
  | zero => simp [swapBytes]
  | succ k ih =>
    rw [swapBytes_succ, SortState.swapByte]
    simp only [List.mem_append, ih, List.mem_singleton, Nat.lt_succ_iff_lt_or_eq, or_and_right,
      exists_or, exists_eq_left, or_assoc]

/-- A comparison looks at two elements of the array. -/
theorem SortArgs.Safe.compare (hfits : A.Fits) (h : A.Safe s₀ s) (hj : j + 1 < A.count.toNat) :
    A.Safe s₀ (A.compareAt j s).2 := by
  refine ⟨h.rearranged, ?_, h.swapped⟩
  intro c hc
  rcases List.mem_append.mp hc with hc | hc
  · exact h.compared c hc
  · rw [List.mem_singleton.mp hc]
    exact .inr ⟨hfits.inside (Nat.lt_of_succ_lt hj), hfits.inside hj⟩

/-- An exchange rearranges the records and touches only their bytes. -/
theorem SortArgs.Safe.exchange {rev ys : List (List Byte)} {r x : List Byte} (hfits : A.Fits)
    (h : A.Safe s₀ s) (hrec : A.records s.mem = rev.reverse ++ r :: x :: ys) :
    A.Safe s₀ (A.exchange rev.length s) := by
  have hj := (SortArgs.pair_at hrec).1
  refine ⟨h.rearranged.exchange hfits hrec, ?_, ?_⟩
  · intro c hc
    rw [SortArgs.exchange, swapBytes_compared] at hc
    exact h.compared c hc
  · intro c hc
    rcases mem_swapBytes_swapped.mp hc with hc | ⟨i, hi, rfl⟩
    · exact h.swapped c hc
    · have hle := A.stride.isLt.le
      right
      constructor
      · exact hfits.element_inArray (Nat.lt_of_succ_lt hj) (inRange_offset hi hle)
      · exact hfits.element_inArray hj (inRange_offset hi hle)

/-! ## The run as an insertion -/

/-- The oracle that asks the callback, and keeps the state of the sort. -/
def SortArgs.consult (A : SortArgs w σ) (j : ℕ) (_ _ : List Byte) (s : SortState w σ) :
    Bool × SortState w σ :=
  let r := A.compareAt j s
  if r.1 ≤ 0 then (true, r.2) else (false, A.exchange j r.2)

theorem drives_consult (hfits : A.Fits) :
    Drives A A.consult fun s y => s = y ∧ A.Safe s₀ s := by
  constructor
  · rintro s y rev ys r x ⟨rfl, -⟩ hrec
    simp only [SortArgs.consult]
    split_ifs with hle
    · simp [hle]
    · simp [hle]
  · rintro s y rev ys r x ⟨rfl, hsafe⟩ hrec hle
    have hj := (SortArgs.pair_at hrec).1
    refine ⟨?_, hsafe.compare hfits hj⟩
    simp only [SortArgs.consult, if_pos hle]
  · rintro s y rev ys r x ⟨rfl, hsafe⟩ hrec hle
    have hj := (SortArgs.pair_at hrec).1
    refine ⟨?_, (hsafe.compare hfits hj).exchange hfits hrec⟩
    simp only [SortArgs.consult, if_neg hle]

/-- One round of the inner loop. -/
theorem insertLoop_succ : insertLoop A (j + 1) s =
    if (A.compareAt j s).1 ≤ 0 then (A.compareAt j s).2
    else insertLoop A j (A.exchange j (A.compareAt j s).2) := rfl

theorem insertLoopAnswers_succ : insertLoopAnswers A (j + 1) s =
    if (A.compareAt j s).1 ≤ 0 then [true]
    else false :: insertLoopAnswers A j (A.exchange j (A.compareAt j s).2) := rfl

/-- The inner loop and its answers are those of the insertion of one element. -/
theorem insertLoop_eq_settle {rev : List (List Byte)} {x : List Byte} :
    insertLoop A rev.length s = (settle A.consult x rev s).2 ∧
      insertLoopAnswers A rev.length s = settleAnswers A.consult x rev s := by
  induction rev generalizing s with
  | nil => exact ⟨rfl, rfl⟩
  | cons r rs ih =>
    rw [List.length_cons, insertLoop_succ, insertLoopAnswers_succ, settle, settleAnswers]
    by_cases hle : (A.compareAt rs.length s).1 ≤ 0
    · simp [SortArgs.consult, hle]
    · simp [SortArgs.consult, hle, ih]

theorem sortLoopAnswers_eq {acc l : List (List Byte)} :
    sortLoopAnswers A l.length acc.length s = insertAnswers A.consult acc l s := by
  induction l generalizing acc s with
  | nil => rfl
  | cons x xs ih =>
    obtain ⟨hloop, hanswers⟩ : insertLoop A acc.length s = (settle A.consult x acc s).2 ∧
        insertLoopAnswers A acc.length s = settleAnswers A.consult x acc s := insertLoop_eq_settle
    have hnext := @ih (settle A.consult x acc s).2 (settle A.consult x acc s).1
    rw [length_settle] at hnext
    rw [List.length_cons, sortLoopAnswers, insertAnswers, hanswers, hloop, hnext]

/-- The sort asks what the insertion of its records asks. -/
theorem nsSortAnswers_eq :
    nsSortAnswers A s = insertAnswers A.consult [] (A.records s.mem) s := by
  have hlen : (A.records s.mem).length = A.count.toNat := SortArgs.length_records
  cases hrec : A.records s.mem with
  | nil =>
    have hzero : A.count.toNat - 1 = 0 := by
      rw [hrec, List.length_nil] at hlen
      omega
    rw [nsSortAnswers, hzero]
    rfl
  | cons x xs =>
    have hrounds : A.count.toNat - 1 = xs.length := by
      rw [hrec, List.length_cons] at hlen
      omega
    rw [nsSortAnswers, hrounds]
    have hloop : sortLoopAnswers A xs.length [x].length s = insertAnswers A.consult [x] xs s :=
      sortLoopAnswers_eq
    exact hloop

/-! ## Counting comparisons -/

/-- Every comparison is answered once. -/
theorem length_insertLoop_compared : (insertLoop A j s).compared.length =
    s.compared.length + (insertLoopAnswers A j s).length := by
  induction j generalizing s with
  | zero => rfl
  | succ j ih =>
    have hone : (A.compareAt j s).2.compared.length = s.compared.length + 1 := by
      simp [SortArgs.compareAt, SortArgs.compare]
    rw [insertLoop_succ, insertLoopAnswers_succ]
    split
    · exact hone
    · rw [ih, SortArgs.exchange, swapBytes_compared, hone, List.length_cons]
      omega

theorem length_sortLoop_compared {n i : ℕ} : (sortLoop A n i s).compared.length =
    s.compared.length + (sortLoopAnswers A n i s).length := by
  induction n generalizing i s with
  | zero => rfl
  | succ n ih =>
    rw [sortLoop, ih, length_insertLoop_compared, sortLoopAnswers, List.length_append]
    omega

/-- One comparison for each pair of elements, at most. -/
theorem length_nsSortAnswers_le :
    (nsSortAnswers A s).length ≤ A.count.toNat * (A.count.toNat - 1) / 2 := by
  have hle : ([] : List (List Byte)).length.choose 2 +
      (insertAnswers A.consult [] (A.records s.mem) s).length ≤
        (([] : List (List Byte)).length + (A.records s.mem).length).choose 2 :=
    length_insertAnswers_le
  rw [SortArgs.length_records] at hle
  rw [nsSortAnswers_eq, ← Nat.choose_two_right]
  simpa using hle

/-- **`ns_sort` is safe under any comparator.**  It compares at most once for each pair
of elements, and compares and exchanges inside the array only; what is around the array
stays as it is, the records are the same, and they are arranged as insertion on a list
arranges them that is given the answers of the callback. -/
theorem nsSort_any (A : SortArgs w σ) (hfits : A.Fits) (s : SortState w σ) :
    (nsSort A s).compared.length ≤
        s.compared.length + A.count.toNat * (A.count.toNat - 1) / 2 ∧
      (∀ c ∈ (nsSort A s).compared, c ∈ s.compared ∨ A.Inside c.1 ∧ A.Inside c.2) ∧
      (∀ c ∈ (nsSort A s).swapped, c ∈ s.swapped ∨ A.InArray c.1 ∧ A.InArray c.2) ∧
      (∀ a, ¬ A.InArray a → (nsSort A s).mem a = s.mem a) ∧
      (A.records (nsSort A s).mem).Perm (A.records s.mem) ∧
      A.records (nsSort A s).mem =
        insertionSort replay (A.records s.mem) (nsSortAnswers A s) := by
  obtain ⟨hrec, -, hsafe⟩ := nsSort_refines hfits (drives_consult hfits) s ⟨rfl, .refl⟩
  refine ⟨?_, hsafe.compared, hsafe.swapped, hsafe.rearranged.outside, hsafe.rearranged.perm, ?_⟩
  · have hcount := length_nsSortAnswers_le (A := A) (s := s)
    rw [nsSort, length_sortLoop_compared]
    exact Nat.add_le_add_left hcount _
  · rw [hrec, nsSortAnswers_eq, insertionSort_replay]

/-! ## A callback that contradicts itself -/

/-- Three bytes at address `16`; the callback answers above and below zero in turn. -/
def contraryArray : SortArgs 64 ℕ where
  pBase := 16
  count := 3
  stride := 1
  compareProc := fun _ _ _ _ x => (if x % 2 = 0 then 1 else -1, x + 1)
  pUserData := 0

/-- The bytes `9`, `5` and `7`. -/
def contraryState : SortState 64 ℕ where
  mem := fun a => if a = 16 then 9 else if a = 17 then 5 else 7
  user := 0
  compared := []
  swapped := []

example : nsSortAnswers contraryArray contraryState = [false, true] := by decide

theorem nsSort_any_contrary :
    (nsSort contraryArray contraryState).compared.length ≤ 3 ∧
      (contraryArray.records (nsSort contraryArray contraryState).mem).Perm [[9], [5], [7]] := by
  obtain ⟨hcount, -, -, -, hperm, -⟩ := nsSort_any contraryArray (by decide) contraryState
  exact ⟨hcount, hperm⟩

end Refcode.Lists
