import Refcode.Lib.InsertionSort
import Refcode.Lists.Sort

/-!
# The sort as a sort of records

An array that fits in memory is a list of records of `stride` bytes.  Exchanging
two neighbouring elements byte by byte exchanges their records (`records_exchange`),
so `ns_sort` is insertion by adjacent exchanges on the list of records, driven by
whatever the callback answers: `nsSort_refines`.
-/

namespace Refcode.Lists

open Refcode.Lib

variable {w : ℕ} {σ τ : Type*}

/-! ## Records -/

/-- The bytes of the element at an index. -/
def SortArgs.record (A : SortArgs w σ) (m : Mem w) (i : ℕ) : List Byte :=
  m.read (A.element i) A.stride.toNat

/-- The array as a list of records. -/
def SortArgs.records (A : SortArgs w σ) (m : Mem w) : List (List Byte) :=
  (List.range A.count.toNat).map (A.record m)

/-- The byte at `a` belongs to the array. -/
def SortArgs.InArray (A : SortArgs w σ) (a : BitVec w) : Prop :=
  InRange A.pBase (A.count.toNat * A.stride.toNat) a

/-- The array does not pass the top of the address space. -/
def SortArgs.Fits (A : SortArgs w σ) : Prop :=
  A.pBase.toNat + A.count.toNat * A.stride.toNat ≤ 2 ^ w

instance (A : SortArgs w σ) (a : BitVec w) : Decidable (A.InArray a) :=
  inferInstanceAs (Decidable (InRange _ _ a))

instance (A : SortArgs w σ) : Decidable A.Fits := inferInstanceAs (Decidable (_ ≤ _))

variable {A : SortArgs w σ} {m : Mem w} {i j : ℕ} {s : SortState w σ}

@[simp] theorem SortArgs.length_records : (A.records m).length = A.count.toNat := by
  simp [SortArgs.records]

theorem SortArgs.records_getElem? (hi : i < A.count.toNat) :
    (A.records m)[i]? = some (A.record m i) := by
  simp [SortArgs.records, hi]

theorem SortArgs.mem_records {r : List Byte} :
    r ∈ A.records m ↔ ∃ i < A.count.toNat, A.record m i = r := by
  simp [SortArgs.records]

/-- The list of records is determined by its entries. -/
theorem SortArgs.records_eq {L : List (List Byte)} (hlen : L.length = A.count.toNat)
    (h : ∀ i < A.count.toNat, L[i]? = some (A.record m i)) : A.records m = L := by
  refine List.ext_getElem? fun i => ?_
  rcases Nat.lt_or_ge i A.count.toNat with hi | hi
  · rw [SortArgs.records_getElem? hi, h i hi]
  · rw [List.getElem?_eq_none (by simpa using hi), List.getElem?_eq_none (by omega)]

/-- The two records behind a stretch of others, and where they are. -/
theorem SortArgs.pair_at {rev ys : List (List Byte)} {p x : List Byte}
    (h : A.records m = rev.reverse ++ p :: x :: ys) :
    rev.length + 1 < A.count.toNat ∧ A.record m rev.length = p ∧
      A.record m (rev.length + 1) = x := by
  have hlt : rev.length + 1 < A.count.toNat := by
    have := congrArg List.length h
    simp at this
    omega
  have hp : (A.records m)[rev.length]? = some p := by simp [h]
  have hx : (A.records m)[rev.length + 1]? = some x := by simp [h]
  rw [SortArgs.records_getElem? (Nat.lt_of_succ_lt hlt)] at hp
  rw [SortArgs.records_getElem? hlt] at hx
  exact ⟨hlt, Option.some.inj hp, Option.some.inj hx⟩

/-- One element ends where the next begins. -/
theorem mul_add_le_mul {n : ℕ} (h : i < j) : i * n + n ≤ j * n :=
  (Nat.succ_mul i n).symm.le.trans (Nat.mul_le_mul_right n h)

namespace SortArgs.Fits

variable (hfits : A.Fits)
include hfits

/-- Addresses of elements are not wrapped. -/
theorem toNat_element (hi : i < A.count.toNat) :
    (A.element i).toNat = A.pBase.toNat + i * A.stride.toNat := by
  have hle := mul_add_le_mul (n := A.stride.toNat) hi
  have hbase := A.pBase.isLt
  have hcount := A.count.isLt
  have hlt : A.pBase.toNat + i * A.stride.toNat < 2 ^ w := by
    unfold SortArgs.Fits at hfits
    rcases Nat.eq_zero_or_pos A.stride.toNat with h0 | hpos
    · rwa [h0, Nat.mul_zero, Nat.add_zero]
    · omega
  have hmul : (BitVec.ofNat w i * A.stride).toNat = i * A.stride.toNat := by
    rw [BitVec.toNat_mul, toNat_small (by omega), Nat.mod_eq_of_lt (by omega)]
  rw [SortArgs.element, Lists.element, BitVec.toNat_add_of_lt (by rw [hmul]; exact hlt), hmul]

/-- An element ends inside the address space. -/
theorem element_add_le (hi : i < A.count.toNat) :
    (A.element i).toNat + A.stride.toNat ≤ 2 ^ w := by
  have hle := mul_add_le_mul (n := A.stride.toNat) hi
  have := hfits.toNat_element hi
  unfold SortArgs.Fits at hfits
  omega

/-- The bytes of different elements are different. -/
theorem element_apart (hi : i < A.count.toNat) (hj : j < A.count.toNat) (hne : i ≠ j)
    {a : BitVec w} (ha : InRange (A.element i) A.stride.toNat a) :
    ¬ InRange (A.element j) A.stride.toNat a := by
  rw [inRange_iff (hfits.element_add_le hi), hfits.toNat_element hi] at ha
  rw [inRange_iff (hfits.element_add_le hj), hfits.toNat_element hj]
  rcases Nat.lt_or_gt_of_ne hne with h | h
  · have := mul_add_le_mul (n := A.stride.toNat) h
    omega
  · have := mul_add_le_mul (n := A.stride.toNat) h
    omega

/-- The bytes of an element belong to the array. -/
theorem element_inArray (hi : i < A.count.toNat) {a : BitVec w}
    (ha : InRange (A.element i) A.stride.toNat a) : A.InArray a := by
  have hle := mul_add_le_mul (n := A.stride.toNat) hi
  rw [inRange_iff (hfits.element_add_le hi), hfits.toNat_element hi] at ha
  rw [SortArgs.InArray, inRange_iff hfits]
  omega

/-- No element of an array is at `NULL`. -/
theorem element_ne_null (hbase : A.pBase ≠ 0) (hi : i < A.count.toNat) : A.element i ≠ 0 := by
  intro h0
  have hnat := hfits.toNat_element hi
  rw [h0] at hnat
  have := toNat_ne_zero hbase
  simp at hnat
  omega

/-- The element before another one ends where that one begins. -/
theorem element_succ (hj : j + 1 < A.count.toNat) :
    (A.element j).toNat + A.stride.toNat = (A.element (j + 1)).toNat := by
  rw [hfits.toNat_element (Nat.lt_of_succ_lt hj), hfits.toNat_element hj, Nat.succ_mul]
  omega

end SortArgs.Fits

/-! ## Exchanging neighbours -/

/-- Exchange the elements at `j` and `j + 1`. -/
def SortArgs.exchange (A : SortArgs w σ) (j : ℕ) (s : SortState w σ) : SortState w σ :=
  swapBytes A.stride.toNat (A.element j) (A.element (j + 1)) s

section Exchange

variable (hfits : A.Fits) (hj : j + 1 < A.count.toNat)
include hfits hj

/-- Nothing outside the two elements changes. -/
theorem exchange_mem {a : BitVec w} (h1 : ¬ InRange (A.element j) A.stride.toNat a)
    (h2 : ¬ InRange (A.element (j + 1)) A.stride.toNat a) : (A.exchange j s).mem a = s.mem a :=
  (swapBytes_spec (hfits.element_succ hj).le (hfits.element_add_le hj)).2 a h1 h2

theorem exchange_outside {a : BitVec w} (ha : ¬ A.InArray a) :
    (A.exchange j s).mem a = s.mem a :=
  exchange_mem hfits hj (fun h => ha (hfits.element_inArray (Nat.lt_of_succ_lt hj) h))
    fun h => ha (hfits.element_inArray hj h)

theorem record_exchange_left : A.record (A.exchange j s).mem j = A.record s.mem (j + 1) :=
  Mem.read_congr fun t ht =>
    ((swapBytes_spec (hfits.element_succ hj).le (hfits.element_add_le hj)).1 t ht).1

theorem record_exchange_right : A.record (A.exchange j s).mem (j + 1) = A.record s.mem j :=
  Mem.read_congr fun t ht =>
    ((swapBytes_spec (hfits.element_succ hj).le (hfits.element_add_le hj)).1 t ht).2

theorem record_exchange_other (hi : i < A.count.toNat) (h1 : i ≠ j) (h2 : i ≠ j + 1) :
    A.record (A.exchange j s).mem i = A.record s.mem i := by
  refine Mem.read_congr fun t ht => ?_
  have hin := inRange_offset (p := A.element i) ht A.stride.isLt.le
  exact exchange_mem hfits hj (hfits.element_apart hi (Nat.lt_of_succ_lt hj) h1 hin)
    (hfits.element_apart hi hj h2 hin)

/-- **Exchanging two elements exchanges their records.** -/
theorem records_exchange {rev ys : List (List Byte)} {p x : List Byte}
    (h : A.records s.mem = rev.reverse ++ p :: x :: ys) (hrev : rev.length = j) :
    A.records (A.exchange j s).mem = rev.reverse ++ x :: p :: ys := by
  have hlen := congrArg List.length h
  have hentry : ∀ i < A.count.toNat,
      (rev.reverse ++ p :: x :: ys)[i]? = some (A.record s.mem i) := fun i hi => by
    rw [← h, SortArgs.records_getElem? hi]
  have hrevlen : rev.reverse.length = j := by rw [List.length_reverse, hrev]
  refine SortArgs.records_eq (by simpa using hlen.symm) fun i hi => ?_
  by_cases h1 : i = j
  · subst h1
    have hx := hentry (i + 1) hj
    rw [List.getElem?_append_right (by omega)] at hx ⊢
    rw [record_exchange_left hfits hj, ← hx, hrevlen]
    simp
  · by_cases h2 : i = j + 1
    · subst h2
      have hp := hentry j (Nat.lt_of_succ_lt hj)
      rw [List.getElem?_append_right (by omega)] at hp ⊢
      rw [record_exchange_right hfits hj, ← hp, hrevlen]
      simp
    · rw [record_exchange_other hfits hj hi h1 h2, ← hentry i hi]
      rcases Nat.lt_or_gt_of_ne h1 with hlt | hgt
      · rw [List.getElem?_append_left (by omega), List.getElem?_append_left (by omega)]
      · rw [List.getElem?_append_right (by omega), List.getElem?_append_right (by omega), hrevlen]
        obtain ⟨k, hk⟩ : ∃ k, i - j = k + 2 := ⟨i - j - 2, by omega⟩
        rw [hk]
        rfl

end Exchange

/-! ## The loops -/

/-- The call of the callback for the elements at `j` and `j + 1`. -/
def SortArgs.compareAt (A : SortArgs w σ) (j : ℕ) (s : SortState w σ) : Int × SortState w σ :=
  A.compare (A.element j) (A.element (j + 1)) s

/-- The oracle `ask` answers on records as the callback does on elements, as long
as its state is related to that of the sort. -/
structure Drives (A : SortArgs w σ) (ask : ℕ → List Byte → List Byte → τ → Bool × τ)
    (R : SortState w σ → τ → Prop) : Prop where
  answer : ∀ {s : SortState w σ} {y : τ} {rev ys : List (List Byte)} {p x : List Byte},
    R s y → A.records s.mem = rev.reverse ++ p :: x :: ys →
      ((ask rev.length p x y).1 = true ↔ (A.compareAt rev.length s).1 ≤ 0)
  stay : ∀ {s : SortState w σ} {y : τ} {rev ys : List (List Byte)} {p x : List Byte},
    R s y → A.records s.mem = rev.reverse ++ p :: x :: ys → (A.compareAt rev.length s).1 ≤ 0 →
      R (A.compareAt rev.length s).2 (ask rev.length p x y).2
  move : ∀ {s : SortState w σ} {y : τ} {rev ys : List (List Byte)} {p x : List Byte},
    R s y → A.records s.mem = rev.reverse ++ p :: x :: ys → ¬ (A.compareAt rev.length s).1 ≤ 0 →
      R (A.exchange rev.length (A.compareAt rev.length s).2) (ask rev.length p x y).2

section Loops

variable {ask : ℕ → List Byte → List Byte → τ → Bool × τ} {R : SortState w σ → τ → Prop} {y : τ}
  (hfits : A.Fits) (hD : Drives A ask R)
include hfits hD

/-- The inner loop settles one record. -/
theorem insertLoop_refines {rev ys : List (List Byte)} {x : List Byte} (hR : R s y)
    (h : A.records s.mem = rev.reverse ++ x :: ys) :
    A.records (insertLoop A rev.length s).mem = (settle ask x rev y).1.reverse ++ ys ∧
      R (insertLoop A rev.length s) (settle ask x rev y).2 := by
  induction rev generalizing s y ys with
  | nil => exact ⟨h, hR⟩
  | cons p ps ih =>
    have hsplit : A.records s.mem = ps.reverse ++ p :: x :: ys := by simpa using h
    have hj := (SortArgs.pair_at hsplit).1
    have hans := hD.answer hR hsplit
    have hround : insertLoop A (ps.length + 1) s = if (A.compareAt ps.length s).1 ≤ 0 then
        (A.compareAt ps.length s).2
      else insertLoop A ps.length (A.exchange ps.length (A.compareAt ps.length s).2) := rfl
    rw [List.length_cons, hround, settle]
    simp only []
    by_cases hle : (A.compareAt ps.length s).1 ≤ 0
    · rw [if_pos hle, if_pos (hans.2 hle)]
      refine ⟨?_, hD.stay hR hsplit hle⟩
      show A.records s.mem = (x :: p :: ps).reverse ++ ys
      simpa using h
    · rw [if_neg hle, if_neg fun ht => hle (hans.1 ht)]
      have hmoved : A.records (A.exchange ps.length (A.compareAt ps.length s).2).mem
          = ps.reverse ++ x :: p :: ys := records_exchange hfits hj hsplit rfl
      have hnext := ih (hD.move hR hsplit hle) hmoved
      simpa using hnext

/-- The outer loop inserts the records that are left. -/
theorem sortLoop_refines {acc l : List (List Byte)} (hR : R s y)
    (h : A.records s.mem = acc.reverse ++ l) :
    A.records (sortLoop A l.length acc.length s).mem = (insertFrom ask acc l y).1.reverse ∧
      R (sortLoop A l.length acc.length s) (insertFrom ask acc l y).2 := by
  induction l generalizing acc s y with
  | nil =>
    refine ⟨?_, hR⟩
    show A.records s.mem = acc.reverse
    simpa using h
  | cons x xs ih =>
    obtain ⟨hrec, hR'⟩ := insertLoop_refines hfits hD hR h
    have hnext := ih hR' hrec
    rwa [length_settle] at hnext

/-- **`ns_sort` is insertion on the list of records.** -/
theorem nsSort_refines (y : τ) (hR : R s y) :
    A.records (nsSort A s).mem = insertionSort ask (A.records s.mem) y ∧
      R (nsSort A s) (insertFrom ask [] (A.records s.mem) y).2 := by
  have hlen : (A.records s.mem).length = A.count.toNat := SortArgs.length_records
  cases hrec : A.records s.mem with
  | nil =>
    have hzero : A.count.toNat - 1 = 0 := by
      rw [hrec, List.length_nil] at hlen
      omega
    rw [nsSort, hzero]
    exact ⟨hrec, hR⟩
  | cons x xs =>
    have hrounds : A.count.toNat - 1 = xs.length := by
      rw [hrec, List.length_cons] at hlen
      omega
    have hone : A.records s.mem = [x].reverse ++ xs := hrec
    rw [nsSort, hrounds]
    exact sortLoop_refines hfits hD hR hone

end Loops

end Refcode.Lists
