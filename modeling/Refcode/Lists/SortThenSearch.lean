import Refcode.Lib.SignOrder
import Refcode.Lists.Records
import Refcode.Lists.SortedSearch

/-!
# Sorting, then searching

A callback that orders the records of an array by their contents drives `ns_sort`
to a sorted array of the same records (`nsSort_sorted`).  The order it leaves is the
order `ns_sorted_search` relies on, so a key that was equal to some element before
is found after: `nsSort_then_nsSortedSearch`.
-/

namespace Refcode.Lists

open Refcode.Lib

variable {w : ℕ} {σ : Type*}

/-! ## Callbacks that order records -/

/-- `m` holds the same records as `m₀`, in some order, and the same bytes around
the array. -/
structure SortArgs.Rearranged (A : SortArgs w σ) (m₀ m : Mem w) : Prop where
  perm : (A.records m).Perm (A.records m₀)
  outside : ∀ a, ¬ A.InArray a → m a = m₀ a

/-- However the records are arranged, the callback compares two elements by the
signs of `rel`. -/
def SortArgs.ComparesBy (A : SortArgs w σ) (m₀ : Mem w) (rel : List Byte → List Byte → Int) :
    Prop :=
  ∀ m, A.Rearranged m₀ m → ∀ i < A.count.toNat, ∀ j < A.count.toNat, ∀ x,
    SignType.sign (A.compareProc A.pUserData (A.element i) (A.element j) m x).1
      = SignType.sign (rel (A.record m i) (A.record m j))

/-- However the records are arranged, the callback compares the key with an element
by the sign of `rel`. -/
def SortArgs.ComparesKeyBy (A : SortArgs w σ) (pKey : BitVec w) (m₀ : Mem w)
    (rel : List Byte → Int) : Prop :=
  ∀ m, A.Rearranged m₀ m → ∀ j < A.count.toNat, ∀ x,
    SignType.sign (A.compareProc A.pUserData pKey (A.element j) m x).1
      = SignType.sign (rel (A.record m j))

variable {A : SortArgs w σ} {m₀ m : Mem w} {s : SortState w σ}

theorem SortArgs.Rearranged.refl : A.Rearranged m m := ⟨.refl _, fun _ _ => rfl⟩

theorem SortArgs.Rearranged.mem (h : A.Rearranged m₀ m) {i : ℕ} (hi : i < A.count.toNat) :
    A.record m i ∈ A.records m₀ :=
  h.perm.mem_iff.1 (SortArgs.mem_records.2 ⟨i, hi, rfl⟩)

/-- Exchanging two neighbours is a rearrangement. -/
theorem SortArgs.Rearranged.exchange {rev ys : List (List Byte)} {p x : List Byte}
    (h : A.Rearranged m₀ s.mem) (hfits : A.Fits)
    (hrec : A.records s.mem = rev.reverse ++ p :: x :: ys) :
    A.Rearranged m₀ (A.exchange rev.length s).mem := by
  have hj := (SortArgs.pair_at hrec).1
  constructor
  · rw [records_exchange hfits hj hrec rfl]
    refine List.Perm.trans ?_ h.perm
    rw [hrec]
    exact (List.Perm.swap p x ys).append_left rev.reverse
  · intro a ha
    exact (exchange_outside hfits hj ha).trans (h.outside a ha)

theorem nonpos_iff_of_sign_eq {a b : Int} (h : SignType.sign a = SignType.sign b) :
    a ≤ 0 ↔ b ≤ 0 := by rw [← sign_nonpos_iff, h, sign_nonpos_iff]

/-! ## The sort -/

section Sorting

variable {rel : List Byte → List Byte → Int}

/-- The oracle that answers by `rel`. -/
def askBy (rel : List Byte → List Byte → Int) (_ : ℕ) (p x : List Byte) (y : Unit) : Bool × Unit :=
  (rel p x ≤ 0, y)

/-- A callback that compares by `rel` drives the sort like `rel`. -/
theorem drives_askBy (hfits : A.Fits) (hrel : A.ComparesBy m₀ rel) :
    Drives A (askBy rel) fun s _ => A.Rearranged m₀ s.mem := by
  refine ⟨fun {s y rev ys p x} hs h => ?_, fun hs _ _ => hs, fun {s y rev ys p x} hs h _ => ?_⟩
  · obtain ⟨hj, hp, hx⟩ := SortArgs.pair_at h
    have hsign := hrel s.mem hs rev.length (by omega) (rev.length + 1) hj s.user
    rw [hp, hx] at hsign
    exact decide_eq_true_iff.trans (nonpos_iff_of_sign_eq hsign).symm
  · have hcompared : A.Rearranged m₀ (A.compareAt rev.length s).2.mem := hs
    exact hcompared.exchange hfits h

/-- **The array is sorted**, with the same records in it and nothing else changed. -/
theorem nsSort_sorted (hfits : A.Fits) (hrel : A.ComparesBy s.mem rel)
    (hord : TotalPreorderOn (· ∈ A.records s.mem) rel) :
    (A.records (nsSort A s).mem).Pairwise (fun a b => rel a b ≤ 0) ∧
      A.Rearranged s.mem (nsSort A s).mem := by
  have hinit : A.Rearranged s.mem s.mem := .refl
  obtain ⟨hrec, hR⟩ := nsSort_refines hfits (drives_askBy hfits hrel) () hinit
  refine ⟨?_, hR⟩
  rw [hrec]
  exact insertionSort_sorted (fun _ p x _ _ _ => decide_eq_true_iff)
    (fun a b ha hb => hord.total ha hb) (fun a b c ha hb hc => hord.trans a b c ha hb hc)
    fun _ h => h

end Sorting

/-! ## The search after it -/

/-- A search in the array, with the callback it was sorted by. -/
def SortArgs.query (A : SortArgs w σ) (pKey : BitVec w) (m : Mem w) : Query w σ :=
  ⟨pKey, A.pBase, A.count, A.stride, A.compareProc, A.pUserData, m⟩

theorem SortArgs.query_element {pKey i : BitVec w} :
    (A.query pKey m).element i = A.element i.toNat := by
  rw [SortArgs.element, BitVec.ofNat_toNat, BitVec.setWidth_eq]
  rfl

section Searching

variable {pKey : BitVec w} {rel : Option (List Byte) → Option (List Byte) → Int}

/-- In a sorted arrangement of the array, the signs of the comparisons with the key
fall. -/
theorem falling_of_sorted (hm : A.Rearranged m₀ m)
    (hord : TotalPreorderOn (fun e => ∀ r, e = some r → r ∈ A.records m₀) rel)
    (hsorted : (A.records m).Pairwise fun a b => rel (some a) (some b) ≤ 0) :
    Falling (fun i => SignType.sign (rel none (some (A.record m i)))) A.count.toNat := by
  have hmem : ∀ {i}, i < A.count.toNat → ∀ r, some (A.record m i) = some r →
      r ∈ A.records m₀ := fun hi r hr => Option.some.inj hr ▸ hm.mem hi
  intro i j hij hj
  rcases Nat.lt_or_eq_of_le hij with hlt | rfl
  · have hi := hlt.trans hj
    have hpair := List.pairwise_iff_getElem.1 hsorted i j (by simpa using hi) (by simpa using hj)
      hlt
    have hle : rel (some (A.record m i)) (some (A.record m j)) ≤ 0 := by
      simpa [SortArgs.records] using hpair
    have hkey : ∀ r, none = some r → r ∈ A.records m₀ := by
      intro r hr
      cases hr
    exact hord.sign_le (hmem hi) (hmem hj) hkey hle
  · exact le_rfl

/-- **Sorting then searching loses no element.**  Let the callback compare the
elements and the key by a total preorder.  If the key is equal to some element of
the array before the sort, then searching the sorted array returns the address of
an element of it that is equal to the key, and has looked at elements of it only. -/
theorem nsSort_then_nsSortedSearch (hw : 4 ≤ w) (hfits : A.Fits)
    (hord : TotalPreorderOn (fun e => ∀ r, e = some r → r ∈ A.records s.mem) rel)
    (helem : A.ComparesBy s.mem fun a b => rel (some a) (some b))
    (hkey : A.ComparesKeyBy pKey s.mem fun a => rel none (some a))
    (hpresent : ∃ i < A.count.toNat,
      (A.compareProc A.pUserData pKey (A.element i) s.mem s.user).1 = 0) :
    ∃ fuel r, ∃ i < A.count.toNat,
      nsSortedSearch (A.query pKey (nsSort A s).mem) fuel (nsSort A s).user = some r ∧
      r.result = some (A.element i) ∧ (A.pBase ≠ 0 → A.element i ≠ 0) ∧
      (∀ a, InRange (A.element i) A.stride.toNat a → A.InArray a) ∧
      (A.compareProc A.pUserData pKey (A.element i) (nsSort A s).mem (nsSort A s).user).1 = 0 ∧
      ∀ j ∈ r.probes, j < A.count := by
  have hords : TotalPreorderOn (· ∈ A.records s.mem) fun a b => rel (some a) (some b) := by
    have hsome : ∀ {a}, a ∈ A.records s.mem → ∀ r, some a = some r → r ∈ A.records s.mem :=
      fun ha r hr => Option.some.inj hr ▸ ha
    exact ⟨fun a b ha hb => hord.antisymm _ _ (hsome ha) (hsome hb),
      fun a b c ha hb hc => hord.trans _ _ _ (hsome ha) (hsome hb) (hsome hc)⟩
  obtain ⟨hsorted, hm⟩ := nsSort_sorted hfits helem hords
  set t := nsSort A s
  set c : ℕ → SignType := fun i => SignType.sign (rel none (some (A.record t.mem i)))
  have hfall : Falling c A.count.toNat := falling_of_sorted hm hord hsorted
  have hsigns : (A.query pKey t.mem).Signs c := fun i hi x => by
    have hel : (A.query pKey t.mem).element i = A.element i.toNat := SortArgs.query_element
    have hsign := hkey t.mem hm i.toNat hi x
    rwa [← hel] at hsign
  -- the key is still equal to some element, wherever it is now
  have hzero : ∃ i < A.count.toNat, c i = 0 := by
    obtain ⟨i, hi, hcmp⟩ := hpresent
    have hrec := hm.perm.mem_iff.2 (SortArgs.mem_records.2 ⟨i, hi, rfl⟩)
    obtain ⟨j, hj, hrec⟩ := SortArgs.mem_records.1 hrec
    refine ⟨j, hj, ?_⟩
    have hsign := hkey s.mem .refl i hi s.user
    rw [hcmp, sign_zero] at hsign
    show SignType.sign (rel none (some (A.record t.mem j))) = 0
    rw [hrec, ← hsign]
  obtain ⟨j, hj, hcj⟩ := hzero
  have hfirst : c 0 ≠ -1 := hfall.first_ne hj hcj
  obtain ⟨r, hr, hans⟩ :=
    nsSortedSearch_total hw hsigns hfall (fun _ => hfirst) (Nat.lt_succ_self A.count.toNat)
  obtain ⟨i, hi, hres, hci⟩ := hans.found hj hcj
  refine ⟨_, r, i.toNat, hi, hr, ?_, fun hbase => hfits.element_ne_null hbase hi,
    fun a ha => hfits.element_inArray hi ha, ?_, hans.probes_lt⟩
  · rw [hres, SortArgs.query_element]
  · have heq : ((A.query pKey t.mem).compare i t.user).1 = 0 := (hsigns.zero_iff hi).2 hci
    rwa [Query.compare, SortArgs.query_element] at heq

end Searching

/-! ## An array of bytes -/

/-- Three bytes at address `16`, compared as numbers. -/
def byteArray : SortArgs 64 Unit where
  pBase := 16
  count := 3
  stride := 1
  compareProc := fun _ a b m x => ((m a).toNat - (m b).toNat, x)
  pUserData := 0

/-- The bytes `9`, `5` and `7`, and a key `5` at address `1`. -/
def byteState : SortState 64 Unit where
  mem := fun a => if a = 1 ∨ a = 17 then 5 else if a = 16 then 9 else 7
  user := ()
  compared := []
  swapped := []

example : byteArray.records (nsSort byteArray byteState).mem = [[5], [7], [9]] := by decide

/-- The number a record or the key stands for. -/
def byteValue : Option (List Byte) → ℕ
  | none => 5
  | some r => (r.headD 0).toNat

theorem byteValue_record (m : Mem 64) (i : ℕ) :
    byteValue (some (byteArray.record m i)) = (m (byteArray.element i)).toNat := by
  simp [byteValue, SortArgs.record, byteArray, Mem.read]

theorem nsSort_then_nsSortedSearch_byteArray : ∃ fuel r, ∃ i < 3,
    nsSortedSearch (byteArray.query 1 (nsSort byteArray byteState).mem) fuel () = some r ∧
      r.result = some (byteArray.element i) := by
  let rel : Option (List Byte) → Option (List Byte) → Int := fun a b => byteValue a - byteValue b
  have hord : TotalPreorderOn
      (fun e => ∀ r, e = some r → r ∈ byteArray.records byteState.mem) rel :=
    ⟨fun a b _ _ => by simp only [rel]; omega, fun a b c _ _ _ => by simp only [rel]; omega⟩
  have helem : byteArray.ComparesBy byteState.mem fun a b => rel (some a) (some b) := by
    intro m _ i _ j _ x
    simp only [rel, byteValue_record]
    rfl
  have hkey : byteArray.ComparesKeyBy 1 byteState.mem fun a => rel none (some a) := by
    intro m hm j _ x
    have hbyte : m 1 = 5 := hm.outside 1 (by decide)
    simp only [rel, byteValue_record]
    show SignType.sign (((m 1).toNat : Int) - _) = _
    rw [hbyte]
    rfl
  obtain ⟨fuel, r, i, hi, hr, hres, -⟩ := nsSort_then_nsSortedSearch (by norm_num)
    (by decide) hord helem hkey ⟨1, by decide, by decide⟩
  exact ⟨fuel, r, i, hi, hr, hres⟩

end Refcode.Lists
