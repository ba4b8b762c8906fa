import Refcode.Lists.Search

/-!
# The search that picks an algorithm by size

`ns_sorted_search` looks through short lists one by one and halves longer ones.
On a falling list the two ways agree, as long as the halving never has to leave
the list on the left: `iEnd = iMid - 1` is unsigned, and from index `0` it goes to
the top of the address space.

* `nsBinarySearch_leaves` — when every element is greater than the key, the binary
  search does not return before it has looked outside the list.
* `nsSortedSearch_agrees_iff` — so `ns_sorted_search` agrees with
  `ns_linear_search` exactly on the short lists and on those whose first element is
  not greater than the key.
-/

namespace Refcode.Lists

open Refcode.Lib

variable {w : ℕ} {σ : Type*} {Q : Query w σ} {c : ℕ → SignType} {x : σ} {fuel : ℕ}

/-- **`r` says what the linear search says in `l`.** -/
structure AgreesWith (Q : Query w σ) (c : ℕ → SignType) (r l : Found w σ) : Prop where
  /-- Only elements of the list were compared. -/
  probes_lt : ∀ i ∈ r.probes, i < Q.count
  null_iff : r.result = none ↔ l.result = none
  equal : ∀ p, r.result = some p → ∃ i < Q.count, p = Q.element i ∧ c i.toNat = 0
  same : (∀ i < Q.count, ∀ j < Q.count, c i.toNat = 0 → c j.toNat = 0 → i = j) →
    r.result = l.result

/-- Two right answers agree. -/
theorem Answers.agreesWith {r l : Found w σ} (hr : Answers Q c r) (hl : Answers Q c l) :
    AgreesWith Q c r l := by
  rcases hr.result with ⟨hnull, hnone⟩ | ⟨i, hi, hres, hzero⟩ <;>
    rcases hl.result with ⟨hnull', hnone'⟩ | ⟨j, hj, hres', hzero'⟩
  · refine ⟨hr.probes_lt, by simp [hnull, hnull'], fun p hp => ?_, fun _ => hnull.trans hnull'.symm⟩
    rw [hnull] at hp
    cases hp
  · exact absurd hzero' (hnone j hj)
  · exact absurd hzero (hnone' i hi)
  · refine ⟨hr.probes_lt, by simp [hres, hres'], fun p hp => ?_, fun huniq => ?_⟩
    · rw [hres] at hp
      cases hp
      exact ⟨i, hi, rfl, hzero⟩
    · rw [hres, hres', huniq i hi j hj hzero hzero']

/-- **Every way out goes past the end.**  If every element is greater than the
key, the binary search only ever moves `iEnd`, until the decrement wraps. -/
theorem nsBinarySearch_leaves {r : Found w σ} (hcount : Q.count ≠ 0)
    (hneg : ∀ i < Q.count, ∀ x, (Q.compare i x).1 < 0) (hr : nsBinarySearch Q fuel x = some r) :
    ∃ i ∈ r.probes, ¬ i < Q.count := by
  rw [nsBinarySearch, if_neg hcount] at hr
  -- `iStart` has not moved as long as only the list was looked at
  let Out : List (BitVec w) → Prop := fun probes => ∃ i ∈ probes, ¬ i < Q.count
  let Inv : BinaryVars w σ → Prop := fun s => s.iStart = 0 ∨ Out s.probes
  refine loop_sound Inv (fun r => Out r.probes) (fun s hs => ?_) (Or.inl rfl) hr
  rcases hs with h0 | hs
  · have hle := BinaryVars.le_of_zero h0
    by_cases hlt : s.iMid < Q.count
    · have hless := hneg s.iMid hlt s.user
      rcases binaryRound_cases (Q := Q) hle with ⟨-, heq⟩ | ⟨hpos, -⟩ | ⟨hzero, -⟩
      · exact Or.inl ⟨_, heq, Or.inl h0⟩
      · omega
      · omega
    · exact binaryRound_outside (fun _ => Or.inr) (fun _ => id) (Or.inr ⟨hle, hlt⟩)
  · exact binaryRound_outside (fun _ => Or.inr) (fun _ => id) (Or.inl hs)

/-- The threshold is the number ten on every machine that can hold it. -/
theorem toNat_threshold (hw : 4 ≤ w) : (10 : BitVec w).toNat = 10 :=
  toNat_literal (by norm_num) hw

section SortedSearch

variable (hw : 4 ≤ w) (hc : Q.Signs c) (hrun : SignRun c Q.count.toNat)
include hw

/-- A list as long as the threshold has a first element. -/
theorem zero_lt_of_long (hlong : ¬ Q.count < 10) : 0 < Q.count := by
  rw [BitVec.lt_def, toNat_threshold hw] at hlong
  rw [BitVec.lt_def]
  simp
  omega

include hc

/-- **The search answers every query on a falling list** that is short or whose
first element is not greater than the key. -/
theorem nsSortedSearch_total (hfall : Falling c Q.count.toNat)
    (hfirst : ¬ Q.count < 10 → c 0 ≠ -1) (hfuel : Q.count.toNat < fuel) :
    ∃ r, nsSortedSearch Q fuel x = some r ∧ Answers Q c r := by
  unfold nsSortedSearch
  by_cases hshort : Q.count < 10
  · simp only [if_pos hshort]
    exact nsLinearSearch_total hc hfuel
  · simp only [if_neg hshort]
    exact nsBinarySearch_total (by omega) hc hfall (fun _ => hfirst hshort) hfuel

include hrun

/-- A key below the whole of a long list is not looked for inside the list only. -/
theorem nsSortedSearch_not_agrees (hlong : ¬ Q.count < 10) (hfirst : (Q.compare 0 x).1 < 0) :
    ¬ ∃ fuel r l, nsSortedSearch Q fuel x = some r ∧ nsLinearSearch Q fuel x = some l ∧
      AgreesWith Q c r l := by
  rintro ⟨fuel, r, l, hr, -, hagree⟩
  rw [nsSortedSearch, if_neg hlong] at hr
  have hpos := zero_lt_of_long hw hlong
  have hcount : Q.count ≠ 0 := fun h0 => BitVec.not_lt_zero (h0 ▸ hpos)
  rw [hc.neg_iff hpos] at hfirst
  have hneg : ∀ i < Q.count, ∀ x, (Q.compare i x).1 < 0 := fun i hi x =>
    (hc.neg_iff hi).2 (hrun.falling.neg (Nat.zero_le _) hi (by simpa using hfirst))
  obtain ⟨i, hi, hout⟩ := nsBinarySearch_leaves hcount hneg hr
  exact hout (hagree.probes_lt i hi)

/-- **When the two searches agree.**  On every falling list, `ns_sorted_search`
stays inside the list, ends and says what `ns_linear_search` says if and only if
the list is shorter than the threshold or its first element is not greater than
the key. -/
theorem nsSortedSearch_agrees_iff :
    (∃ fuel r l, nsSortedSearch Q fuel x = some r ∧ nsLinearSearch Q fuel x = some l ∧
      AgreesWith Q c r l) ↔ Q.count < 10 ∨ 0 ≤ (Q.compare 0 x).1 := by
  constructor
  · intro h
    by_contra hcond
    rw [not_or, not_le] at hcond
    exact nsSortedSearch_not_agrees hw hc hrun hcond.1 hcond.2 h
  · intro hcond
    have hfuel := Nat.lt_succ_self Q.count.toNat
    have hfirst : ¬ Q.count < 10 → c 0 ≠ -1 := fun hlong h0 => by
      have hlt : (Q.compare 0 x).1 < 0 :=
        (hc.neg_iff (zero_lt_of_long hw hlong)).2 (by simpa using h0)
      have hge := hcond.resolve_left hlong
      omega
    obtain ⟨l, hl, hlin⟩ := nsLinearSearch_total hc hfuel
    obtain ⟨r, hr, hsorted⟩ := nsSortedSearch_total hw hc hrun.falling hfirst hfuel
    exact ⟨_, r, l, hr, hl, hsorted.agreesWith hlin⟩

end SortedSearch

/-! ## A list of bytes -/

/-- The signs of the answers of a callback that keeps nothing for itself. -/
noncomputable def Query.signsOf (Q : Query w Unit) (i : ℕ) : SignType :=
  SignType.sign (Q.compare (BitVec.ofNat w i) ()).1

theorem Query.signs_signsOf (Q : Query w Unit) : Q.Signs Q.signsOf := by
  intro i _ x
  rw [Query.signsOf, BitVec.ofNat_toNat, BitVec.setWidth_eq]

/-- The bytes `1, …, 10` from address `16` on, and a byte to look for at address
`1`. -/
def byteQuery (key : Byte) : Query 64 Unit where
  pKey := 1
  pList := 16
  count := 10
  stride := 1
  compareProc := fun _ a b m x => ((m a).toNat - (m b).toNat, x)
  pUserData := 0
  mem := fun a =>
    if a = 1 then key else if 16 ≤ a ∧ a < 26 then (a - 15).setWidth 8 else 0

theorem nsSortedSearch_agrees_byteQuery : ∃ fuel r l,
    nsSortedSearch (byteQuery 5) fuel () = some r ∧ nsLinearSearch (byteQuery 5) fuel () = some l ∧
      AgreesWith (byteQuery 5) (byteQuery 5).signsOf r l :=
  (nsSortedSearch_agrees_iff (by norm_num) (byteQuery 5).signs_signsOf
    ⟨4, 5, by decide, by decide, by decide, by decide, by decide⟩).2 (Or.inr (by decide))

/-- The key `0` is below all of the list, and the search runs off its left end. -/
theorem nsSortedSearch_byteQuery_zero :
    (byteQuery 0).Signs (byteQuery 0).signsOf ∧
    SignRun (byteQuery 0).signsOf (byteQuery 0).count.toNat ∧
    ¬ ∃ fuel r l, nsSortedSearch (byteQuery 0) fuel () = some r ∧
      nsLinearSearch (byteQuery 0) fuel () = some l ∧
      AgreesWith (byteQuery 0) (byteQuery 0).signsOf r l := by
  have hrun : SignRun (byteQuery 0).signsOf (byteQuery 0).count.toNat :=
    ⟨0, 0, le_rfl, by decide, by decide, by decide, by decide⟩
  exact ⟨(byteQuery 0).signs_signsOf, hrun, nsSortedSearch_not_agrees (by norm_num)
    (byteQuery 0).signs_signsOf hrun (by decide) (by decide)⟩

end Refcode.Lists
