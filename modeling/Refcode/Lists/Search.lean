import Refcode.Lib.Bisect
import Refcode.Lib.Loop
import Refcode.Lib.Word
import Refcode.Lists.Element

/-!
# The three searches

`ns_binary_search`, `ns_linear_search` and `ns_sorted_search` of `search.c`, with
`size_t` arithmetic modulo `2^w`.  They take the same arguments, gathered in a
`Query`, and leave what they return together with the indices they looked at
(`Found`).

* `nsLinearSearch_total` — the linear search answers every query.
* `nsBinarySearch_total` — so does the binary search on a falling list, unless the
  key is smaller than the first element.
-/

namespace Refcode.Lists

open Refcode.Lib

variable {w : ℕ} {σ : Type*}

/-! ## The functions -/

/-- The arguments of a search, and the memory it reads. -/
structure Query (w : ℕ) (σ : Type*) where
  pKey : BitVec w
  pList : BitVec w
  count : BitVec w
  stride : BitVec w
  compareProc : CompareProc w σ
  pUserData : BitVec w
  mem : Mem w

/-- The address of the element at an index. -/
def Query.element (Q : Query w σ) (i : BitVec w) : BitVec w := Lists.element Q.pList Q.stride i

/-- The call of the callback for the element at an index. -/
def Query.compare (Q : Query w σ) (i : BitVec w) (x : σ) : Int × σ :=
  Q.compareProc Q.pUserData Q.pKey (Q.element i) Q.mem x

/-- What a search returns (`NULL` is `none`), the state it leaves the callback in,
and the indices of the elements it passed to it. -/
structure Found (w : ℕ) (σ : Type*) where
  result : Option (BitVec w)
  user : σ
  probes : List (BitVec w)
  deriving DecidableEq

/-- The variables of the loop of `ns_binary_search`. -/
structure BinaryVars (w : ℕ) (σ : Type*) where
  iStart : BitVec w
  iEnd : BitVec w
  user : σ
  probes : List (BitVec w)

/-- One round of `while (iStart <= iEnd)`. -/
def binaryRound (Q : Query w σ) (s : BinaryVars w σ) : BinaryVars w σ ⊕ Found w σ :=
  if s.iStart ≤ s.iEnd then
    let iMid := s.iStart + (s.iEnd - s.iStart) / 2
    let r := Q.compare iMid s.user
    let probes := s.probes ++ [iMid]
    if r.1 < 0 then .inl ⟨s.iStart, iMid - 1, r.2, probes⟩
    else if r.1 > 0 then .inl ⟨iMid + 1, s.iEnd, r.2, probes⟩
    else .inr ⟨some (Q.element iMid), r.2, probes⟩
  else .inr ⟨none, s.user, s.probes⟩

def nsBinarySearch (Q : Query w σ) (fuel : ℕ) (x : σ) : Option (Found w σ) :=
  if Q.count = 0 then some ⟨none, x, []⟩
  else loop (binaryRound Q) fuel ⟨0, Q.count - 1, x, []⟩

/-- The variables of the loop of `ns_linear_search`. -/
structure LinearVars (w : ℕ) (σ : Type*) where
  i : BitVec w
  user : σ
  probes : List (BitVec w)

/-- One round of `for (i = 0; i < count; i += 1)`. -/
def linearRound (Q : Query w σ) (s : LinearVars w σ) : LinearVars w σ ⊕ Found w σ :=
  if s.i < Q.count then
    let r := Q.compare s.i s.user
    let probes := s.probes ++ [s.i]
    if r.1 = 0 then .inr ⟨some (Q.element s.i), r.2, probes⟩
    else .inl ⟨s.i + 1, r.2, probes⟩
  else .inr ⟨none, s.user, s.probes⟩

def nsLinearSearch (Q : Query w σ) (fuel : ℕ) (x : σ) : Option (Found w σ) :=
  loop (linearRound Q) fuel ⟨0, x, []⟩

def nsSortedSearch (Q : Query w σ) (fuel : ℕ) (x : σ) : Option (Found w σ) :=
  let threshold : BitVec w := 10
  if Q.count < threshold then nsLinearSearch Q fuel x else nsBinarySearch Q fuel x

/-! ## What they answer -/

/-- The callback compares the key with the element at index `i` with sign `c i`,
whatever it keeps for itself. -/
def Query.Signs (Q : Query w σ) (c : ℕ → SignType) : Prop :=
  ∀ i < Q.count, ∀ x, SignType.sign (Q.compare i x).1 = c i.toNat

/-- **A right answer**: only elements of the list were looked at, and what is
returned compares equal, or is `NULL` because nothing does. -/
structure Answers (Q : Query w σ) (c : ℕ → SignType) (r : Found w σ) : Prop where
  probes_lt : ∀ i ∈ r.probes, i < Q.count
  result : (r.result = none ∧ ∀ i < Q.count, c i.toNat ≠ 0) ∨
    ∃ i < Q.count, r.result = some (Q.element i) ∧ c i.toNat = 0

variable {Q : Query w σ} {c : ℕ → SignType} {x : σ} {fuel : ℕ}

/-- If something compares equal, then so does what is returned. -/
theorem Answers.found {r : Found w σ} {j : ℕ} (h : Answers Q c r) (hj : j < Q.count.toNat)
    (hcj : c j = 0) : ∃ i < Q.count, r.result = some (Q.element i) ∧ c i.toNat = 0 := by
  rcases h.result with ⟨-, hnone⟩ | hfound
  · have hjw : (BitVec.ofNat w j).toNat = j := toNat_small (hj.trans Q.count.isLt)
    have hne := hnone (BitVec.ofNat w j) (by rw [BitVec.lt_def, hjw]; exact hj)
    rw [hjw] at hne
    exact absurd hcj hne
  · exact hfound

section Comparisons

variable {i : BitVec w} (hc : Q.Signs c) (hi : i < Q.count)
include hc hi

theorem Query.Signs.neg_iff : (Q.compare i x).1 < 0 ↔ c i.toNat = -1 := by
  rw [← hc i hi x, sign_eq_neg_one_iff]

theorem Query.Signs.pos_iff : 0 < (Q.compare i x).1 ↔ c i.toNat = 1 := by
  rw [← hc i hi x, sign_eq_one_iff]

theorem Query.Signs.zero_iff : (Q.compare i x).1 = 0 ↔ c i.toNat = 0 := by
  rw [← hc i hi x, sign_eq_zero_iff]

end Comparisons

theorem lt_of_mem_snoc {probes : List (BitVec w)} {i j n : BitVec w}
    (h : ∀ i ∈ probes, i < n) (hi : i < n) (hj : j ∈ probes ++ [i]) : j < n := by
  rcases List.mem_append.1 hj with hj | hj
  · exact h j hj
  · rwa [List.mem_singleton.1 hj]

/-- **The linear search answers every query.** -/
theorem nsLinearSearch_total (hc : Q.Signs c) (hfuel : Q.count.toNat < fuel) :
    ∃ r, nsLinearSearch Q fuel x = some r ∧ Answers Q c r := by
  let Inv : LinearVars w σ → Prop := fun s =>
    (∀ i ∈ s.probes, i < Q.count) ∧ ∀ j < Q.count, j < s.i → c j.toNat ≠ 0
  refine loop_total Inv (fun s => Q.count.toNat - s.i.toNat) (fun s hs => ?_) ?_ ?_
  · obtain ⟨hprobes, hbefore⟩ := hs
    unfold linearRound
    by_cases hi : s.i < Q.count
    · simp only [if_pos hi]
      have hprobes' : ∀ j ∈ s.probes ++ [s.i], j < Q.count := fun j hj =>
        lt_of_mem_snoc hprobes hi hj
      by_cases hzero : (Q.compare s.i s.user).1 = 0
      · rw [if_pos hzero]
        exact Or.inr ⟨_, rfl, hprobes', Or.inr ⟨s.i, hi, rfl, (hc.zero_iff hi).1 hzero⟩⟩
      · rw [if_neg hzero]
        have hnext : (s.i + 1).toNat = s.i.toNat + 1 := toNat_add_one hi
        refine Or.inl ⟨_, rfl, ⟨hprobes', fun j hj hji => ?_⟩, ?_⟩
        · rw [BitVec.lt_def, hnext] at hji
          rcases Nat.lt_succ_iff_lt_or_eq.1 hji with hlt | heq
          · exact hbefore j hj hlt
          · rw [heq]
            exact fun h0 => hzero ((hc.zero_iff hi).2 h0)
        · show Q.count.toNat - (s.i + 1).toNat < _
          rw [BitVec.lt_def] at hi
          omega
    · rw [if_neg hi]
      refine Or.inr ⟨_, rfl, hprobes, Or.inl ⟨rfl, fun j hj => hbefore j hj ?_⟩⟩
      rw [BitVec.lt_def] at hi hj ⊢
      omega
  · refine ⟨fun i hi => absurd hi List.not_mem_nil, fun j _ hj => ?_⟩
    exact absurd hj (BitVec.not_lt_zero)
  · show Q.count.toNat - (0 : BitVec w).toNat < fuel
    omega

/-! ## The binary search -/

section BinaryRound

variable {s : BinaryVars w σ}

/-- The index that a round looks at. -/
def BinaryVars.iMid (s : BinaryVars w σ) : BitVec w := s.iStart + (s.iEnd - s.iStart) / 2

theorem binaryRound_empty (hle : ¬ s.iStart ≤ s.iEnd) :
    binaryRound Q s = .inr ⟨none, s.user, s.probes⟩ := if_neg hle

/-- **What a round does**, by the answer of the callback. -/
theorem binaryRound_cases (hle : s.iStart ≤ s.iEnd) :
    (Q.compare s.iMid s.user).1 < 0 ∧ binaryRound Q s = .inl
      ⟨s.iStart, s.iMid - 1, (Q.compare s.iMid s.user).2, s.probes ++ [s.iMid]⟩ ∨
    0 < (Q.compare s.iMid s.user).1 ∧ binaryRound Q s = .inl
      ⟨s.iMid + 1, s.iEnd, (Q.compare s.iMid s.user).2, s.probes ++ [s.iMid]⟩ ∨
    (Q.compare s.iMid s.user).1 = 0 ∧ binaryRound Q s = .inr
      ⟨some (Q.element s.iMid), (Q.compare s.iMid s.user).2, s.probes ++ [s.iMid]⟩ := by
  unfold binaryRound
  rw [if_pos hle]
  by_cases hneg : (Q.compare s.iMid s.user).1 < 0
  · exact Or.inl ⟨hneg, if_pos hneg⟩
  · by_cases hpos : (Q.compare s.iMid s.user).1 > 0
    · exact Or.inr (Or.inl ⟨hpos, (if_neg hneg).trans (if_pos hpos)⟩)
    · exact Or.inr (Or.inr ⟨by omega, (if_neg hneg).trans (if_neg hpos)⟩)

/-- Nothing is below index `0`. -/
theorem BinaryVars.le_of_zero (h0 : s.iStart = 0) : s.iStart ≤ s.iEnd := by
  rw [h0, BitVec.le_def]
  simp

/-- Once an index past the list is looked at, or about to be, it stays among those that
were: what holds of every search that has looked at one holds after the round. -/
theorem binaryRound_outside {Inv : BinaryVars w σ → Prop} {Post : Found w σ → Prop}
    (hInv : ∀ s', (∃ i ∈ s'.probes, ¬ i < Q.count) → Inv s')
    (hPost : ∀ r, (∃ i ∈ r.probes, ¬ i < Q.count) → Post r)
    (h : (∃ i ∈ s.probes, ¬ i < Q.count) ∨ s.iStart ≤ s.iEnd ∧ ¬ s.iMid < Q.count) :
    (∃ s', binaryRound Q s = .inl s' ∧ Inv s') ∨ ∃ r, binaryRound Q s = .inr r ∧ Post r := by
  by_cases hle : s.iStart ≤ s.iEnd
  · have hout : ∃ i ∈ s.probes ++ [s.iMid], ¬ i < Q.count := by
      rcases h with ⟨i, hi, hlt⟩ | ⟨-, hlt⟩
      · exact ⟨i, List.mem_append_left _ hi, hlt⟩
      · exact ⟨s.iMid, by simp, hlt⟩
    rcases binaryRound_cases (Q := Q) hle with ⟨-, heq⟩ | ⟨-, heq⟩ | ⟨-, heq⟩
    · exact .inl ⟨_, heq, hInv _ hout⟩
    · exact .inl ⟨_, heq, hInv _ hout⟩
    · exact .inr ⟨_, heq, hPost _ hout⟩
  · have hout := h.resolve_right fun hmid => hle hmid.1
    exact .inr ⟨_, binaryRound_empty hle, hPost _ hout⟩

/-- An index with a negative sign can be counted down: index `0` has another one. -/
theorem ne_zero_of_neg {i : BitVec w} (hfirst : c 0 ≠ -1) (hneg : c i.toNat = -1) : i ≠ 0 := by
  rintro rfl
  exact hfirst (by simpa using hneg)

/-- **The invariant.**  Only the list was looked at, and the zeros of `c` lie between
the bounds. -/
structure Narrowed (Q : Query w σ) (c : ℕ → SignType) (s : BinaryVars w σ) : Prop where
  probes_lt : ∀ i ∈ s.probes, i < Q.count
  bracket : Bracket c Q.count.toNat s.iStart.toNat (s.iEnd.toNat + 1)

/-- Where a round looks, between bounds on numbers. -/
theorem BinaryVars.toNat_iMid (hw : 2 ≤ w) (hle : s.iStart ≤ s.iEnd) :
    s.iMid.toNat = middle s.iStart.toNat (s.iEnd.toNat + 1) := toNat_mid hw hle

theorem BinaryVars.iMid_mem (hw : 2 ≤ w) (hle : s.iStart ≤ s.iEnd) :
    s.iStart.toNat ≤ s.iMid.toNat ∧ s.iMid.toNat ≤ s.iEnd.toNat := by
  have hmid : s.iMid.toNat = _ := toNat_mid hw hle
  rw [BitVec.le_def] at hle
  omega

/-- Where a round looks in the list. -/
theorem Narrowed.iMid_lt (h : Narrowed Q c s) (hw : 2 ≤ w) (hle : s.iStart ≤ s.iEnd) :
    s.iMid < Q.count := by
  have hmid := BinaryVars.iMid_mem hw hle
  have hhi := h.bracket.hi_le
  rw [BitVec.lt_def]
  omega

/-- **What a round does to the bounds** when the callback answers right in the middle. -/
theorem Narrowed.cases (h : Narrowed Q c s) (hw : 2 ≤ w) (hfall : Falling c Q.count.toNat)
    (hfirst : c 0 ≠ -1) (hle : s.iStart ≤ s.iEnd)
    (hsign : SignType.sign (Q.compare s.iMid s.user).1 = c s.iMid.toNat) :
    (∃ s', binaryRound Q s = .inl s' ∧ Narrowed Q c s' ∧ c s.iMid.toNat = -1 ∧
      s'.iStart.toNat = s.iStart.toNat ∧ s'.iEnd.toNat + 1 = s.iMid.toNat) ∨
    (∃ s', binaryRound Q s = .inl s' ∧ Narrowed Q c s' ∧ c s.iMid.toNat = 1 ∧
      s'.iStart.toNat = s.iMid.toNat + 1 ∧ s'.iEnd.toNat = s.iEnd.toNat) ∨
    ∃ r, binaryRound Q s = .inr r ∧ Answers Q c r := by
  have hlt := h.iMid_lt hw hle
  have hmid := BinaryVars.iMid_mem hw hle
  have hcases := binaryRound_cases (Q := Q) hle
  obtain ⟨hprobes, hbr⟩ := h
  have hprobes' : ∀ j ∈ s.probes ++ [s.iMid], j < Q.count := fun j hj =>
    lt_of_mem_snoc hprobes hlt hj
  rcases hcases with ⟨hneg, heq⟩ | ⟨hpos, heq⟩ | ⟨hzero, heq⟩
  · rw [← sign_eq_neg_one_iff, hsign] at hneg
    -- the decrement does not wrap: index `0` is not negative
    have hsucc := toNat_sub_one_add_one (ne_zero_of_neg hfirst hneg)
    refine Or.inl ⟨_, heq, ⟨hprobes', ?_⟩, hneg, rfl, hsucc⟩
    show Bracket c _ s.iStart.toNat ((s.iMid - 1).toNat + 1)
    rw [hsucc]
    exact hbr.lower hfall (by omega) (by omega) hneg
  · rw [← sign_eq_one_iff, hsign] at hpos
    have hsucc : (s.iMid + 1).toNat = s.iMid.toNat + 1 := toNat_add_one hlt
    refine Or.inr (Or.inl ⟨_, heq, ⟨hprobes', ?_⟩, hpos, hsucc, rfl⟩)
    show Bracket c _ (s.iMid + 1).toNat _
    rw [hsucc]
    exact hbr.raise hfall (by omega) hpos
  · rw [← sign_eq_zero_iff, hsign] at hzero
    exact Or.inr (Or.inr ⟨_, heq, hprobes', Or.inr ⟨s.iMid, hlt, rfl, hzero⟩⟩)

/-- **With no bounds left nothing compares equal.** -/
theorem Narrowed.empty (h : Narrowed Q c s) (hle : ¬ s.iStart ≤ s.iEnd) :
    ∃ r, binaryRound Q s = .inr r ∧ Answers Q c r := by
  refine ⟨_, binaryRound_empty hle, h.probes_lt, Or.inl ⟨rfl, ?_⟩⟩
  intro i hi h0
  have hmem := h.bracket.zero_mem hi h0
  rw [BitVec.le_def] at hle
  omega

/-- **A round answers, or narrows the bounds.** -/
theorem Narrowed.round (h : Narrowed Q c s) (hw : 2 ≤ w) (hc : Q.Signs c)
    (hfall : Falling c Q.count.toNat) (hfirst : c 0 ≠ -1) :
    (∃ s', binaryRound Q s = .inl s' ∧ Narrowed Q c s' ∧
      s'.iEnd.toNat + 1 - s'.iStart.toNat < s.iEnd.toNat + 1 - s.iStart.toNat) ∨
    ∃ r, binaryRound Q s = .inr r ∧ Answers Q c r := by
  by_cases hle : s.iStart ≤ s.iEnd
  · have hmid := BinaryVars.iMid_mem hw hle
    have hsign := hc s.iMid (h.iMid_lt hw hle) s.user
    rcases h.cases hw hfall hfirst hle hsign with
      ⟨s', heq, hs', -, hlo, hhi⟩ | ⟨s', heq, hs', -, hlo, hhi⟩ | hr
    · exact Or.inl ⟨s', heq, hs', by omega⟩
    · exact Or.inl ⟨s', heq, hs', by omega⟩
    · exact Or.inr hr
  · exact Or.inr (h.empty hle)

end BinaryRound

/-- The bounds it starts with hold the whole list. -/
theorem Narrowed.start (hcount : Q.count ≠ 0) : Narrowed Q c ⟨0, Q.count - 1, x, []⟩ := by
  refine ⟨fun i hi => absurd hi List.not_mem_nil, ?_⟩
  show Bracket c _ (0 : BitVec w).toNat ((Q.count - 1).toNat + 1)
  rw [toNat_sub_one_add_one hcount]
  simpa using Bracket.all

/-- **The binary search answers every query on a falling list**, unless the key is
smaller than the first element. -/
theorem nsBinarySearch_total (hw : 2 ≤ w) (hc : Q.Signs c) (hfall : Falling c Q.count.toNat)
    (hfirst : Q.count ≠ 0 → c 0 ≠ -1) (hfuel : Q.count.toNat < fuel) :
    ∃ r, nsBinarySearch Q fuel x = some r ∧ Answers Q c r := by
  unfold nsBinarySearch
  by_cases hcount : Q.count = 0
  · rw [if_pos hcount]
    have hnone : ∀ i : BitVec w, ¬ i < Q.count := by
      intro i hi
      rw [hcount] at hi
      exact BitVec.not_lt_zero hi
    exact ⟨_, rfl, fun i hi => absurd hi List.not_mem_nil,
      Or.inl ⟨rfl, fun i hi => absurd hi (hnone i)⟩⟩
  · rw [if_neg hcount]
    apply loop_total (Narrowed Q c) (fun s => s.iEnd.toNat + 1 - s.iStart.toNat)
    · intro s hs
      exact hs.round hw hc hfall (hfirst hcount)
    · exact .start hcount
    · show (Q.count - 1).toNat + 1 - (0 : BitVec w).toNat < fuel
      rw [toNat_sub_one_add_one hcount]
      omega

end Refcode.Lists
