import Refcode.Lists.BinarySearch

/-!
# A callback on the wrong side

A callback may tell equal from unequal and still take some elements of a falling list for
the other side of the key.  Sent the wrong way once, the binary search keeps to bounds
with no equal element between them, or goes past the list.

* `nsBinarySearch_finds_iff` — it finds an element that is equal to the key, and looks at the list
  only, if and only if the callback is right wherever halving by the right signs looks.
-/

namespace Refcode.Lists

open Refcode.Lib

variable {w : ℕ} {σ : Type*} {Q : Query w σ} {c c' : ℕ → SignType} {x : σ}
  {s : BinaryVars w σ}

/-- The search looks at the list only, ends and returns an element with sign zero. -/
def Finds (Q : Query w σ) (c : ℕ → SignType) (x : σ) : Prop :=
  ∃ fuel r, nsBinarySearch Q fuel x = some r ∧ (∀ i ∈ r.probes, i < Q.count) ∧
    ∃ i < Q.count, r.result = some (Q.element i) ∧ c i.toNat = 0

/-! ## Right wherever it looks -/

/-- At every position still to be visited by the right signs `c`, the callback, whose signs
are `c'`, answers `c`. -/
structure OnCourse (Q : Query w σ) (c c' : ℕ → SignType) (s : BinaryVars w σ) : Prop where
  narrowed : Narrowed Q c s
  agree : ∀ i, Visits c s.iStart.toNat (s.iEnd.toNat + 1) i → c' i = c i

/-- **A round answers, or narrows the bounds.** -/
theorem OnCourse.round (h : OnCourse Q c c' s) (hw : 2 ≤ w) (hc : Q.Signs c')
    (hfall : Falling c Q.count.toNat) (hfirst : c 0 ≠ -1) :
    (∃ s', binaryRound Q s = .inl s' ∧ OnCourse Q c c' s' ∧
      s'.iEnd.toNat + 1 - s'.iStart.toNat < s.iEnd.toNat + 1 - s.iStart.toNat) ∨
    ∃ r, binaryRound Q s = .inr r ∧ Answers Q c r := by
  obtain ⟨hnarrowed, hagree⟩ := h
  by_cases hle : s.iStart ≤ s.iEnd
  · have hmid := BinaryVars.toNat_iMid hw hle
    have hlt : s.iStart.toNat < s.iEnd.toNat + 1 := Nat.lt_succ_of_le (BitVec.le_def.mp hle)
    have hbounds := middle_mem hlt
    have hsign : SignType.sign (Q.compare s.iMid s.user).1 = c s.iMid.toNat := by
      rw [hc s.iMid (hnarrowed.iMid_lt hw hle), hmid]
      exact hagree _ (.here hlt)
    rcases hnarrowed.cases hw hfall hfirst hle hsign with
      ⟨s', heq, hs', hneg, hlo, hhi⟩ | ⟨s', heq, hs', hpos, hlo, hhi⟩ | hr
    · rw [hmid] at hneg hhi
      refine .inl ⟨s', heq, ⟨hs', ?_⟩, by omega⟩
      rw [hlo, hhi]
      intro i hi
      exact hagree i (.left hlt hneg hi)
    · rw [hmid] at hpos hlo
      refine .inl ⟨s', heq, ⟨hs', ?_⟩, by omega⟩
      rw [hlo, hhi]
      intro i hi
      exact hagree i (.right hlt hpos hi)
    · exact .inr hr
  · exact .inr (hnarrowed.empty hle)

/-- **The search finds the key** if the callback is right at every position that is visited
by the right signs. -/
theorem nsBinarySearch_finds_of_agree (hw : 2 ≤ w) (hc : Q.Signs c')
    (hfall : Falling c Q.count.toNat) (hzero : ∃ j < Q.count.toNat, c j = 0)
    (hagree : ∀ i, Visits c 0 Q.count.toNat i → c' i = c i) : Finds Q c x := by
  obtain ⟨j, hj, hcj⟩ := hzero
  have hcount : Q.count ≠ 0 := ne_zero_of_lt_toNat hj
  have hinit : OnCourse Q c c' (⟨0, Q.count - 1, x, []⟩ : BinaryVars w σ) := by
    refine ⟨.start hcount, ?_⟩
    show ∀ i, Visits c (0 : BitVec w).toNat ((Q.count - 1).toNat + 1) i → c' i = c i
    rw [toNat_sub_one_add_one hcount]
    simpa using hagree
  obtain ⟨r, hr, hans⟩ := loop_total (OnCourse Q c c')
    (fun s => s.iEnd.toNat + 1 - s.iStart.toNat)
    (fun s hs => hs.round hw hc hfall (hfall.first_ne hj hcj)) hinit (Nat.lt_succ_self _)
  exact ⟨_, r, (if_neg hcount).trans hr, hans.probes_lt, hans.found hj hcj⟩

/-! ## Wrong once -/

/-- The right bounds, and between them a place that is looked at where the callback is
wrong. -/
structure Astray (Q : Query w σ) (c c' : ℕ → SignType) (s : BinaryVars w σ) : Prop where
  bracket : Bracket c Q.count.toNat s.iStart.toNat (s.iEnd.toNat + 1)
  wrong : ∃ i, Visits c s.iStart.toNat (s.iEnd.toNat + 1) i ∧ c' i ≠ c i

/-- Where the search is that has been sent the wrong way: between bounds where nothing
is equal, at the wrapped bound, or past the list. -/
def Lost (Q : Query w σ) (c' : ℕ → SignType) (s : BinaryVars w σ) : Prop :=
  (s.iEnd.toNat < Q.count.toNat ∧
      ∀ i, s.iStart.toNat ≤ i → i ≤ s.iEnd.toNat → c' i ≠ 0) ∨
    (s.iStart = 0 ∧ s.iEnd.toNat = 2 ^ w - 1) ∨ ∃ i ∈ s.probes, ¬ i < Q.count

/-- The search returns no element, or it has looked at an index past the list. -/
def Missed (Q : Query w σ) (r : Found w σ) : Prop :=
  r.result = none ∨ ∃ i ∈ r.probes, ¬ i < Q.count

/-- To the left of the middle there are no equal elements, or there is nothing and the
upper bound wraps. -/
theorem Lost.of_left {y : σ} {probes : List (BitVec w)} (hw : 2 ≤ w) (hle : s.iStart ≤ s.iEnd)
    (hend : s.iMid.toNat < Q.count.toNat)
    (hnone : ∀ i, s.iStart.toNat ≤ i → i < s.iMid.toNat → c' i ≠ 0) :
    Lost Q c' ⟨s.iStart, s.iMid - 1, y, probes⟩ := by
  by_cases hfirst : s.iMid = 0
  · have hmid := BinaryVars.iMid_mem hw hle
    refine .inr (.inl ⟨?_, ?_⟩)
    · apply BitVec.eq_of_toNat_eq
      rw [hfirst] at hmid
      simpa using hmid.1
    · show (s.iMid - 1).toNat = 2 ^ w - 1
      rw [hfirst, toNat_zero_sub_one]
  · have hpred := toNat_sub_one_add_one hfirst
    refine .inl ⟨?_, ?_⟩
    · show (s.iMid - 1).toNat < Q.count.toNat
      omega
    · intro i hlo hhi
      replace hhi : i ≤ (s.iMid - 1).toNat := hhi
      exact hnone i hlo (by omega)

/-- To the right of the middle there are no equal elements. -/
theorem Lost.of_right {y : σ} {probes : List (BitVec w)} (hlt : s.iMid < Q.count)
    (hend : s.iEnd.toNat < Q.count.toNat)
    (hnone : ∀ i, s.iMid.toNat < i → i ≤ s.iEnd.toNat → c' i ≠ 0) :
    Lost Q c' ⟨s.iMid + 1, s.iEnd, y, probes⟩ := by
  refine .inl ⟨hend, ?_⟩
  intro i hlo hhi
  replace hlo : (s.iMid + 1).toNat ≤ i := hlo
  rw [toNat_add_one hlt] at hlo
  exact hnone i hlo hhi

/-- **After a round a lost search is lost, or it has missed.** -/
theorem Lost.round (h : Lost Q c' s) (hw : 2 ≤ w) (hc : Q.Signs c')
    (hhalf : Q.count.toNat < 2 ^ (w - 1)) :
    (∃ s', binaryRound Q s = .inl s' ∧ Lost Q c' s') ∨
      ∃ r, binaryRound Q s = .inr r ∧ Missed Q r := by
  have hlost : ∀ s' : BinaryVars w σ, (∃ i ∈ s'.probes, ¬ i < Q.count) → Lost Q c' s' :=
    fun _ hout => .inr (.inr hout)
  have hmissed : ∀ r : Found w σ, (∃ i ∈ r.probes, ¬ i < Q.count) → Missed Q r :=
    fun _ hout => .inr hout
  rcases h with ⟨hend, hnone⟩ | ⟨h0, hend⟩ | hprobes
  · by_cases hle : s.iStart ≤ s.iEnd
    · have hmid := BinaryVars.iMid_mem hw hle
      have hlt : s.iMid < Q.count := by
        rw [BitVec.lt_def]
        omega
      rcases binaryRound_cases (Q := Q) hle with ⟨-, heq⟩ | ⟨-, heq⟩ | ⟨hzero, -⟩
      · refine .inl ⟨_, heq, .of_left hw hle (BitVec.lt_def.mp hlt) ?_⟩
        intro i hlo hhi
        exact hnone i hlo (by omega)
      · refine .inl ⟨_, heq, .of_right hlt hend ?_⟩
        intro i hlo hhi
        exact hnone i (by omega) hhi
      · rw [hc.zero_iff hlt] at hzero
        exact absurd hzero (hnone s.iMid.toNat (by omega) (by omega))
    · exact .inr ⟨_, binaryRound_empty hle, .inl rfl⟩
  · exact binaryRound_outside hlost hmissed (.inr (wrapped_outside hw hhalf h0 hend))
  · exact binaryRound_outside hlost hmissed (.inl hprobes)

/-- A search that is rightly sent to the left is astray if a position to be visited there is
wrong. -/
theorem Astray.of_left {y : σ} {probes : List (BitVec w)} {i : ℕ}
    (hbr : Bracket c Q.count.toNat s.iStart.toNat (s.iEnd.toNat + 1)) (hw : 2 ≤ w)
    (hle : s.iStart ≤ s.iEnd) (hfall : Falling c Q.count.toNat) (hneg : c s.iMid.toNat = -1)
    (hvisits : Visits c s.iStart.toNat s.iMid.toNat i) (hwrong : c' i ≠ c i) :
    Astray Q c c' ⟨s.iStart, s.iMid - 1, y, probes⟩ := by
  have hmem := hvisits.mem
  have hbounds := BinaryVars.iMid_mem hw hle
  have hpred := toNat_sub_one_add_one (ne_zero_of_lt_toNat hmem.2)
  refine ⟨?_, i, ?_, hwrong⟩
  · show Bracket c _ s.iStart.toNat ((s.iMid - 1).toNat + 1)
    rw [hpred]
    exact hbr.lower hfall hbounds.1 (Nat.lt_succ_of_le hbounds.2) hneg
  · show Visits c s.iStart.toNat ((s.iMid - 1).toNat + 1) i
    rw [hpred]
    exact hvisits

/-- The same to the right. -/
theorem Astray.of_right {y : σ} {probes : List (BitVec w)} {i : ℕ}
    (hbr : Bracket c Q.count.toNat s.iStart.toNat (s.iEnd.toNat + 1)) (hw : 2 ≤ w)
    (hle : s.iStart ≤ s.iEnd) (hfall : Falling c Q.count.toNat) (hpos : c s.iMid.toNat = 1)
    (hlt : s.iMid < Q.count) (hvisits : Visits c (s.iMid.toNat + 1) (s.iEnd.toNat + 1) i)
    (hwrong : c' i ≠ c i) : Astray Q c c' ⟨s.iMid + 1, s.iEnd, y, probes⟩ := by
  have hbounds := BinaryVars.iMid_mem hw hle
  have hsucc : (s.iMid + 1).toNat = s.iMid.toNat + 1 := toNat_add_one hlt
  refine ⟨?_, i, ?_, hwrong⟩
  · show Bracket c _ (s.iMid + 1).toNat (s.iEnd.toNat + 1)
    rw [hsucc]
    exact hbr.raise hfall (Nat.lt_succ_of_le hbounds.2) hpos
  · show Visits c (s.iMid + 1).toNat (s.iEnd.toNat + 1) i
    rw [hsucc]
    exact hvisits

/-- **After a round a search that is astray goes on**, and is astray or lost. -/
theorem Astray.round (h : Astray Q c c' s) (hw : 2 ≤ w) (hc : Q.Signs c')
    (hfall : Falling c Q.count.toNat) (hsame : ∀ i < Q.count.toNat, c' i = 0 ↔ c i = 0) :
    ∃ s', binaryRound Q s = .inl s' ∧ (Astray Q c c' s' ∨ Lost Q c' s') := by
  obtain ⟨hbr, i, hvisits, hwrong⟩ := h
  have hmem := hvisits.mem
  have hhi := hbr.hi_le
  have hle : s.iStart ≤ s.iEnd := by
    rw [BitVec.le_def]
    omega
  have hbounds := BinaryVars.iMid_mem hw hle
  have hlt : s.iMid < Q.count := by
    rw [BitVec.lt_def]
    omega
  have hltn : s.iMid.toNat < Q.count.toNat := BitVec.lt_def.mp hlt
  have hinv := hvisits.inv
  rw [← BinaryVars.toNat_iMid hw hle] at hinv
  rcases binaryRound_cases (Q := Q) hle with ⟨hneg, heq⟩ | ⟨hpos, heq⟩ | ⟨hzero, -⟩
  · rw [hc.neg_iff hlt] at hneg
    refine ⟨_, heq, ?_⟩
    rcases SignType.trichotomy (c s.iMid.toNat) with hright | hright | hright
    · rcases hinv with rfl | ⟨-, hvisits⟩ | ⟨hpos, -⟩
      · exact absurd (hneg.trans hright.symm) hwrong
      · exact .inl (.of_left hbr hw hle hfall hright hvisits hwrong)
      · rw [hright] at hpos
        cases hpos
    · rw [(hsame _ hltn).mpr hright] at hneg
      cases hneg
    · -- wrongly to the left, where every element is below the key
      refine .inr (.of_left hw hle hltn ?_)
      intro j _ hj hzero
      have hbelow := hfall.pos hj.le hltn hright
      rw [(hsame j (by omega)).mp hzero] at hbelow
      cases hbelow
  · rw [hc.pos_iff hlt] at hpos
    refine ⟨_, heq, ?_⟩
    rcases SignType.trichotomy (c s.iMid.toNat) with hright | hright | hright
    · -- wrongly to the right, where every element is above the key
      refine .inr (.of_right hlt (by omega) ?_)
      intro j hj hend hzero
      have habove := hfall.neg hj.le (by omega) hright
      rw [(hsame j (by omega)).mp hzero] at habove
      cases habove
    · rw [(hsame _ hltn).mpr hright] at hpos
      cases hpos
    · rcases hinv with rfl | ⟨hneg, -⟩ | ⟨-, hvisits⟩
      · exact absurd (hpos.trans hright.symm) hwrong
      · rw [hright] at hneg
        cases hneg
      · exact .inl (.of_right hbr hw hle hfall hright hlt hvisits hwrong)
  · rw [hc.zero_iff hlt] at hzero
    have hright := (hsame _ hltn).mp hzero
    rcases hinv with rfl | ⟨hneg, -⟩ | ⟨hpos, -⟩
    · exact absurd (hzero.trans hright.symm) hwrong
    · rw [hright] at hneg
      cases hneg
    · rw [hright] at hpos
      cases hpos

/-- **Wrong where it looks, the search misses the key** or goes past the list. -/
theorem nsBinarySearch_misses {r : Found w σ} {fuel : ℕ} (hw : 2 ≤ w) (hc : Q.Signs c')
    (hfall : Falling c Q.count.toNat) (hsame : ∀ i < Q.count.toNat, c' i = 0 ↔ c i = 0)
    (hhalf : Q.count.toNat < 2 ^ (w - 1)) (hcount : Q.count ≠ 0)
    (hwrong : ∃ i, Visits c 0 Q.count.toNat i ∧ c' i ≠ c i)
    (hr : nsBinarySearch Q fuel x = some r) : Missed Q r := by
  rw [nsBinarySearch, if_neg hcount] at hr
  refine loop_sound (fun s => Astray Q c c' s ∨ Lost Q c' s) (Missed Q) ?_ (.inl ?_) hr
  · rintro s (hs | hs)
    · exact .inl (hs.round hw hc hfall hsame)
    · rcases hs.round hw hc hhalf with ⟨s', heq, hs'⟩ | hr
      · exact .inl ⟨s', heq, .inr hs'⟩
      · exact .inr hr
  · refine ⟨(Narrowed.start hcount (x := x)).bracket, ?_⟩
    show ∃ i, Visits c (0 : BitVec w).toNat ((Q.count - 1).toNat + 1) i ∧ c' i ≠ c i
    rw [toNat_sub_one_add_one hcount]
    simpa using hwrong

/-- A search that misses does not find. -/
theorem Missed.not_finds {r : Found w σ} (h : Missed Q r) (hprobes : ∀ i ∈ r.probes, i < Q.count)
    {p : BitVec w} : r.result ≠ some p := by
  rcases h with hnone | ⟨i, hi, hout⟩
  · rw [hnone]
    intro heq
    cases heq
  · exact absurd (hprobes i hi) hout

/-- **When a callback that may be on the wrong side finds the key.** -/
theorem nsBinarySearch_finds_iff (hw : 2 ≤ w) (hc : Q.Signs c') (hfall : Falling c Q.count.toNat)
    (hsame : ∀ i < Q.count.toNat, c' i = 0 ↔ c i = 0) (hzero : ∃ j < Q.count.toNat, c j = 0)
    (hhalf : Q.count.toNat < 2 ^ (w - 1)) :
    Finds Q c x ↔ ∀ i, Visits c 0 Q.count.toNat i → c' i = c i := by
  constructor
  · rintro ⟨fuel, r, hr, hprobes, i, -, hres, -⟩
    by_contra hwrong
    push Not at hwrong
    obtain ⟨j, hj, -⟩ := hzero
    have hcount : Q.count ≠ 0 := ne_zero_of_lt_toNat hj
    have hmissed := nsBinarySearch_misses hw hc hfall hsame hhalf hcount hwrong hr
    exact hmissed.not_finds hprobes hres
  · intro hagree
    exact nsBinarySearch_finds_of_agree hw hc hfall hzero hagree

end Refcode.Lists
