import Refcode.Lists.BinarySearch

/-!
# How often the searches look

The elements that a search compares, for any callback: it may answer what it likes, and
differently each time.  A round of the binary search leaves at most half of the elements,
so that it looks no more often than the number of elements has binary digits.

* `nsLinearSearch_first` — the linear search looks at the elements in order, up to the
  first for which the callback answers zero.
* `Logged` — the invariant of the binary search.
* `searches_effort` — the result, with the lists on which the bound is reached.
-/

namespace Refcode.Lists

open Refcode.Lib

variable {w : ℕ} {σ : Type*} {Q : Query w σ} {x : σ} {fuel : ℕ}

/-! ## The linear search -/

/-- The state of the callback after it has been asked about the first `k` elements. -/
def Query.after (Q : Query w σ) (x : σ) : ℕ → σ
  | 0 => x
  | k + 1 => (Q.compare (BitVec.ofNat w k) (Q.after x k)).2

/-- What it answers about the next one. -/
def Query.answer (Q : Query w σ) (x : σ) (k : ℕ) : Int :=
  (Q.compare (BitVec.ofNat w k) (Q.after x k)).1

/-- The first `k` indices, in order. -/
def firstIndices (w k : ℕ) : List (BitVec w) := (List.range k).map (BitVec.ofNat w)

theorem firstIndices_succ (k : ℕ) :
    firstIndices w (k + 1) = firstIndices w k ++ [BitVec.ofNat w k] := by
  simp [firstIndices, List.range_succ]

@[simp] theorem length_firstIndices (k : ℕ) : (firstIndices w k).length = k := by
  simp [firstIndices]

/-- Looking in order, and no further than necessary. -/
structure First (Q : Query w σ) (x : σ) (k : ℕ) (r : Found w σ) : Prop where
  before : ∀ i < k, Q.answer x i ≠ 0
  stop : k = Q.count.toNat ∧ r = ⟨none, Q.after x k, firstIndices w k⟩ ∨
    k < Q.count.toNat ∧ Q.answer x k = 0 ∧
      r = ⟨some (Q.element (BitVec.ofNat w k)), Q.after x (k + 1), firstIndices w (k + 1)⟩

/-- **The linear search**, with any callback. -/
theorem nsLinearSearch_first (hfuel : Q.count.toNat < fuel) :
    ∃ r, nsLinearSearch Q fuel x = some r ∧ ∃ k, First Q x k r := by
  let Inv : LinearVars w σ → Prop := fun s => s.i.toNat ≤ Q.count.toNat ∧
    s.user = Q.after x s.i.toNat ∧ s.probes = firstIndices w s.i.toNat ∧
      ∀ j < s.i.toNat, Q.answer x j ≠ 0
  refine loop_total Inv (fun s => Q.count.toNat - s.i.toNat) (fun s hs => ?_) ?_ ?_
  · obtain ⟨hle, huser, hprobes, hbefore⟩ := hs
    have hself : BitVec.ofNat w s.i.toNat = s.i := by simp
    have hcompare : Q.compare s.i s.user
        = (Q.answer x s.i.toNat, Q.after x (s.i.toNat + 1)) := by
      simp [Query.answer, Query.after, huser]
    have hsnoc : s.probes ++ [s.i] = firstIndices w (s.i.toNat + 1) := by
      rw [firstIndices_succ, hprobes, hself]
    unfold linearRound
    by_cases hlt : s.i < Q.count
    · have hnat : s.i.toNat < Q.count.toNat := hlt
      simp only [if_pos hlt, hcompare, hsnoc]
      by_cases hzero : Q.answer x s.i.toNat = 0
      · rw [if_pos hzero]
        refine Or.inr ⟨_, rfl, s.i.toNat, hbefore, Or.inr ⟨hnat, hzero, ?_⟩⟩
        rw [hself]
      · rw [if_neg hzero]
        have hnext : (s.i + 1).toNat = s.i.toNat + 1 := toNat_add_one hlt
        refine Or.inl ⟨_, rfl, ?_, ?_⟩
        · simp only [Inv, hnext, true_and]
          refine ⟨hnat, fun j hj => ?_⟩
          rcases Nat.lt_succ_iff_lt_or_eq.1 hj with hj | rfl
          · exact hbefore j hj
          · exact hzero
        · simp only [hnext]
          omega
    · have hend : s.i.toNat = Q.count.toNat := by
        rw [BitVec.lt_def] at hlt
        omega
      rw [if_neg hlt]
      refine Or.inr ⟨_, rfl, s.i.toNat, hbefore, Or.inl ⟨hend, ?_⟩⟩
      rw [huser, hprobes]
  · exact ⟨by simp, by simp [Query.after], by simp [firstIndices], by simp⟩
  · simpa using hfuel

/-- It looks at no more elements than there are. -/
theorem First.length_le {r : Found w σ} {k : ℕ} (h : First Q x k r) :
    r.probes.length ≤ Q.count.toNat := by
  rcases h.stop with ⟨hk, rfl⟩ | ⟨hk, -, rfl⟩ <;> simp <;> omega

/-! ## Halving -/

/-- The elements between the bounds. -/
def BinaryVars.size (s : BinaryVars w σ) : ℕ := s.iEnd.toNat + 1 - s.iStart.toNat

/-- **What a round leaves**: at most half of the elements, and one more look. -/
theorem Halving.size_le {s s' : BinaryVars w σ} (h : Halving Q s) (hw : 2 ≤ w)
    (hround : binaryRound Q s = .inl s') (h' : Halving Q s') :
    s.size ≠ 0 ∧ s'.size ≤ s.size / 2 ∧ s'.probes.length = s.probes.length + 1 := by
  by_cases hle : s.iStart ≤ s.iEnd
  · have hmid : s.iMid.toNat = _ := toNat_mid hw hle
    obtain ⟨-, -, hlt, -⟩ := h.iMid_mem hw hle
    rw [BitVec.le_def] at hle
    rcases binaryRound_cases (Q := Q) hle with ⟨-, heq⟩ | ⟨-, heq⟩ | ⟨-, heq⟩
    · rw [hround] at heq
      cases heq
      -- the upper bound has not wrapped, for it is below the count
      have hne : s.iMid ≠ 0 := by
        intro hzero
        have hupper := h'.upper_lt
        have hcount := Q.count.isLt
        rw [hzero] at hupper
        simp only [toNat_zero_sub_one] at hupper
        omega
      have hpred := toNat_sub_one_add_one hne
      simp only [BinaryVars.size, List.length_append, List.length_singleton, and_true]
      omega
    · rw [hround] at heq
      cases heq
      have hsucc : (s.iMid + 1).toNat = s.iMid.toNat + 1 := toNat_add_one hlt
      simp only [BinaryVars.size, List.length_append, List.length_singleton, and_true]
      omega
    · rw [hround] at heq
      cases heq
  · rw [binaryRound_empty hle] at hround
    cases hround

/-- A search starts with all of them. -/
theorem size_start (hcount : Q.count ≠ 0) :
    (⟨0, Q.count - 1, x, []⟩ : BinaryVars w σ).size = Q.count.toNat := by
  show (Q.count - 1).toNat + 1 - (0 : BitVec w).toNat = Q.count.toNat
  rw [toNat_sub_one_add_one hcount]
  simp

/-- Half of a number has a binary digit less. -/
theorem size_half_lt {m n : ℕ} (hn : n ≠ 0) (hm : m ≤ n / 2) : m.size < n.size := by
  rw [Nat.lt_size]
  have hpos : 0 < m.size ∨ m.size = 0 := by omega
  rcases hpos with hpos | hzero
  · have hbelow : 2 ^ (m.size - 1) ≤ m := Nat.lt_size.1 (by omega)
    have hpow : 2 ^ m.size = 2 * 2 ^ (m.size - 1) := by
      rw [← pow_succ']
      congr 1
      omega
    omega
  · rw [hzero]
    omega

/-- **The invariant.**  The list has been halved once for every probe, and the probes are at
most as many as the count has binary digits. -/
structure Logged (Q : Query w σ) (s : BinaryVars w σ) : Prop where
  halving : Halving Q s
  halved : s.size * 2 ^ s.probes.length ≤ Q.count.toNat
  probes_le : s.probes.length ≤ Q.count.toNat.size

/-- As long as there is an element left, fewer probes have been made than the count has
binary digits. -/
theorem Logged.probes_lt {s : BinaryVars w σ} (h : Logged Q s) (hsize : s.size ≠ 0) :
    s.probes.length < Q.count.toNat.size := by
  rw [Nat.lt_size]
  calc 2 ^ s.probes.length ≤ s.size * 2 ^ s.probes.length :=
        Nat.le_mul_of_pos_left _ (Nat.pos_of_ne_zero hsize)
    _ ≤ Q.count.toNat := h.halved

/-- **A round answers, or halves what is left.** -/
theorem Logged.round {s : BinaryVars w σ} (h : Logged Q s) (hw : 2 ≤ w) :
    (∃ s', binaryRound Q s = .inl s' ∧ Logged Q s' ∧ s'.size.size < s.size.size) ∨
    ∃ r, binaryRound Q s = .inr r ∧ StaysInside Q r ∧
      r.probes.length ≤ Q.count.toNat.size := by
  rcases h.halving.round hw with ⟨s', heq, hs', -⟩ | ⟨r, heq, hstays⟩
  · obtain ⟨hne, hhalf, hprobes⟩ := h.halving.size_le hw heq hs'
    have hlt := h.probes_lt hne
    refine Or.inl ⟨s', heq, ⟨hs', ?_, by omega⟩, size_half_lt hne hhalf⟩
    calc s'.size * 2 ^ s'.probes.length ≤ s.size / 2 * 2 ^ (s.probes.length + 1) := by
          rw [hprobes]
          exact Nat.mul_le_mul_right _ hhalf
      _ = s.size / 2 * 2 * 2 ^ s.probes.length := by rw [pow_succ']; ring
      _ ≤ s.size * 2 ^ s.probes.length :=
          Nat.mul_le_mul_right _ (Nat.div_mul_le_self _ _)
      _ ≤ Q.count.toNat := h.halved
  · refine Or.inr ⟨r, heq, hstays, ?_⟩
    by_cases hle : s.iStart ≤ s.iEnd
    · have hsize : s.size ≠ 0 := by
        rw [BitVec.le_def] at hle
        unfold BinaryVars.size
        omega
      have hlt := h.probes_lt hsize
      rcases binaryRound_cases (Q := Q) hle with ⟨-, hcase⟩ | ⟨-, hcase⟩ | ⟨-, hcase⟩
      · rw [heq] at hcase
        cases hcase
      · rw [heq] at hcase
        cases hcase
      · rw [heq] at hcase
        cases hcase
        simpa using hlt
    · rw [binaryRound_empty hle] at heq
      cases heq
      exact h.probes_le

/-- `Logged` holds for the variables at the start of the loop. -/
theorem Logged.start (hcount : Q.count ≠ 0) (hnot : ¬ AllLeft Q Q.count.toNat x) :
    Logged Q ⟨0, Q.count - 1, x, []⟩ := by
  have hlast := toNat_sub_one_add_one hcount
  refine ⟨⟨by simp, List.nodup_nil, by simp, by simp, ?_, ?_⟩, ?_, by simp⟩
  · show (Q.count - 1).toNat < Q.count.toNat
    omega
  · intro _
    show ¬ AllLeft Q ((Q.count - 1).toNat + 1) x
    rwa [hlast]
  · rw [size_start hcount]
    simp

/-- **The binary search looks at most once a binary digit** of the number of elements. -/
theorem nsBinarySearch_probes_le (hw : 2 ≤ w) (hnot : Q.count ≠ 0 → ¬ AllLeft Q Q.count.toNat x)
    (hfuel : Q.count.toNat.size < fuel) :
    ∃ r, nsBinarySearch Q fuel x = some r ∧ StaysInside Q r ∧
      r.probes.length ≤ Q.count.toNat.size := by
  unfold nsBinarySearch
  by_cases hcount : Q.count = 0
  · rw [if_pos hcount]
    refine ⟨_, rfl, ⟨by simp, List.nodup_nil, by simp, ?_⟩, by simp⟩
    intro p hp
    cases hp
  · rw [if_neg hcount]
    refine loop_total (Logged Q) (fun s => s.size.size) (fun s hs => hs.round hw)
      (.start hcount (hnot hcount)) ?_
    rwa [size_start hcount]

/-! ## When the bound is reached -/

/-- The callback takes the key to be above every element. -/
def Query.Above (Q : Query w σ) : Prop := ∀ i < Q.count, ∀ y, 0 < (Q.compare i y).1

/-- A search that is always sent right: half of the elements are left after each look,
and never more than that. -/
structure Climbing (Q : Query w σ) (s : BinaryVars w σ) : Prop where
  upper : s.iEnd.toNat + 1 = Q.count.toNat
  lower_le : s.iStart.toNat ≤ s.iEnd.toNat + 1
  halved : s.size = Q.count.toNat / 2 ^ s.probes.length
  probes_le : s.probes.length ≤ Q.count.toNat.size

theorem Climbing.round {s : BinaryVars w σ} (h : Climbing Q s) (hw : 2 ≤ w) (habove : Q.Above) :
    (∃ s', binaryRound Q s = .inl s' ∧ Climbing Q s') ∨
    ∃ r, binaryRound Q s = .inr r ∧ r.result = none ∧
      r.probes.length = Q.count.toNat.size := by
  have hsize : s.size = s.iEnd.toNat + 1 - s.iStart.toNat := rfl
  by_cases hle : s.iStart ≤ s.iEnd
  · have hmid : s.iMid.toNat = _ := toNat_mid hw hle
    have hupper := h.upper
    have hhalved := h.halved
    rw [BitVec.le_def] at hle
    have hlt : s.iMid < Q.count := by
      rw [BitVec.lt_def]
      omega
    have hpos := habove s.iMid hlt s.user
    have hsucc : (s.iMid + 1).toNat = s.iMid.toNat + 1 := toNat_add_one hlt
    have hmore : s.probes.length < Q.count.toNat.size := by
      rw [Nat.lt_size]
      by_contra hsmall
      rw [Nat.div_eq_of_lt (by omega)] at hhalved
      omega
    rcases binaryRound_cases (Q := Q) hle with ⟨hneg, -⟩ | ⟨-, heq⟩ | ⟨hzero, -⟩
    · omega
    · refine Or.inl ⟨_, heq, hupper, ?_, ?_, by simpa using hmore⟩
      · show (s.iMid + 1).toNat ≤ s.iEnd.toNat + 1
        omega
      · have hhalf : s.iEnd.toNat + 1 - (s.iMid.toNat + 1) = s.size / 2 := by omega
        simp only [BinaryVars.size, hsucc, List.length_append, List.length_singleton]
        rw [hhalf, hhalved, Nat.div_div_eq_div_mul, ← pow_succ]
    · omega
  · refine Or.inr ⟨_, binaryRound_empty hle, rfl, ?_⟩
    have hnone : Q.count.toNat / 2 ^ s.probes.length = 0 := by
      rw [← h.halved]
      rw [BitVec.le_def] at hle
      omega
    have hbig : Q.count.toNat < 2 ^ s.probes.length := by
      simpa [Nat.div_eq_zero_iff] using hnone
    exact le_antisymm h.probes_le (Nat.size_le.mpr hbig)

/-- **A key above the list** takes all of the looks. -/
theorem nsBinarySearch_above (hw : 2 ≤ w) (habove : Q.Above)
    (hfuel : Q.count.toNat.size < fuel) :
    ∃ r, nsBinarySearch Q fuel x = some r ∧ r.result = none ∧
      r.probes.length = Q.count.toNat.size := by
  have hnot : Q.count ≠ 0 → ¬ AllLeft Q Q.count.toNat x := by
    intro hcount hleft
    generalize hn : Q.count.toNat = n at hleft
    cases hleft with
    | done => exact hcount (BitVec.eq_of_toNat_eq (by simpa using hn))
    | @left n _ hneg _ =>
      have hnw : (BitVec.ofNat w (n / 2)).toNat = n / 2 :=
        toNat_small (by have := Q.count.isLt; omega)
      have hpos := habove (BitVec.ofNat w (n / 2)) (by rw [BitVec.lt_def, hnw]; omega) x
      omega
  obtain ⟨r, hr, -⟩ := nsBinarySearch_probes_le hw hnot hfuel
  refine ⟨r, hr, ?_⟩
  unfold nsBinarySearch at hr
  by_cases hcount : Q.count = 0
  · rw [if_pos hcount] at hr
    cases hr
    simp [hcount]
  · rw [if_neg hcount] at hr
    have hlast := toNat_sub_one_add_one hcount
    let Post : Found w σ → Prop := fun r =>
      r.result = none ∧ r.probes.length = Q.count.toNat.size
    refine loop_sound (Climbing Q) Post (fun s hs => hs.round hw habove) ⟨hlast, ?_, ?_, ?_⟩ hr
    · simp
    · rw [size_start hcount]
      simp
    · simp

/-! ## The searches together -/

/-- **How often the searches look.**  With any callback the linear search looks at the
elements in order, up to the first that is answered zero.  Unless it is sent left to the
end, the binary search looks at most once a binary digit of the count, the sorted search
at most so often or at nine elements, and a key above the list reaches the bound. -/
theorem searches_effort (hw : 4 ≤ w) (Q : Query w σ) (x : σ) :
    (∃ r k, nsLinearSearch Q (Q.count.toNat + 1) x = some r ∧ First Q x k r ∧
      r.probes.length ≤ Q.count.toNat) ∧
    (Q.count = 0 ∨ ¬ AllLeft Q Q.count.toNat x →
      (∃ r, nsBinarySearch Q (Q.count.toNat.size + 1) x = some r ∧ StaysInside Q r ∧
        r.probes.length ≤ Q.count.toNat.size) ∧
      ∃ fuel r, nsSortedSearch Q fuel x = some r ∧
        r.probes.length ≤ max 9 Q.count.toNat.size) ∧
    (Q.Above → ∃ r, nsBinarySearch Q (Q.count.toNat.size + 1) x = some r ∧
      r.result = none ∧ r.probes.length = Q.count.toNat.size) := by
  obtain ⟨r, hr, k, hk⟩ := nsLinearSearch_first (Q := Q) (x := x)
    (Nat.lt_succ_self Q.count.toNat)
  refine ⟨⟨r, k, hr, hk, hk.length_le⟩, fun hcond => ?_, fun habove => ?_⟩
  · obtain ⟨b, hb, hinside, hprobes⟩ := nsBinarySearch_probes_le (by omega)
      (fun hcount => hcond.resolve_left hcount) (Nat.lt_succ_self Q.count.toNat.size)
    refine ⟨⟨b, hb, hinside, hprobes⟩, ?_⟩
    by_cases hshort : Q.count < 10
    · refine ⟨_, r, (if_pos hshort).trans hr, ?_⟩
      rw [BitVec.lt_def, toNat_threshold hw] at hshort
      have hle := hk.length_le
      omega
    · exact ⟨_, b, (if_neg hshort).trans hb, hprobes.trans (le_max_right _ _)⟩
  · exact nsBinarySearch_above (by omega) habove (Nat.lt_succ_self _)

theorem searches_effort_byteQuery : ∃ r,
    nsBinarySearch (byteQuery 5) ((byteQuery 5).count.toNat.size + 1) () = some r ∧
      r.probes.length ≤ (byteQuery 5).count.toNat.size := by
  obtain ⟨-, hbinary, -⟩ := searches_effort (by norm_num) (byteQuery 5) ()
  have hnot : ¬ AllLeft (byteQuery 5) (byteQuery 5).count.toNat () := by
    intro hleft
    cases hleft with
    | left hneg _ =>
      revert hneg
      decide
  obtain ⟨⟨r, hr, -, hprobes⟩, -⟩ := hbinary (Or.inr hnot)
  exact ⟨r, hr, hprobes⟩

end Refcode.Lists
