import Refcode.Lists.SortThenSearch

/-!
# The binary search on any answers

`ns_binary_search` keeps between two unsigned, inclusive bounds.  Going right it stops
at the end of the list; going left past index `0` the upper bound wraps, and the search
goes on outside the list.

* `nsBinarySearch_stays` — whatever the callback answers, the search stays in the list,
  looks at no element twice and ends, unless it is sent left from index `0`.
* `nsBinarySearch_stays_iff` — in a list of less than half the address space this is
  exactly when it does.
* `nsBinarySearch_finds` — on a list with an element that is equal to the key it is never
  sent there: it finds such an element, and no computation of an index wraps.
-/

namespace Refcode.Lists

open Refcode.Lib

variable {w : ℕ} {σ : Type*} {Q : Query w σ} {c : ℕ → SignType} {x : σ}

/-! ## Sent left to the end -/

/-- The callback answers below zero for the middle of the first `n` elements, for the
middle of those before it, and so on down to index `0`. -/
inductive AllLeft (Q : Query w σ) : ℕ → σ → Prop
  | done (y : σ) : AllLeft Q 0 y
  | left {n : ℕ} {y : σ} : (Q.compare (BitVec.ofNat w (n / 2)) y).1 < 0 →
      AllLeft Q (n / 2) (Q.compare (BitVec.ofNat w (n / 2)) y).2 → AllLeft Q (n + 1) y

/-- A search that looked only at the list, at no element twice, and returned an element
for which the callback has answered zero, or `NULL`. -/
structure StaysInside (Q : Query w σ) (r : Found w σ) : Prop where
  probes_lt : ∀ i ∈ r.probes, i < Q.count
  nodup : r.probes.Nodup
  length_le : r.probes.length ≤ Q.count.toNat
  found : ∀ p, r.result = some p →
    ∃ i < Q.count, p = Q.element i ∧ i ∈ r.probes ∧ ∃ y, Q.compare i y = (0, r.user)

/-- The search ends, and has stayed inside. -/
def Stays (Q : Query w σ) (x : σ) : Prop :=
  ∃ fuel r, nsBinarySearch Q fuel x = some r ∧ StaysInside Q r

/-- **The invariant.**  What was looked at lies in the list and outside the bounds, and
the lower bound has moved or the search is not sent left to the end. -/
structure Halving (Q : Query w σ) (s : BinaryVars w σ) : Prop where
  probes_lt : ∀ i ∈ s.probes, i < Q.count
  nodup : s.probes.Nodup
  apart : ∀ i ∈ s.probes, i.toNat < s.iStart.toNat ∨ s.iEnd.toNat < i.toNat
  lower_le : s.iStart.toNat ≤ s.iEnd.toNat + 1
  upper_lt : s.iEnd.toNat < Q.count.toNat
  notLeft : s.iStart = 0 → ¬ AllLeft Q (s.iEnd.toNat + 1) s.user

/-- Different indices below the count are at most that many. -/
theorem length_le_of_nodup {probes : List (BitVec w)} {n : BitVec w}
    (hlt : ∀ i ∈ probes, i < n) (hnodup : probes.Nodup) : probes.length ≤ n.toNat := by
  have hmap : (probes.map BitVec.toNat).Nodup :=
    hnodup.map fun a b hab => BitVec.eq_of_toNat_eq hab
  have hsub : probes.map BitVec.toNat ⊆ List.range n.toNat := by
    intro k hk
    obtain ⟨i, hi, rfl⟩ := List.mem_map.mp hk
    exact List.mem_range.mpr (hlt i hi)
  have hle := (List.subperm_of_subset hmap hsub).length_le
  rwa [List.length_map, List.length_range] at hle

section Round

variable {s : BinaryVars w σ}

/-- Where a round looks. -/
theorem Halving.iMid_mem (h : Halving Q s) (hw : 2 ≤ w) (hle : s.iStart ≤ s.iEnd) :
    s.iStart.toNat ≤ s.iMid.toNat ∧ s.iMid.toNat ≤ s.iEnd.toNat ∧ s.iMid < Q.count ∧
      s.iMid ∉ s.probes := by
  have hmid : s.iMid.toNat = _ := toNat_mid hw hle
  have hupper := h.upper_lt
  rw [BitVec.le_def] at hle
  refine ⟨by omega, by omega, ?_, ?_⟩
  · rw [BitVec.lt_def]
    omega
  · intro hmem
    have hapart := h.apart s.iMid hmem
    omega

/-- A round that is not answered zero keeps the invariant, if its bounds do. -/
theorem Halving.narrow (h : Halving Q s) (hw : 2 ≤ w) (hle : s.iStart ≤ s.iEnd)
    {lo hi : BitVec w} {y : σ} (hlo : s.iStart.toNat ≤ lo.toNat) (hhi : hi.toNat ≤ s.iEnd.toNat)
    (hcut : s.iMid.toNat < lo.toNat ∨ hi.toNat < s.iMid.toNat) (hnext : lo.toNat ≤ hi.toNat + 1)
    (hnot : lo = 0 → ¬ AllLeft Q (hi.toNat + 1) y) :
    Halving Q ⟨lo, hi, y, s.probes ++ [s.iMid]⟩ := by
  obtain ⟨-, -, hlt, hnew⟩ := h.iMid_mem hw hle
  refine ⟨?_, ?_, ?_, hnext, hhi.trans_lt h.upper_lt, hnot⟩
  · intro j hj
    exact lt_of_mem_snoc h.probes_lt hlt hj
  · exact List.nodup_append_comm.mp (List.nodup_cons.mpr ⟨hnew, h.nodup⟩)
  · intro j hj
    rcases List.mem_append.mp hj with hj | hj
    · rcases h.apart j hj with hj | hj
      · exact .inl (hj.trans_le hlo)
      · exact .inr (hhi.trans_lt hj)
    · rw [List.mem_singleton.mp hj]
      exact hcut

/-- What the callback is asked in the middle of all that is left of the list. -/
theorem toNat_iMid_of_zero (hw : 2 ≤ w) (h0 : s.iStart = 0) :
    s.iMid.toNat = s.iEnd.toNat / 2 := by
  have hmid : s.iMid.toNat = _ := toNat_mid hw (BinaryVars.le_of_zero h0)
  rw [hmid, h0]
  simp

theorem iMid_of_zero (hw : 2 ≤ w) (h0 : s.iStart = 0) :
    s.iMid = BitVec.ofNat w (s.iEnd.toNat / 2) := by
  rw [← toNat_iMid_of_zero hw h0, BitVec.ofNat_toNat, BitVec.setWidth_eq]

/-- A search that is sent left once more is still not sent left to the end. -/
theorem Halving.notLeft_of_neg (h : Halving Q s) (hw : 2 ≤ w) (h0 : s.iStart = 0)
    (hneg : (Q.compare s.iMid s.user).1 < 0) :
    ¬ AllLeft Q s.iMid.toNat (Q.compare s.iMid s.user).2 := by
  intro hall
  have hmid := iMid_of_zero hw h0
  rw [toNat_iMid_of_zero hw h0, hmid] at hall
  rw [hmid] at hneg
  exact h.notLeft h0 (.left hneg hall)

/-- **A round answers, or narrows the bounds.** -/
theorem Halving.round (h : Halving Q s) (hw : 2 ≤ w) :
    (∃ s', binaryRound Q s = .inl s' ∧ Halving Q s' ∧
      s'.iEnd.toNat + 1 - s'.iStart.toNat < s.iEnd.toNat + 1 - s.iStart.toNat) ∨
    ∃ r, binaryRound Q s = .inr r ∧ StaysInside Q r := by
  by_cases hle : s.iStart ≤ s.iEnd
  · obtain ⟨hlo, hhi, hlt, hnew⟩ := h.iMid_mem hw hle
    rcases binaryRound_cases (Q := Q) hle with ⟨hneg, heq⟩ | ⟨hpos, heq⟩ | ⟨hzero, heq⟩
    · have hnot : s.iStart = 0 → ¬ AllLeft Q s.iMid.toNat (Q.compare s.iMid s.user).2 :=
        fun h0 => h.notLeft_of_neg hw h0 hneg
      -- the decrement does not wrap: below index `0` there is nothing left to be sent to
      have hne : s.iMid ≠ 0 := by
        intro hmid
        rw [hmid] at hlo hnot
        apply hnot
        · apply BitVec.eq_of_toNat_eq
          simpa using hlo
        · exact .done _
      have hpred := toNat_sub_one_add_one hne
      refine .inl ⟨_, heq, ?_, ?_⟩
      · apply h.narrow hw hle
        · exact le_rfl
        · omega
        · right
          omega
        · omega
        · rw [hpred]
          exact hnot
      · show (s.iMid - 1).toNat + 1 - s.iStart.toNat < _
        omega
    · have hsucc : (s.iMid + 1).toNat = s.iMid.toNat + 1 := toNat_add_one hlt
      refine .inl ⟨_, heq, ?_, ?_⟩
      · apply h.narrow hw hle
        · omega
        · exact le_rfl
        · left
          omega
        · omega
        · intro h0
          rw [h0] at hsucc
          simp at hsucc
      · show s.iEnd.toNat + 1 - (s.iMid + 1).toNat < _
        omega
    · have hprobes : ∀ j ∈ s.probes ++ [s.iMid], j < Q.count := fun j hj =>
        lt_of_mem_snoc h.probes_lt hlt hj
      have hnodup : (s.probes ++ [s.iMid]).Nodup :=
        List.nodup_append_comm.mp (List.nodup_cons.mpr ⟨hnew, h.nodup⟩)
      refine .inr ⟨_, heq, hprobes, hnodup, length_le_of_nodup hprobes hnodup, ?_⟩
      rintro p hp
      rw [← Option.some_inj.mp hp]
      exact ⟨s.iMid, hlt, rfl, by simp, s.user, Prod.ext hzero rfl⟩
  · refine .inr ⟨_, binaryRound_empty hle, h.probes_lt, h.nodup,
      length_le_of_nodup h.probes_lt h.nodup, ?_⟩
    intro p hp
    cases hp

end Round

/-- **The search stays in the list and ends**, unless it is sent left to the end. -/
theorem nsBinarySearch_stays (hw : 2 ≤ w) (hnot : Q.count ≠ 0 → ¬ AllLeft Q Q.count.toNat x) :
    Stays Q x := by
  by_cases hcount : Q.count = 0
  · have hstays : StaysInside Q (⟨none, x, []⟩ : Found w σ) := by
      refine ⟨by simp, List.nodup_nil, Nat.zero_le _, ?_⟩
      intro p hp
      cases hp
    exact ⟨0, _, if_pos hcount, hstays⟩
  · have hlast := toNat_sub_one_add_one hcount
    have hinit : Halving Q (⟨0, Q.count - 1, x, []⟩ : BinaryVars w σ) := by
      refine ⟨by simp, List.nodup_nil, by simp, by simp, ?_, ?_⟩
      · show (Q.count - 1).toNat < Q.count.toNat
        omega
      · intro _
        show ¬ AllLeft Q ((Q.count - 1).toNat + 1) x
        rw [hlast]
        exact hnot hcount
    obtain ⟨r, hr, hstays⟩ := loop_total (Halving Q)
      (fun s => s.iEnd.toNat + 1 - s.iStart.toNat) (fun s hs => hs.round hw) hinit
      (Nat.lt_succ_self _)
    exact ⟨_, r, (if_neg hcount).trans hr, hstays⟩

/-! ## Past the left end -/

/-- Where the search is that is sent left to the end: at the middle of the first
elements, at the wrapped bound, or past the list. -/
def SentLeft (Q : Query w σ) (s : BinaryVars w σ) : Prop :=
  (s.iStart = 0 ∧ AllLeft Q (s.iEnd.toNat + 1) s.user) ∨
    (s.iStart = 0 ∧ s.iEnd.toNat = 2 ^ w - 1) ∨ ∃ i ∈ s.probes, ¬ i < Q.count

/-- One less than index `0` is the top of the address space. -/
theorem toNat_zero_sub_one : ((0 : BitVec w) - 1).toNat = 2 ^ w - 1 := by
  show (0#w - 1#w).toNat = 2 ^ w - 1
  rw [BitVec.zero_sub, BitVec.neg_one_eq_allOnes, BitVec.toNat_allOnes]

/-- Up to the wrapped bound the middle is past a list of less than half the address
space. -/
theorem wrapped_outside {s : BinaryVars w σ} (hw : 2 ≤ w) (hhalf : Q.count.toNat < 2 ^ (w - 1))
    (h0 : s.iStart = 0) (hend : s.iEnd.toNat = 2 ^ w - 1) :
    s.iStart ≤ s.iEnd ∧ ¬ s.iMid < Q.count := by
  have hpow : 2 * 2 ^ (w - 1) = 2 ^ w := mul_pow_sub_one (by omega) 2
  refine ⟨BinaryVars.le_of_zero h0, ?_⟩
  rw [BitVec.lt_def, toNat_iMid_of_zero hw h0, hend]
  omega

theorem SentLeft.round {s : BinaryVars w σ} (h : SentLeft Q s) (hw : 2 ≤ w)
    (hhalf : Q.count.toNat < 2 ^ (w - 1)) :
    (∃ s', binaryRound Q s = .inl s' ∧ SentLeft Q s') ∨
      ∃ r, binaryRound Q s = .inr r ∧ ∃ i ∈ r.probes, ¬ i < Q.count := by
  have hlost : ∀ s' : BinaryVars w σ, (∃ i ∈ s'.probes, ¬ i < Q.count) → SentLeft Q s' :=
    fun _ hout => .inr (.inr hout)
  rcases h with ⟨h0, hleft⟩ | ⟨h0, hend⟩ | hprobes
  · have hnat := toNat_iMid_of_zero hw h0
    cases hleft with
    | left hneg hrest =>
      rw [← iMid_of_zero hw h0] at hneg hrest
      rcases binaryRound_cases (Q := Q) (BinaryVars.le_of_zero h0) with
        ⟨-, heq⟩ | ⟨hpos, -⟩ | ⟨hzero, -⟩
      · refine .inl ⟨_, heq, ?_⟩
        by_cases hfirst : s.iMid = 0
        · refine .inr (.inl ⟨h0, ?_⟩)
          show (s.iMid - 1).toNat = 2 ^ w - 1
          rw [hfirst, toNat_zero_sub_one]
        · refine .inl ⟨h0, ?_⟩
          show AllLeft Q ((s.iMid - 1).toNat + 1) _
          rw [toNat_sub_one_add_one hfirst, hnat]
          exact hrest
      · omega
      · omega
  · exact binaryRound_outside hlost (fun _ => id) (.inr (wrapped_outside hw hhalf h0 hend))
  · exact binaryRound_outside hlost (fun _ => id) (.inl hprobes)

/-- **Sent left from index `0`, the search looks outside the list**, at the middle of
the address space. -/
theorem nsBinarySearch_leaves_of_allLeft {r : Found w σ} {fuel : ℕ} (hw : 2 ≤ w)
    (hcount : Q.count ≠ 0) (hhalf : Q.count.toNat < 2 ^ (w - 1))
    (hleft : AllLeft Q Q.count.toNat x) (hr : nsBinarySearch Q fuel x = some r) :
    ∃ i ∈ r.probes, ¬ i < Q.count := by
  rw [nsBinarySearch, if_neg hcount] at hr
  let Post : Found w σ → Prop := fun r => ∃ i ∈ r.probes, ¬ i < Q.count
  refine loop_sound (SentLeft Q) Post (fun s hs => hs.round hw hhalf) (.inl ⟨rfl, ?_⟩) hr
  show AllLeft Q ((Q.count - 1).toNat + 1) x
  rwa [toNat_sub_one_add_one hcount]

/-- **When the search stays in the list and ends.**  It does so unless the callback
answers below zero all the way down to index `0`; in a list of less than half the
address space only then. -/
theorem nsBinarySearch_stays_iff (hw : 2 ≤ w) (Q : Query w σ) (x : σ) :
    (Q.count = 0 ∨ ¬ AllLeft Q Q.count.toNat x → Stays Q x) ∧
      (Q.count.toNat < 2 ^ (w - 1) →
        (Stays Q x ↔ Q.count = 0 ∨ ¬ AllLeft Q Q.count.toNat x)) := by
  have henough : Q.count = 0 ∨ ¬ AllLeft Q Q.count.toNat x → Stays Q x := by
    intro h
    apply nsBinarySearch_stays hw
    intro hcount
    exact h.resolve_left hcount
  refine ⟨henough, ?_⟩
  intro hhalf
  refine ⟨?_, henough⟩
  rintro ⟨fuel, r, hr, hstays⟩
  by_contra h
  push Not at h
  obtain ⟨i, hi, hout⟩ := nsBinarySearch_leaves_of_allLeft hw h.1 hhalf h.2 hr
  exact hout (hstays.probes_lt i hi)

theorem nsBinarySearch_stays_byteQuery : Stays (byteQuery 5) () := by
  have hiff := (nsBinarySearch_stays_iff (by norm_num) (byteQuery 5) ()).2 (by decide)
  apply hiff.mpr
  right
  intro hleft
  cases hleft with
  | left hneg _ =>
    revert hneg
    decide

/-- The key `0` is below all of the list, and the callback answers so three times. -/
theorem nsBinarySearch_byteQuery_zero : ¬ Stays (byteQuery 0) () := by
  rintro ⟨fuel, r, hr, hstays⟩
  have hleft : AllLeft (byteQuery 0) (byteQuery 0).count.toNat () := by
    apply AllLeft.left (n := 9) (by decide)
    apply AllLeft.left (n := 3) (by decide)
    apply AllLeft.left (n := 0) (by decide)
    exact .done _
  obtain ⟨i, hi, hout⟩ :=
    nsBinarySearch_leaves_of_allLeft (by norm_num) (by decide) (by decide) hleft hr
  exact hout (hstays.probes_lt i hi)

/-! ## Finding a key that is there -/

/-- The list does not pass the top of the address space. -/
def Query.Fits (Q : Query w σ) : Prop :=
  Q.pList.toNat + Q.count.toNat * Q.stride.toNat ≤ 2 ^ w

/-- No index that the next round computes wraps. -/
structure NoWrap (Q : Query w σ) (s : BinaryVars w σ) : Prop where
  mid : s.iMid.toNat = s.iStart.toNat + (s.iEnd.toNat - s.iStart.toNat) / 2
  up : 0 < (Q.compare s.iMid s.user).1 → (s.iMid + 1).toNat = s.iMid.toNat + 1
  down : (Q.compare s.iMid s.user).1 < 0 → (s.iMid - 1).toNat + 1 = s.iMid.toNat

/-- No element of a list is at `NULL`. -/
theorem Query.Fits.element_ne_null (hfits : Q.Fits) (hlist : Q.pList ≠ 0) {i : BitVec w}
    (hi : i < Q.count) : Q.element i ≠ 0 := by
  let A : SortArgs w σ := ⟨Q.pList, Q.count, Q.stride, Q.compareProc, Q.pUserData⟩
  have hA : A.Fits := hfits
  have hne : A.element i.toNat ≠ 0 := hA.element_ne_null hlist hi
  rwa [SortArgs.element, BitVec.ofNat_toNat, BitVec.setWidth_eq] at hne

/-- Between bounds that hold the zeros of a falling list nothing wraps. -/
theorem Narrowed.noWrap {s : BinaryVars w σ} (h : Narrowed Q c s) (hw : 2 ≤ w) (hc : Q.Signs c)
    (hfirst : c 0 ≠ -1) (hle : s.iStart ≤ s.iEnd) : NoWrap Q s := by
  have hlt := h.iMid_lt hw hle
  refine ⟨toNat_mid hw hle, ?_, ?_⟩
  · intro _
    exact toNat_add_one hlt
  · intro hneg
    rw [hc.neg_iff hlt] at hneg
    exact toNat_sub_one_add_one (ne_zero_of_neg hfirst hneg)

/-- **The binary search finds every present key**, and computes no index that wraps on
its way. -/
theorem nsBinarySearch_finds (hw : 2 ≤ w) (hc : Q.Signs c) (hrun : SignRun c Q.count.toNat)
    (hzero : ∃ j < Q.count.toNat, c j = 0) (x : σ) :
    (∃ fuel r, ∃ i < Q.count, nsBinarySearch Q fuel x = some r ∧
        r.result = some (Q.element i) ∧ (Q.Fits → Q.pList ≠ 0 → Q.element i ≠ 0) ∧
        (∀ y, (Q.compare i y).1 = 0) ∧ ∀ j ∈ r.probes, j < Q.count) ∧
      ∀ s, Reached (binaryRound Q) ⟨0, Q.count - 1, x, []⟩ s → s.iStart ≤ s.iEnd →
        NoWrap Q s := by
  obtain ⟨j, hj, hcj⟩ := hzero
  have hfall := hrun.falling
  have hfirst : c 0 ≠ -1 := hfall.first_ne hj hcj
  constructor
  · obtain ⟨r, hr, hans⟩ := nsBinarySearch_total hw hc hfall (fun _ => hfirst)
      (Nat.lt_succ_self Q.count.toNat) (x := x)
    obtain ⟨i, hi, hres, hci⟩ := hans.found hj hcj
    refine ⟨_, r, i, hi, hr, hres, ?_, ?_, hans.probes_lt⟩
    · intro hfits hlist
      exact hfits.element_ne_null hlist hi
    · intro y
      exact (hc.zero_iff hi).mpr hci
  · intro s hs hle
    have hnarrowed : Narrowed Q c s := by
      apply hs.invariant
      · intro t u ht hround
        rcases ht.round hw hc hfall hfirst with ⟨t', heq, ht', -⟩ | ⟨r, heq, -⟩
        · rw [hround] at heq
          exact (Sum.inl.inj heq) ▸ ht'
        · rw [hround] at heq
          cases heq
      · exact .start (ne_zero_of_lt_toNat hj)
    exact hnarrowed.noWrap hw hc hfirst hle

theorem nsBinarySearch_finds_byteQuery : ∃ fuel r, ∃ i < (byteQuery 5).count,
    nsBinarySearch (byteQuery 5) fuel () = some r ∧ r.result = some ((byteQuery 5).element i) := by
  have hrun : SignRun (byteQuery 5).signsOf (byteQuery 5).count.toNat :=
    ⟨4, 5, by decide, by decide, by decide, by decide, by decide⟩
  obtain ⟨⟨fuel, r, i, hi, hr, hres, -⟩, -⟩ := nsBinarySearch_finds (by norm_num)
    (byteQuery 5).signs_signsOf hrun ⟨4, by decide, by decide⟩ ()
  exact ⟨fuel, r, i, hi, hr, hres⟩

end Refcode.Lists
