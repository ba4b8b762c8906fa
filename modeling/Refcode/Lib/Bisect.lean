import Mathlib.Data.Sign.Defs

/-!
# Narrowing in on a falling sign

A sequence of signs `c 0, …, c (n - 1)` that starts positive, passes through zero
and ends negative is falling (`SignRun.falling`).  A bracket keeps the positions
where it may be zero between two bounds; the answer at a position inside narrows
it from above or from below, and an empty bracket leaves no zero.  `Visits` are the
positions that are looked at when every answer is taken in the middle.
-/

namespace Refcode.Lib

/-- Positive on the first positions, then zero, then negative; each part may be
empty. -/
def SignRun (c : ℕ → SignType) (n : ℕ) : Prop :=
  ∃ a b, a ≤ b ∧ b ≤ n ∧ (∀ i < a, c i = 1) ∧ (∀ i, a ≤ i → i < b → c i = 0) ∧
    ∀ i, b ≤ i → i < n → c i = -1

/-- Later positions have lower signs. -/
def Falling (c : ℕ → SignType) (n : ℕ) : Prop := ∀ i j, i ≤ j → j < n → c j ≤ c i

/-- All positions below `lo` are positive, all from `hi` on are negative. -/
structure Bracket (c : ℕ → SignType) (n lo hi : ℕ) : Prop where
  lo_le : lo ≤ hi
  hi_le : hi ≤ n
  below : ∀ i < lo, c i = 1
  above : ∀ i, hi ≤ i → i < n → c i = -1

variable {c : ℕ → SignType} {n lo hi i j : ℕ}

theorem SignRun.falling (h : SignRun c n) : Falling c n := by
  obtain ⟨a, b, hab, hbn, hpos, hzero, hneg⟩ := h
  intro i j hij hj
  rcases Nat.lt_or_ge i a with hi | hi
  · rw [hpos i hi]
    exact SignType.le_one _
  · rcases Nat.lt_or_ge j b with hjb | hjb
    · rw [hzero i hi (by omega), hzero j (by omega) hjb]
    · rw [hneg j hjb hj]
      exact SignType.neg_one_le _

/-- Below a positive position all are positive. -/
theorem Falling.pos (h : Falling c n) (hij : i ≤ j) (hj : j < n) (hc : c j = 1) : c i = 1 :=
  le_antisymm (SignType.le_one _) (hc ▸ h i j hij hj)

/-- After a negative position all are negative. -/
theorem Falling.neg (h : Falling c n) (hij : i ≤ j) (hj : j < n) (hc : c i = -1) : c j = -1 :=
  le_antisymm (hc ▸ h i j hij hj) (SignType.neg_one_le _)

/-- If there is a zero, the first position is not negative. -/
theorem Falling.first_ne (h : Falling c n) (hi : i < n) (hc : c i = 0) : c 0 ≠ -1 := by
  intro h0
  have hneg := h.neg (Nat.zero_le i) hi h0
  rw [hc] at hneg
  cases hneg

namespace Bracket

theorem all : Bracket c n 0 n :=
  ⟨Nat.zero_le n, le_rfl, fun _ h => absurd h (Nat.not_lt_zero _), fun _ h h' => by omega⟩

/-- A negative answer at `i` narrows the bracket from above. -/
theorem lower (h : Bracket c n lo hi) (hc : Falling c n) (hlo : lo ≤ i) (hhi : i < hi)
    (hneg : c i = -1) : Bracket c n lo i :=
  ⟨hlo, (hhi.trans_le h.hi_le).le, h.below, fun _ hij hj => hc.neg hij hj hneg⟩

/-- A positive answer at `i` narrows it from below. -/
theorem raise (h : Bracket c n lo hi) (hc : Falling c n) (hhi : i < hi) (hpos : c i = 1) :
    Bracket c n (i + 1) hi :=
  ⟨hhi, h.hi_le, fun _ hji => hc.pos (Nat.le_of_lt_succ hji) (hhi.trans_le h.hi_le) hpos, h.above⟩

/-- Every zero lies inside. -/
theorem zero_mem (h : Bracket c n lo hi) (hin : i < n) (hc : c i = 0) : lo ≤ i ∧ i < hi := by
  constructor
  · by_contra hlt
    rw [h.below i (Nat.lt_of_not_le hlt)] at hc
    cases hc
  · by_contra hlt
    rw [h.above i (Nat.le_of_not_lt hlt) hin] at hc
    cases hc

end Bracket

/-! ## Taking the middle -/

/-- The middle of the positions from `lo` on and before `hi`, the lower one of two. -/
def middle (lo hi : ℕ) : ℕ := lo + (hi - 1 - lo) / 2

theorem middle_mem (h : lo < hi) : lo ≤ middle lo hi ∧ middle lo hi < hi := by
  unfold middle
  omega

/-- Narrowing in on the signs `c` from `lo` on and before `hi`, position `i` is looked
at. -/
inductive Visits (c : ℕ → SignType) : ℕ → ℕ → ℕ → Prop
  | here {lo hi : ℕ} : lo < hi → Visits c lo hi (middle lo hi)
  | left {lo hi i : ℕ} : lo < hi → c (middle lo hi) = -1 → Visits c lo (middle lo hi) i →
      Visits c lo hi i
  | right {lo hi i : ℕ} : lo < hi → c (middle lo hi) = 1 → Visits c (middle lo hi + 1) hi i →
      Visits c lo hi i

/-- **The positions looked at**, by the sign in the middle. -/
theorem Visits.inv (h : Visits c lo hi i) :
    i = middle lo hi ∨ c (middle lo hi) = -1 ∧ Visits c lo (middle lo hi) i ∨
      c (middle lo hi) = 1 ∧ Visits c (middle lo hi + 1) hi i := by
  cases h with
  | here _ => exact .inl rfl
  | left _ hneg h => exact .inr (.inl ⟨hneg, h⟩)
  | right _ hpos h => exact .inr (.inr ⟨hpos, h⟩)

/-- Only positions between the bounds are looked at. -/
theorem Visits.mem (h : Visits c lo hi i) : lo ≤ i ∧ i < hi := by
  induction h with
  | here h => exact middle_mem h
  | left h _ _ ih =>
    have hmid := middle_mem h
    omega
  | right h _ _ ih =>
    have hmid := middle_mem h
    omega

end Refcode.Lib
