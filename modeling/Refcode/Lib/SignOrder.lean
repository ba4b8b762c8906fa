import Mathlib

/-!
# Comparisons that answer by sign

A comparison function answers below, at or above zero.  `TotalPreorderOn T rel`
says that on the elements of `T` its answers are those of a total preorder.
-/

namespace Refcode.Lib

variable {α : Type*}

/-- On `T`, the signs of `rel` are those of a total preorder. -/
structure TotalPreorderOn (T : α → Prop) (rel : α → α → ℤ) : Prop where
  antisymm : ∀ a b, T a → T b → (rel a b < 0 ↔ 0 < rel b a)
  trans : ∀ a b c, T a → T b → T c → rel a b ≤ 0 → rel b c ≤ 0 → rel a c ≤ 0

namespace TotalPreorderOn

variable {T : α → Prop} {rel : α → α → ℤ} {a b k : α} (h : TotalPreorderOn T rel)
include h

theorem total (ha : T a) (hb : T b) : rel a b ≤ 0 ∨ rel b a ≤ 0 := by
  have := h.antisymm b a hb ha
  omega

/-- What a larger element is compared with answers a lower sign. -/
theorem sign_le (ha : T a) (hb : T b) (hk : T k) (hab : rel a b ≤ 0) :
    SignType.sign (rel k b) ≤ SignType.sign (rel k a) := by
  rcases lt_trichotomy (rel k a) 0 with hlt | heq | hgt
  · -- `k` is below `a`, and so below `b`
    have hkb : rel k b < 0 := by
      by_contra hge
      have hbk : rel b k ≤ 0 := not_lt.1 fun hpos => hge ((h.antisymm k b hk hb).2 hpos)
      exact absurd ((h.antisymm k a hk ha).1 hlt) (not_lt.2 (h.trans a b k ha hb hk hab hbk))
    rw [sign_neg hkb]
    exact SignType.neg_one_le _
  · rw [heq, sign_zero]
    exact sign_nonpos_iff.2 (h.trans k a b hk ha hb heq.le hab)
  · rw [sign_pos hgt]
    exact SignType.le_one _

end TotalPreorderOn

end Refcode.Lib
