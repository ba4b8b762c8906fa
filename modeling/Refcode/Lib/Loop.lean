import Mathlib.Data.Nat.Notation

/-!
# Loops

`loop body` runs the body of a `while` or `for` loop from a state until it leaves
with a result, or until the fuel is spent.

* `loop_total` — the rule with a measure: the loop leaves within the measure, and
  with a result that satisfies the postcondition.
* `loop_sound` — the rule without one: if the loop leaves, its result satisfies the
  postcondition.
* `Reached.invariant` — what every round keeps holds at the start of every round.
-/

namespace Refcode.Lib

variable {S R : Type*}

/-- Run the body until it leaves with a result: `.inl` goes round again. -/
def loop (body : S → S ⊕ R) : ℕ → S → Option R
  | 0, _ => none
  | fuel + 1, s =>
    match body s with
    | .inl s' => loop body fuel s'
    | .inr r => some r

variable {body : S → S ⊕ R} {s s' : S} {r : R} {fuel : ℕ}

theorem loop_inl (h : body s = .inl s') : loop body (fuel + 1) s = loop body fuel s' := by
  rw [loop, h]

theorem loop_inr (h : body s = .inr r) : loop body (fuel + 1) s = some r := by rw [loop, h]

/-- **Total correctness.**  Every round that does not leave keeps the invariant
and lowers the measure. -/
theorem loop_total (Inv : S → Prop) {Post : R → Prop} (measure : S → ℕ)
    (hround : ∀ s, Inv s →
      (∃ s', body s = .inl s' ∧ Inv s' ∧ measure s' < measure s) ∨ ∃ r, body s = .inr r ∧ Post r)
    (h : Inv s) (hfuel : measure s < fuel) : ∃ r, loop body fuel s = some r ∧ Post r := by
  induction fuel generalizing s with
  | zero => exact absurd hfuel (Nat.not_lt_zero _)
  | succ fuel ih =>
    rcases hround s h with ⟨s', hb, hinv, hlt⟩ | ⟨r, hb, hpost⟩
    · rw [loop_inl hb]
      exact ih hinv (Nat.lt_of_lt_of_le hlt (Nat.le_of_lt_succ hfuel))
    · exact ⟨r, loop_inr hb, hpost⟩

/-- **Partial correctness.** -/
theorem loop_sound (Inv : S → Prop) (Post : R → Prop)
    (hround : ∀ s, Inv s →
      (∃ s', body s = .inl s' ∧ Inv s') ∨ ∃ r, body s = .inr r ∧ Post r)
    (h : Inv s) (hr : loop body fuel s = some r) : Post r := by
  induction fuel generalizing s with
  | zero => cases hr
  | succ fuel ih =>
    rcases hround s h with ⟨s', hb, hinv⟩ | ⟨r', hb, hpost⟩
    · rw [loop_inl hb] at hr
      exact ih hinv hr
    · rw [loop_inr hb] at hr
      cases hr
      exact hpost

/-- The loop comes to `t` at the start of a round. -/
inductive Reached (body : S → S ⊕ R) (s : S) : S → Prop
  | start : Reached body s s
  | round {t u : S} : Reached body s t → body t = .inl u → Reached body s u

/-- **Invariants.** -/
theorem Reached.invariant {Inv : S → Prop} (hr : Reached body s s')
    (hround : ∀ t u, Inv t → body t = .inl u → Inv u) (h : Inv s) : Inv s' := by
  induction hr with
  | start => exact h
  | round _ hb ih => exact hround _ _ ih hb

end Refcode.Lib
