import Mathlib
import Refcode.Lib.Transition

/-!
# Bounding runs by a cost

A cost is a natural number read off the state, and a gain one read off the label.  Where
every step from `s` to `t` with label `l` has `cost t + 1 ≤ cost s + gain l`, only finitely
many steps can follow one another whose labels gain nothing.

* `Paid` — the inequality, for the states in which an invariant holds.
* `Paid.length_le` — a run is at most as long as the cost it starts with and the gains of
  its labels together.
* `Paid.exists_settled` — by steps that gain nothing, a state is reached from which every
  step gains something.
* `sum_move` — how much the sum of the costs of all threads grows when one thread moves.
-/

namespace Refcode.Lib

variable {S L : Type*} {step : S → L → S → Prop} {Inv : S → Prop} {cost : S → ℕ} {gain : L → ℕ}
  {s t : S} {ls : List L}

/-- Where `Inv` holds, a step keeps it, and **lowers the cost by one at least**, not counting
what its label gains. -/
structure Paid (step : S → L → S → Prop) (Inv : S → Prop) (cost : S → ℕ) (gain : L → ℕ) :
    Prop where
  keeps : ∀ {x : S} {l : L} {y : S}, Inv x → step x l y → Inv y
  pays : ∀ {x : S} {l : L} {y : S}, Inv x → step x l y → cost y + 1 ≤ cost x + gain l

/-- Every step from `s` has a label that gains something. -/
def Settled (step : S → L → S → Prop) (gain : L → ℕ) (s : S) : Prop :=
  ∀ l t, step s l t → gain l ≠ 0

theorem Paid.keeps_run (hpaid : Paid step Inv cost gain) (hs : Inv s) (h : Run step s ls t) :
    Inv t := by
  apply h.preserves hs
  intro x l y hx hstep
  exact hpaid.keeps hx hstep

/-- **The length of a run** and the cost it ends with are at most the cost it starts with
and the gains of its labels. -/
theorem Paid.length_le (hpaid : Paid step Inv cost gain) (hs : Inv s) (h : Run step s ls t) :
    ls.length + cost t ≤ cost s + (ls.map gain).sum := by
  induction h with
  | nil => simp
  | @snoc ls t u l hrun hstep ih =>
    have hpay : cost u + 1 ≤ cost t + gain l := hpaid.pays (hpaid.keeps_run hs hrun) hstep
    simp only [List.length_append, List.length_singleton, List.map_append, List.map_singleton,
      List.sum_append, List.sum_singleton]
    omega

/-- **Coming to rest.**  From a state with the invariant, a run of steps that gain nothing
leads to a settled state.  By induction on the cost. -/
theorem Paid.exists_settled (hpaid : Paid step Inv cost gain) (hs : Inv s) :
    ∃ ls t, Run step s ls t ∧ (∀ l ∈ ls, gain l = 0) ∧ Settled step gain t := by
  induction hn : cost s using Nat.strong_induction_on generalizing s with
  | _ n ih =>
    by_cases hstuck : Settled step gain s
    · exact ⟨[], s, .nil, by simp, hstuck⟩
    · simp only [Settled, not_forall, not_not] at hstuck
      obtain ⟨l, u, hstep, hfree⟩ := hstuck
      have hpay : cost u + 1 ≤ cost s + gain l := hpaid.pays hs hstep
      obtain ⟨ls, t, hrun, hnone, hend⟩ := ih (cost u) (by omega) (hpaid.keeps hs hstep) rfl
      refine ⟨l :: ls, t, .cons hstep hrun, ?_, hend⟩
      simpa [hfree] using hnone

/-- **One thread moves.**  If the value of every thread but `t` grows by at most `k`, the
sum over all threads grows by at most what `t` gains and `k` for every thread. -/
theorem sum_move {T : Type*} [Fintype T] [DecidableEq T] {f g : T → ℕ} {t : T} {k : ℕ}
    (h : ∀ u, u ≠ t → g u ≤ f u + k) :
    ∑ u, g u + f t ≤ ∑ u, f u + g t + k * Fintype.card T := by
  have hrest : ∑ u ∈ Finset.univ.erase t, g u ≤ ∑ u ∈ Finset.univ.erase t, (f u + k) :=
    Finset.sum_le_sum fun u hu => h u (Finset.ne_of_mem_erase hu)
  have hcard : (Finset.univ.erase t).card * k ≤ k * Fintype.card T := by
    rw [Nat.mul_comm]
    exact Nat.mul_le_mul_left k (Finset.card_le_univ _)
  rw [Finset.sum_add_distrib, Finset.sum_const_nat fun _ _ => rfl] at hrest
  rw [← Finset.add_sum_erase _ f (Finset.mem_univ t),
    ← Finset.add_sum_erase _ g (Finset.mem_univ t)]
  omega

end Refcode.Lib
