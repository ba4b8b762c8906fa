import Mathlib.Data.Fintype.Card
import Mathlib.Algebra.Order.BigOperators.Group.Finset

/-!
# Counting threads

`tally P f` is the number of threads `t` whose local state `f t` satisfies `P`.
When one thread moves, the tally changes by what that thread contributes
(`tally_move`); when several move at once, tallies are compared thread by thread.
-/

namespace Refcode.Lib

variable {T S : Type*} [Fintype T] {P : S → Prop} [DecidablePred P] {f g : T → S} {t : T}

/-- The number of threads in a state that satisfies `P`. -/
def tally (P : S → Prop) [DecidablePred P] (f : T → S) : ℕ :=
  (Finset.univ.filter fun t => P (f t)).card

/-- One thread more is counted, and none less. -/
theorem tally_lt (h : ∀ t, P (f t) → P (g t)) (hf : ¬ P (f t)) (hg : P (g t)) :
    tally P f < tally P g := by
  refine Finset.card_lt_card ⟨Finset.monotone_filter_right _ fun t _ => h t, fun hsub => hf ?_⟩
  have hmem := hsub (Finset.mem_filter.2 ⟨Finset.mem_univ t, hg⟩)
  exact (Finset.mem_filter.1 hmem).2

theorem tally_pos (h : P (f t)) : 0 < tally P f :=
  Finset.card_pos.2 ⟨t, Finset.mem_filter.2 ⟨Finset.mem_univ t, h⟩⟩

theorem tally_eq_zero (h : ∀ t, ¬ P (f t)) : tally P f = 0 :=
  Finset.card_eq_zero.2 (Finset.filter_eq_empty_iff.2 fun t _ => h t)

/-- **One thread moves.**  If the others stay where they were, as far as `P` can tell,
the tally changes by what the thread contributes. -/
theorem tally_move [DecidableEq T] (h : ∀ u, u ≠ t → (P (f u) ↔ P (g u))) :
    tally P g + (if P (f t) then 1 else 0) = tally P f + (if P (g t) then 1 else 0) := by
  have hsplit : ∀ g : T → S, tally P g
      = ((Finset.univ.erase t).filter fun u => P (g u)).card + (if P (g t) then 1 else 0) := by
    intro g
    rw [tally, ← Finset.insert_erase (Finset.mem_univ t), Finset.filter_insert]
    split_ifs
    · rw [Finset.card_insert_of_notMem (by simp), Finset.insert_erase (Finset.mem_univ t)]
    · rw [Finset.insert_erase (Finset.mem_univ t), Nat.add_zero]
  have hrest : ((Finset.univ.erase t).filter fun u => P (f u))
      = (Finset.univ.erase t).filter fun u => P (g u) :=
    Finset.filter_congr fun u hu => h u (Finset.ne_of_mem_erase hu)
  rw [hsplit g, hsplit f, hrest]
  omega

end Refcode.Lib
