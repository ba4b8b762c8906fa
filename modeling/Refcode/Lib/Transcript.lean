import Mathlib
import Refcode.Lib.InsertionSort

/-!
# The answers of an insertion

What an oracle answers in the course of an insertion is a list of decisions.  An oracle
that only reads them off (`replay`) leads to the same list (`insertionSort_replay`), and
there are at most as many as there are pairs of elements (`length_insertAnswers_le`).
-/

namespace Refcode.Lib

variable {α τ : Type*} (ask : ℕ → α → α → τ → Bool × τ)

/-- The answers while `x` is moved left. -/
def settleAnswers (x : α) : List α → τ → List Bool
  | [], _ => []
  | p :: ps, y =>
    let r := ask ps.length p x y
    if r.1 then [true] else false :: settleAnswers x ps r.2

/-- The answers while all elements of the second list are inserted. -/
def insertAnswers : List α → List α → τ → List Bool
  | _, [], _ => []
  | acc, x :: xs, y =>
    let t := settle ask x acc y
    settleAnswers ask x acc y ++ insertAnswers t.1 xs t.2

/-- Answer what comes next in the list, whatever the elements are. -/
def replay (_ : ℕ) (_ _ : α) : List Bool → Bool × List Bool
  | [] => (true, [])
  | a :: answers => (a, answers)

variable {ask} {x : α} {ps acc l : List α} {y : τ} {rest : List Bool}

theorem settle_replay : settle replay x ps (settleAnswers ask x ps y ++ rest) =
    ((settle ask x ps y).1, rest) := by
  induction ps generalizing y with
  | nil => rfl
  | cons p ps ih =>
    rw [settleAnswers, settle, settle]
    by_cases hans : (ask ps.length p x y).1 = true
    · simp [hans, replay]
    · simp [hans, replay, ih]

theorem insertFrom_replay : insertFrom replay acc l (insertAnswers ask acc l y ++ rest) =
    ((insertFrom ask acc l y).1, rest) := by
  induction l generalizing acc y with
  | nil => rfl
  | cons x xs ih =>
    rw [insertAnswers, insertFrom, insertFrom, List.append_assoc]
    simp only [settle_replay]
    exact ih

/-- **The answers determine the result.** -/
theorem insertionSort_replay :
    insertionSort replay l (insertAnswers ask [] l y) = insertionSort ask l y := by
  have hrun : insertFrom replay [] l (insertAnswers ask [] l y ++ []) =
      ((insertFrom ask [] l y).1, []) := insertFrom_replay
  rw [List.append_nil] at hrun
  rw [insertionSort, hrun, insertionSort]

theorem length_settleAnswers_le : (settleAnswers ask x ps y).length ≤ ps.length := by
  induction ps generalizing y with
  | nil => simp [settleAnswers]
  | cons p ps ih =>
    rw [settleAnswers]
    split
    · simp
    · simpa using ih

/-- One answer for each pair of which an element is still to be inserted, at most. -/
theorem length_insertAnswers_le :
    acc.length.choose 2 + (insertAnswers ask acc l y).length
      ≤ (acc.length + l.length).choose 2 := by
  induction l generalizing acc y with
  | nil => simp [insertAnswers]
  | cons x xs ih =>
    have hfirst : (settleAnswers ask x acc y).length ≤ acc.length := length_settleAnswers_le
    have hnext := @ih (settle ask x acc y).1 (settle ask x acc y).2
    have hchoose : (acc.length + 1).choose 2 = acc.length + acc.length.choose 2 := by
      rw [Nat.choose_succ_succ, Nat.choose_one_right]
    rw [length_settle, hchoose] at hnext
    rw [insertAnswers, List.length_append, List.length_cons,
      show acc.length + (xs.length + 1) = acc.length + 1 + xs.length by omega]
    omega

end Refcode.Lib
