import Mathlib.Data.List.Induction
import Mathlib.Data.List.Perm.Basic

/-!
# Insertion by adjacent exchanges

The last element of a list is moved left, one exchange at a time, for as long as
an oracle asks for it; inserting the elements of a list one after the other sorts
it.  The oracle is told the position of the pair and the two elements, and may
answer from a state of its own.  The part already inserted is kept in reverse, so
that its last element is at hand.

* `insertionSort_perm` — nothing is lost, whatever the oracle answers.
* `insertionSort_sorted` — the result is sorted when the oracle answers by a total
  order on the elements of the list.
-/

namespace Refcode.Lib

variable {α τ : Type*} (ask : ℕ → α → α → τ → Bool × τ)

/-- Move `x` left past the elements of the reversed list, until the oracle is
content with the pair at hand. -/
def settle (x : α) : List α → τ → List α × τ
  | [], y => ([x], y)
  | p :: ps, y =>
    let r := ask ps.length p x y
    if r.1 then (x :: p :: ps, r.2)
    else
      let t := settle x ps r.2
      (p :: t.1, t.2)

/-- Insert the elements of the second list after those of the first, which is
reversed. -/
def insertFrom : List α → List α → τ → List α × τ
  | acc, [], y => (acc, y)
  | acc, x :: xs, y =>
    let t := settle ask x acc y
    insertFrom t.1 xs t.2

/-- Insert all elements of a list. -/
def insertionSort (l : List α) (y : τ) : List α := (insertFrom ask [] l y).1.reverse

variable {ask} {x : α} {ps acc l : List α} {y : τ}

theorem settle_perm : (settle ask x ps y).1.Perm (x :: ps) := by
  induction ps generalizing y with
  | nil => exact .refl _
  | cons p ps ih =>
    rw [settle]
    split_ifs
    · exact .refl _
    · exact (ih.cons p).trans (.swap x p ps)

@[simp] theorem length_settle : (settle ask x ps y).1.length = ps.length + 1 := by
  rw [settle_perm.length_eq, List.length_cons]

theorem insertFrom_perm : (insertFrom ask acc l y).1.Perm (acc ++ l) := by
  induction l generalizing acc y with
  | nil => simp [insertFrom]
  | cons x xs ih =>
    refine (ih (y := _)).trans ?_
    exact (settle_perm.append_right xs).trans List.perm_middle.symm

/-- **The result is a permutation of the list.** -/
theorem insertionSort_perm : (insertionSort ask l y).Perm l :=
  (List.reverse_perm _).trans insertFrom_perm

section Sorted

variable {le : α → α → Prop} {T : α → Prop}
  (hask : ∀ n p x y, T p → T x → ((ask n p x y).1 = true ↔ le p x))
  (htotal : ∀ a b, T a → T b → le a b ∨ le b a)
  (htrans : ∀ a b c, T a → T b → T c → le a b → le b c → le a c)
include hask htotal htrans

/-- Inserting into a sorted list leaves it sorted. -/
theorem settle_sorted (hps : ∀ p ∈ ps, T p) (hx : T x)
    (hsorted : ps.Pairwise fun a b => le b a) :
    (settle ask x ps y).1.Pairwise fun a b => le b a := by
  induction ps generalizing y with
  | nil => simp [settle]
  | cons p ps ih =>
    obtain ⟨hp, hps'⟩ := List.forall_mem_cons.1 hps
    obtain ⟨hle, hrest⟩ := List.pairwise_cons.1 hsorted
    rw [settle]
    split_ifs with hans
    · -- `x` stays after `p`, and so after all the others
      rw [hask _ _ _ _ hp hx] at hans
      refine List.pairwise_cons.2 ⟨fun q hq => ?_, hsorted⟩
      rcases List.mem_cons.1 hq with rfl | hq
      · exact hans
      · exact htrans q p x (hps' q hq) hp hx (hle q hq) hans
    · -- `x` moves below `p`, which is an upper bound of all the others too
      refine List.pairwise_cons.2 ⟨fun q hq => ?_, ih hps' hrest⟩
      rcases List.mem_cons.1 (settle_perm.mem_iff.1 hq) with rfl | hq
      · rw [hask _ _ _ _ hp hx] at hans
        exact (htotal p q hp hx).resolve_left hans
      · exact hle q hq

theorem insertFrom_sorted (hacc : ∀ p ∈ acc, T p) (hl : ∀ p ∈ l, T p)
    (hsorted : acc.Pairwise fun a b => le b a) :
    (insertFrom ask acc l y).1.Pairwise fun a b => le b a := by
  induction l generalizing acc y with
  | nil => exact hsorted
  | cons x xs ih =>
    obtain ⟨hx, hxs⟩ := List.forall_mem_cons.1 hl
    refine ih (fun p hp => ?_) hxs (settle_sorted hask htotal htrans hacc hx hsorted)
    rcases List.mem_cons.1 (settle_perm.mem_iff.1 hp) with rfl | hp
    · exact hx
    · exact hacc p hp

/-- **The result is sorted.** -/
theorem insertionSort_sorted (hl : ∀ p ∈ l, T p) : (insertionSort ask l y).Pairwise le :=
  List.pairwise_reverse.2 <|
    insertFrom_sorted hask htotal htrans (fun _ h => absurd h List.not_mem_nil) hl .nil

end Sorted

end Refcode.Lib
