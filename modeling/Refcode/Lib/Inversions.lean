import Mathlib
import Refcode.Lib.Transcript

/-!
# Inversions

Two elements of a list are inverted when the one that comes first is not at most the
other.  Exchanging two neighbours removes at most one inversion, so that a list is not
sorted with fewer exchanges than it has inversions; insertion takes exactly so many.

* `Exchanges.inversions_le` — the lower bound.
* `count_false_insertAnswers` — insertion reaches it.
* `count_true_insertAnswers` — the answers that stop an element.
-/

namespace Refcode.Lib

variable {α τ : Type*} (le : α → α → Prop) [DecidableRel le]

/-- The number of inversions. -/
def inversions : List α → ℕ
  | [] => 0
  | x :: xs => xs.countP (fun z => ¬ le x z) + inversions xs

/-- The pairs of an element of the first list and one of the second that would be
inverted. -/
def crossings (l : List α) : List α → ℕ
  | [] => 0
  | x :: xs => l.countP (fun p => ¬ le p x) + crossings l xs

/-- The elements of the second list that are not below all those before them. -/
def followers (l : List α) : List α → ℕ
  | [] => 0
  | x :: xs => (if ∃ p ∈ l, le p x then 1 else 0) + followers (x :: l) xs

variable {le} {l l' l₁ l₂ : List α} {p x : α}

/-! ## Counting -/

@[simp] theorem crossings_nil : crossings le [] l = 0 := by
  induction l with
  | nil => rfl
  | cons x xs ih => simp [crossings, ih]

theorem crossings_cons :
    crossings le (p :: l₁) l₂ = l₂.countP (fun z => ¬ le p z) + crossings le l₁ l₂ := by
  induction l₂ with
  | nil => rfl
  | cons x xs ih =>
    simp only [crossings, ih, List.countP_cons]
    omega

theorem crossings_perm_left (h : l.Perm l') : crossings le l l₂ = crossings le l' l₂ := by
  induction l₂ with
  | nil => rfl
  | cons x xs ih => simp [crossings, ih, h.countP_eq]

theorem crossings_perm_right (h : l.Perm l') : crossings le l₁ l = crossings le l₁ l' := by
  induction l₁ with
  | nil => simp
  | cons x xs ih => simp [crossings_cons, ih, h.countP_eq]

theorem inversions_append :
    inversions le (l₁ ++ l₂) = inversions le l₁ + crossings le l₁ l₂ + inversions le l₂ := by
  induction l₁ with
  | nil => simp [inversions]
  | cons x xs ih =>
    simp only [List.cons_append, inversions, ih, List.countP_append, crossings_cons]
    omega

/-- A sorted list has none, and only such a list. -/
theorem inversions_eq_zero : inversions le l = 0 ↔ l.Pairwise le := by
  induction l with
  | nil => simp [inversions]
  | cons x xs ih => simp [inversions, ih]

theorem followers_perm (h : l.Perm l') : followers le l l₂ = followers le l' l₂ := by
  induction l₂ generalizing l l' with
  | nil => rfl
  | cons x xs ih => simp [followers, ih (h.cons x), h.mem_iff]

theorem followers_le_length : followers le l l₂ ≤ l₂.length := by
  induction l₂ generalizing l with
  | nil => rfl
  | cons x xs ih =>
    have hrest : followers le (x :: l) xs ≤ xs.length := ih
    simp only [followers, List.length_cons]
    split_ifs <;> omega

/-- If something of the first list is at most each element of the second. -/
theorem followers_eq_length (h : ∀ x ∈ l₂, ∃ p ∈ l, le p x) :
    followers le l l₂ = l₂.length := by
  induction l₂ generalizing l with
  | nil => rfl
  | cons x xs ih =>
    have hrest : ∀ z ∈ xs, ∃ p ∈ x :: l, le p z := by
      intro z hz
      obtain ⟨p, hp, hle⟩ := h z (List.mem_cons_of_mem x hz)
      exact ⟨p, List.mem_cons_of_mem x hp, hle⟩
    rw [followers, if_pos (h x List.mem_cons_self), ih hrest, List.length_cons, Nat.add_comm]

/-- In front of a list there is nothing to follow. -/
theorem followers_nil_cons : followers le [] (x :: l) = followers le [x] l := by
  simp [followers]

/-! ## Exchanging neighbours -/

/-- The second list results from the first by so many exchanges of neighbours. -/
inductive Exchanges (l : List α) : ℕ → List α → Prop
  | refl : Exchanges l 0 l
  | exchange {n : ℕ} {front back : List α} {a b : α} :
      Exchanges l n (front ++ a :: b :: back) → Exchanges l (n + 1) (front ++ b :: a :: back)

/-- An exchange of neighbours removes one inversion at most. -/
theorem inversions_exchange {front back : List α} {a b : α} :
    inversions le (front ++ a :: b :: back) ≤ inversions le (front ++ b :: a :: back) + 1 := by
  have hcross : crossings le front (a :: b :: back) = crossings le front (b :: a :: back) :=
    crossings_perm_right (.swap b a back)
  simp only [inversions_append, inversions, List.countP_cons, hcross]
  split_ifs <;> omega

/-- **A list is not sorted with fewer exchanges than it has inversions.** -/
theorem Exchanges.inversions_le {n : ℕ} (h : Exchanges l n l') :
    inversions le l ≤ inversions le l' + n := by
  induction h with
  | refl => simp
  | @exchange n front back a b _ ih =>
    have hone : inversions le (front ++ a :: b :: back)
        ≤ inversions le (front ++ b :: a :: back) + 1 := inversions_exchange
    omega

/-! ## Insertion -/

section Insertion

variable {ask : ℕ → α → α → τ → Bool × τ} {T : α → Prop} {ps acc : List α} {y : τ}
  (hask : ∀ n p x y, T p → T x → ((ask n p x y).1 = true ↔ le p x))
include hask

/-- An element stops at most once, at one that is at most as great. -/
theorem count_true_settleAnswers (hps : ∀ p ∈ ps, T p) (hx : T x) :
    (settleAnswers ask x ps y).count true = if ∃ p ∈ ps, le p x then 1 else 0 := by
  induction ps generalizing y with
  | nil => simp [settleAnswers]
  | cons p ps ih =>
    obtain ⟨hp, hps'⟩ := List.forall_mem_cons.mp hps
    have hans := hask ps.length p x y hp hx
    rw [settleAnswers]
    by_cases hle : le p x
    · simp [hans.mpr hle, hle]
    · simp [show ¬ (ask ps.length p x y).1 = true from fun h => hle (hans.mp h), hle, ih hps']

theorem count_true_insertAnswers (hacc : ∀ p ∈ acc, T p) (hl : ∀ p ∈ l, T p) :
    (insertAnswers ask acc l y).count true = followers le acc l := by
  induction l generalizing acc y with
  | nil => rfl
  | cons x xs ih =>
    obtain ⟨hx, hxs⟩ := List.forall_mem_cons.mp hl
    have hperm : (settle ask x acc y).1.Perm (x :: acc) := settle_perm
    have hnext : ∀ p ∈ (settle ask x acc y).1, T p := by
      intro p hp
      rcases List.mem_cons.mp (hperm.mem_iff.mp hp) with rfl | hp
      · exact hx
      · exact hacc p hp
    rw [insertAnswers, List.count_append, count_true_settleAnswers hask hacc hx, ih hnext hxs,
      followers_perm hperm, followers]

section Sorted

variable (htotal : ∀ a b, T a → T b → le a b ∨ le b a)
  (htrans : ∀ a b c, T a → T b → T c → le a b → le b c → le a c)
include htrans

/-- Into a sorted list an element moves past those it is inverted with. -/
theorem count_false_settleAnswers (hps : ∀ p ∈ ps, T p) (hx : T x)
    (hsorted : ps.Pairwise fun a b => le b a) :
    (settleAnswers ask x ps y).count false = ps.countP fun p => ¬ le p x := by
  induction ps generalizing y with
  | nil => simp [settleAnswers]
  | cons p ps ih =>
    obtain ⟨hp, hps'⟩ := List.forall_mem_cons.mp hps
    obtain ⟨hbelow, hrest⟩ := List.pairwise_cons.mp hsorted
    have hans := hask ps.length p x y hp hx
    rw [settleAnswers, List.countP_cons]
    by_cases hle : le p x
    · have hnone : ps.countP (fun q => ¬ le q x) = 0 := by
        rw [List.countP_eq_zero]
        intro q hq
        simpa using htrans q p x (hps' q hq) hp hx (hbelow q hq) hle
      rw [hnone]
      simp [hans.mpr hle, hle]
    · simp [show ¬ (ask ps.length p x y).1 = true from fun h => hle (hans.mp h), hle,
        ih hps' hrest]

include htotal

/-- **Insertion exchanges once for each inversion.** -/
theorem count_false_insertAnswers (hacc : ∀ p ∈ acc, T p) (hl : ∀ p ∈ l, T p)
    (hsorted : acc.Pairwise fun a b => le b a) :
    (insertAnswers ask acc l y).count false = crossings le acc l + inversions le l := by
  induction l generalizing acc y with
  | nil => rfl
  | cons x xs ih =>
    obtain ⟨hx, hxs⟩ := List.forall_mem_cons.mp hl
    have hperm : (settle ask x acc y).1.Perm (x :: acc) := settle_perm
    have hnext : ∀ p ∈ (settle ask x acc y).1, T p := by
      intro p hp
      rcases List.mem_cons.mp (hperm.mem_iff.mp hp) with rfl | hp
      · exact hx
      · exact hacc p hp
    rw [insertAnswers, List.count_append, count_false_settleAnswers hask htrans hacc hx hsorted,
      ih hnext hxs (settle_sorted hask htotal htrans hacc hx hsorted),
      crossings_perm_left hperm, crossings_cons]
    simp only [crossings, inversions]
    omega

end Sorted

end Insertion

end Refcode.Lib
