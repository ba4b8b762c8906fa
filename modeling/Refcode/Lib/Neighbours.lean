import Mathlib
import Refcode.Lib.InsertionSort

/-!
# Insertion without an order

An oracle may say of any two elements that one of them may come first, without its answers
being transitive.  Insertion by adjacent exchanges does not sort then.

* `insertionSort_isChain` — no two neighbours of the result are the wrong way round.
* `insertionSort_of_isChain` — a list without such neighbours is left as it is.
-/

namespace Refcode.Lib

variable {α τ : Type*} {ask : ℕ → α → α → τ → Bool × τ} {x : α} {ps acc l : List α} {y : τ}

/-- What is moved left comes to stand in front, or what was there stays there. -/
theorem head?_settle {a : α} (h : a ∈ (settle ask x ps y).1.head?) : a = x ∨ a ∈ ps.head? := by
  cases ps with
  | nil => simpa [settle, eq_comm] using h
  | cons p ps =>
    rw [settle] at h
    split_ifs at h
    · left
      simpa [eq_comm] using h
    · right
      simpa using h

variable {le : α → α → Prop} {T : α → Prop}
  (hask : ∀ n p x y, T p → T x → ((ask n p x y).1 = true ↔ le p x))
include hask

/-- Nothing is moved past an element it may come after. -/
theorem settle_of_head (hps : ∀ p ∈ ps, T p) (hx : T x) (hhead : ∀ p ∈ ps.head?, le p x) :
    (settle ask x ps y).1 = x :: ps := by
  cases ps with
  | nil => rfl
  | cons p ps =>
    have hle := hhead p (by simp)
    rw [settle, if_pos ((hask ps.length p x y (hps p (by simp)) hx).mpr hle)]

theorem insertFrom_of_isChain (hacc : ∀ p ∈ acc, T p) (hl : ∀ p ∈ l, T p)
    (hhead : ∀ x ∈ l.head?, ∀ p ∈ acc.head?, le p x) (hchain : l.IsChain le) :
    (insertFrom ask acc l y).1.reverse = acc.reverse ++ l := by
  induction l generalizing acc y with
  | nil => simp [insertFrom]
  | cons x xs ih =>
    obtain ⟨hx, hxs⟩ := List.forall_mem_cons.mp hl
    obtain ⟨hfirst, hrest⟩ := List.isChain_cons.mp hchain
    have hstays : (settle ask x acc y).1 = x :: acc :=
      settle_of_head hask hacc hx (hhead x (by simp))
    rw [insertFrom]
    simp only [hstays]
    rw [ih (List.forall_mem_cons.mpr ⟨hx, hacc⟩) hxs (by simpa using hfirst) hrest]
    simp

/-- **A list whose neighbours are in order is left as it is.** -/
theorem insertionSort_of_isChain (hl : ∀ p ∈ l, T p) (hchain : l.IsChain le) :
    insertionSort ask l y = l :=
  insertFrom_of_isChain hask (by simp) hl (by simp) hchain

variable (htotal : ∀ a b, T a → T b → le a b ∨ le b a)
include htotal

theorem settle_isChain (hps : ∀ p ∈ ps, T p) (hx : T x) (hchain : ps.IsChain fun a b => le b a) :
    (settle ask x ps y).1.IsChain fun a b => le b a := by
  induction ps generalizing y with
  | nil => simp [settle]
  | cons p ps ih =>
    obtain ⟨hp, hps'⟩ := List.forall_mem_cons.mp hps
    obtain ⟨hfirst, hrest⟩ := List.isChain_cons.mp hchain
    have hans := hask ps.length p x y hp hx
    rw [settle]
    split_ifs with hstop
    · exact List.isChain_cons_cons.mpr ⟨hans.mp hstop, hchain⟩
    · refine List.isChain_cons.mpr ⟨fun a ha => ?_, ih hps' hrest⟩
      rcases head?_settle ha with rfl | ha
      · exact (htotal p a hp hx).resolve_left fun hle => hstop (hans.mpr hle)
      · exact hfirst a ha

theorem insertFrom_isChain (hacc : ∀ p ∈ acc, T p) (hl : ∀ p ∈ l, T p)
    (hchain : acc.IsChain fun a b => le b a) :
    (insertFrom ask acc l y).1.IsChain fun a b => le b a := by
  induction l generalizing acc y with
  | nil => exact hchain
  | cons x xs ih =>
    obtain ⟨hx, hxs⟩ := List.forall_mem_cons.mp hl
    refine ih (fun p hp => ?_) hxs (settle_isChain hask htotal hacc hx hchain)
    rcases List.mem_cons.mp (settle_perm.mem_iff.mp hp) with rfl | hp
    · exact hx
    · exact hacc p hp

/-- **In the result neighbours are in order.** -/
theorem insertionSort_isChain (hl : ∀ p ∈ l, T p) : (insertionSort ask l y).IsChain le := by
  rw [insertionSort, List.isChain_reverse]
  exact insertFrom_isChain hask htotal (by simp) hl .nil

end Refcode.Lib
