import Mathlib
import Refcode.Lib.InsertionSort

/-!
# Stable sorting

A rearrangement is stable when equal elements keep the order they had.  With every
element goes its position in the original list; sorted by the elements, and by the
positions among equal ones, there is one rearrangement only.

* `StableSorted.unique` — the stable sorted rearrangement of a list.
* `StableSorted.positions` — as a permutation of the positions.
* `insertionSort_stableSorted` — insertion by adjacent exchanges finds it.
-/

namespace Refcode.Lib

variable {α β τ : Type*}

/-- `a` comes before `b`: it is not greater, and if they are equal then it was before. -/
def Precedes (le : α → α → Prop) (a b : α × ℕ) : Prop := le a.1 b.1 ∧ (le b.1 a.1 → a.2 < b.2)

/-- `l'` is `l` in sorted order, with equal elements in the order they had. -/
def StableSorted (le : α → α → Prop) (l l' : List α) : Prop :=
  ∃ t : List (α × ℕ), t.Perm l.zipIdx ∧ t.map Prod.fst = l' ∧ t.Pairwise (Precedes le)

variable {le : α → α → Prop} {l l' l'' : List α}

/-! ## What it determines -/

/-- **A list has one stable sorted rearrangement at most.** -/
theorem StableSorted.unique (h : StableSorted le l l') (h' : StableSorted le l l'') : l' = l'' := by
  obtain ⟨t, hperm, rfl, hpair⟩ := h
  obtain ⟨t', hperm', rfl, hpair'⟩ := h'
  have heq : t = t' := by
    apply List.Perm.eq_of_pairwise _ hpair hpair' (hperm.trans hperm'.symm)
    intro a b _ _ hab hba
    exact absurd (hab.2 hba.1) (Nat.lt_asymm (hba.2 hab.1))
  rw [heq]

/-- **Where the elements come from.**  Equal elements come from increasing positions. -/
theorem StableSorted.positions {n : ℕ} (h : StableSorted le l l') (hn : l.length = n) :
    ∃ π : Equiv.Perm (Fin n), (∀ i, l'[i.val]? = l[(π i).val]?) ∧
      ∀ i j, i < j → ∀ a b, l'[i.val]? = some a → l'[j.val]? = some b → le b a → π i < π j := by
  obtain ⟨t, hperm, rfl, hpair⟩ := h
  have hlen : t.length = n := by rw [hperm.length_eq, List.length_zipIdx, hn]
  have hfrom : ∀ i : Fin n, (t.get (i.cast hlen.symm)) ∈ l.zipIdx := by
    intro i
    exact hperm.mem_iff.mp (List.get_mem t _)
  have hlt : ∀ i : Fin n, (t.get (i.cast hlen.symm)).2 < n := by
    intro i
    have hmem := List.snd_lt_of_mem_zipIdx (hfrom i)
    omega
  let origin : Fin n → Fin n := fun i => ⟨(t.get (i.cast hlen.symm)).2, hlt i⟩
  have hnodup : (t.map Prod.snd).Nodup := by
    rw [(hperm.map Prod.snd).nodup_iff, List.zipIdx_map_snd]
    exact List.nodup_range'
  have hinj : Function.Injective origin := by
    intro i j hij
    have hget : (t.map Prod.snd).get (i.cast (by simp [hlen])) =
        (t.map Prod.snd).get (j.cast (by simp [hlen])) := by
      simpa [origin] using hij
    simpa using List.nodup_iff_injective_get.mp hnodup hget
  have hentry : ∀ i : Fin n, (t.map Prod.fst)[i.val]? = some (t.get (i.cast hlen.symm)).1 := by
    intro i
    simp [hlen]
  refine ⟨Equiv.ofBijective origin (Finite.injective_iff_bijective.mp hinj), ?_, ?_⟩
  · intro i
    rw [hentry]
    exact (List.mk_mem_zipIdx_iff_getElem?.mp (hfrom i)).symm
  · intro i j hij a b ha hb hle
    rw [hentry, Option.some_inj] at ha hb
    have hprec := List.pairwise_iff_get.mp hpair (i.cast hlen.symm) (j.cast hlen.symm) hij
    rw [← ha, ← hb] at hle
    exact hprec.2 hle

/-! ## Insertion is stable -/

section Insertion

variable {ask : ℕ → α → α → τ → Bool × τ} {x : α} {ps acc : List α} {y : τ}

/-- On renamed elements the insertion is the same. -/
theorem settle_map (f : β → α) {x : β} {ps : List β} :
    settle ask (f x) (ps.map f) y =
      ((settle (fun n p x => ask n (f p) (f x)) x ps y).1.map f,
        (settle (fun n p x => ask n (f p) (f x)) x ps y).2) := by
  induction ps generalizing y with
  | nil => rfl
  | cons p ps ih =>
    rw [List.map_cons, settle, settle, List.length_map]
    split_ifs with hans
    · rfl
    · rw [ih]
      rfl

theorem insertFrom_map (f : β → α) {acc l : List β} :
    insertFrom ask (acc.map f) (l.map f) y =
      ((insertFrom (fun n p x => ask n (f p) (f x)) acc l y).1.map f,
        (insertFrom (fun n p x => ask n (f p) (f x)) acc l y).2) := by
  induction l generalizing acc y with
  | nil => rfl
  | cons x xs ih =>
    rw [List.map_cons, insertFrom, insertFrom]
    simp only [settle_map f, ih]

theorem insertionSort_map (f : β → α) {l : List β} :
    insertionSort ask (l.map f) y =
      (insertionSort (fun n p x => ask n (f p) (f x)) l y).map f := by
  have hmap : insertFrom ask (List.map f []) (l.map f) y =
      ((insertFrom (fun n p x => ask n (f p) (f x)) [] l y).1.map f,
        (insertFrom (fun n p x => ask n (f p) (f x)) [] l y).2) := insertFrom_map f
  rw [List.map_nil] at hmap
  rw [insertionSort, hmap, insertionSort, List.map_reverse]

section Order

variable {T : α → Prop} {before : α → α → Prop}
  (hask : ∀ n p x y, T p → T x → ((ask n p x y).1 = true ↔ le p x))
include hask

/-- Inserting the last element moves it past greater ones only. -/
theorem settle_stable (hps : ∀ p ∈ ps, T p) (hx : T x) (hlast : ∀ p ∈ ps, before p x)
    (hstable : ps.Pairwise fun a b => le a b → before b a) :
    (settle ask x ps y).1.Pairwise fun a b => le a b → before b a := by
  induction ps generalizing y with
  | nil => simp [settle]
  | cons p ps ih =>
    obtain ⟨hp, hps'⟩ := List.forall_mem_cons.mp hps
    obtain ⟨hlast_p, hlast'⟩ := List.forall_mem_cons.mp hlast
    obtain ⟨hrest, hstable'⟩ := List.pairwise_cons.mp hstable
    rw [settle]
    split_ifs with hans
    · refine List.pairwise_cons.mpr ⟨?_, hstable⟩
      intro q hq _
      exact hlast q hq
    · refine List.pairwise_cons.mpr ⟨?_, ih hps' hlast' hstable'⟩
      intro q hq hle
      rcases List.mem_cons.mp (settle_perm.mem_iff.mp hq) with rfl | hq
      · exact absurd ((hask _ _ _ _ hp hx).mpr hle) hans
      · exact hrest q hq hle

theorem insertFrom_stable (hacc : ∀ p ∈ acc, T p) (hl : ∀ p ∈ l, T p)
    (hbefore : ∀ p ∈ acc, ∀ x ∈ l, before p x) (hlist : l.Pairwise before)
    (hstable : acc.Pairwise fun a b => le a b → before b a) :
    (insertFrom ask acc l y).1.Pairwise fun a b => le a b → before b a := by
  induction l generalizing acc y with
  | nil => exact hstable
  | cons x xs ih =>
    obtain ⟨hx, hxs⟩ := List.forall_mem_cons.mp hl
    obtain ⟨hfirst, hlist'⟩ := List.pairwise_cons.mp hlist
    have hlast : ∀ p ∈ acc, before p x := fun p hp => hbefore p hp x List.mem_cons_self
    apply ih
    · intro p hp
      rcases List.mem_cons.mp (settle_perm.mem_iff.mp hp) with rfl | hp
      · exact hx
      · exact hacc p hp
    · exact hxs
    · intro p hp z hz
      rcases List.mem_cons.mp (settle_perm.mem_iff.mp hp) with rfl | hp
      · exact hfirst z hz
      · exact hbefore p hp z (List.mem_cons_of_mem x hz)
    · exact hlist'
    · exact settle_stable hask hacc hx hlast hstable

/-- **Equal elements keep the order they had.** -/
theorem insertionSort_stable (hl : ∀ p ∈ l, T p) (hlist : l.Pairwise before) :
    (insertionSort ask l y).Pairwise fun a b => le b a → before a b := by
  apply List.pairwise_reverse.mpr
  apply insertFrom_stable hask
  · simp
  · exact hl
  · simp
  · exact hlist
  · exact .nil

end Order

/-- **Insertion finds the stable sorted rearrangement.** -/
theorem insertionSort_stableSorted {T : α → Prop}
    (hask : ∀ n p x y, T p → T x → ((ask n p x y).1 = true ↔ le p x))
    (htotal : ∀ a b, T a → T b → le a b ∨ le b a)
    (htrans : ∀ a b c, T a → T b → T c → le a b → le b c → le a c) (hl : ∀ p ∈ l, T p) :
    StableSorted le l (insertionSort ask l y) := by
  -- the run on the elements with their positions, which the oracle does not look at
  let ask' : ℕ → α × ℕ → α × ℕ → τ → Bool × τ := fun n p x => ask n p.1 x.1
  let T' : α × ℕ → Prop := fun p => T p.1
  have hl' : ∀ p ∈ l.zipIdx, T' p := by
    intro p hp
    exact hl p.1 (List.fst_mem_of_mem_zipIdx hp)
  have hask' : ∀ n p x y, T' p → T' x → ((ask' n p x y).1 = true ↔ le p.1 x.1) := by
    intro n p x y hp hx
    exact hask n p.1 x.1 y hp hx
  have hpositions : l.zipIdx.Pairwise fun a b => a.2 < b.2 := by
    rw [← List.pairwise_map (R := (· < ·)), List.zipIdx_map_snd]
    exact List.pairwise_lt_range'
  refine ⟨insertionSort ask' l.zipIdx y, insertionSort_perm, ?_, ?_⟩
  · rw [← insertionSort_map, List.zipIdx_map_fst]
  · apply List.Pairwise.and
    · exact insertionSort_sorted hask' (fun a b => htotal a.1 b.1)
        (fun a b c => htrans a.1 b.1 c.1) hl'
    · exact insertionSort_stable hask' hl' hpositions

end Insertion

end Refcode.Lib
