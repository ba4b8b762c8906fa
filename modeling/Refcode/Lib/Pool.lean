import Mathlib.Data.Finset.Card
import Refcode.Lib.Transition

/-!
# Pools of units

What a counting semaphore is for: units are made, and every unit is used at most
once.  The units are numbered in the order they are made, so that it can be said
which one a user got.

* `Pool.Ok` — no unit is used twice or before it is made, and the free units are
  those made and not used.
* `Run.poolOk` — this holds along every run.
-/

namespace Refcode.Lib

/-- The number of units made so far, the free ones, and the used ones in the order
they were taken. -/
structure Pool where
  made : ℕ
  free : Finset ℕ
  used : List ℕ

/-- Something happens to a pool. -/
inductive PoolMove where
  | make
  | use

def PoolMove.isUse : PoolMove → Bool
  | .use => true
  | .make => false

/-- A unit is made, or some free unit is used. -/
inductive PoolStep : Pool → PoolMove → Pool → Prop
  | make {p : Pool} : PoolStep p .make ⟨p.made + 1, insert p.made p.free, p.used⟩
  | use {p : Pool} {u : ℕ} : u ∈ p.free →
      PoolStep p .use ⟨p.made, p.free.erase u, p.used ++ [u]⟩

/-- A pool of `n` units, none of them used. -/
def Pool.initial (n : ℕ) : Pool := ⟨n, Finset.range n, []⟩

/-- **No unit is used twice.** -/
structure Pool.Ok (p : Pool) : Prop where
  nodup : p.used.Nodup
  used_made : ∀ u ∈ p.used, u < p.made
  used_free : ∀ u ∈ p.used, u ∉ p.free
  free_made : ∀ u ∈ p.free, u < p.made

variable {p p' : Pool} {move : PoolMove}

theorem Pool.initial_ok (n : ℕ) : (Pool.initial n).Ok :=
  ⟨List.nodup_nil, fun _ h => absurd h List.not_mem_nil, fun _ h => absurd h List.not_mem_nil,
    fun _ h => Finset.mem_range.1 h⟩

theorem PoolStep.ok (h : p.Ok) (hs : PoolStep p move p') : p'.Ok := by
  cases hs with
  | make =>
    refine ⟨h.nodup, fun u hu => Nat.lt_succ_of_lt (h.used_made u hu), fun u hu hmem => ?_,
      fun u hu => ?_⟩
    · rcases Finset.mem_insert.1 hmem with rfl | hfree
      · exact absurd (h.used_made _ hu) (lt_irrefl _)
      · exact h.used_free u hu hfree
    · rcases Finset.mem_insert.1 hu with rfl | hfree
      · exact Nat.lt_succ_self _
      · exact Nat.lt_succ_of_lt (h.free_made u hfree)
  | @use v hv =>
    have hcases : ∀ {u}, u ∈ p.used ++ [v] → u ∈ p.used ∨ u = v := fun hu =>
      (List.mem_append.1 hu).imp_right List.mem_singleton.1
    refine ⟨?_, fun u hu => ?_, fun u hu hmem => ?_, fun u hu =>
      h.free_made u (Finset.mem_of_mem_erase hu)⟩
    · refine List.nodup_append.2 ⟨h.nodup, List.nodup_singleton v, ?_⟩
      intro u hu w hw
      rw [List.mem_singleton.1 hw]
      rintro rfl
      exact h.used_free u hu hv
    · rcases hcases hu with hu | rfl
      · exact h.used_made u hu
      · exact h.free_made u hv
    · rcases hcases hu with hu | rfl
      · exact h.used_free u hu (Finset.mem_of_mem_erase hmem)
      · exact Finset.notMem_erase u _ hmem

theorem Run.poolOk {n : ℕ} {moves : List PoolMove}
    (h : Run PoolStep (Pool.initial n) moves p) : p.Ok :=
  h.preserves (Pool.initial_ok n) fun hok hs => hs.ok hok

/-- A unit that is made is free. -/
theorem Pool.Ok.card_make (h : p.Ok) : (insert p.made p.free).card = p.free.card + 1 :=
  Finset.card_insert_of_notMem fun hmem => absurd (h.free_made _ hmem) (lt_irrefl _)

/-- The moves that use a unit are the units used. -/
theorem Run.poolUsed {n : ℕ} {moves : List PoolMove}
    (h : Run PoolStep (Pool.initial n) moves p) :
    p.used.length = moves.countP PoolMove.isUse := by
  let Inv : List PoolMove → Pool → Prop := fun moves p =>
    p.used.length = moves.countP PoolMove.isUse
  apply h.invariant Inv rfl
  intro moves p move p' hlen hs
  show p'.used.length = _
  rw [List.countP_append]
  cases hs with
  | make => simpa [PoolMove.isUse] using hlen
  | use => simpa [PoolMove.isUse] using hlen

end Refcode.Lib
