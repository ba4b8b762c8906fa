import Refcode.Lib.Transition

/-!
# Mutual exclusion

What a lock is for: it has an owner or none, and only the owner is inside.

* `MutexStep` — the lock by itself.
* `Guards` — the threads that are inside are the owner and nobody else, which is
  kept when a thread acquires the lock, releases it, or does neither.
-/

namespace Refcode.Lib

variable {T : Type*}

/-- What happens to a lock. -/
inductive MutexMove (T : Type*) where
  | acquire (t : T)
  | release (t : T)

/-- A free lock is acquired, or its owner releases it. -/
inductive MutexStep : Option T → MutexMove T → Option T → Prop
  | acquire {t : T} : MutexStep none (.acquire t) (some t)
  | release {t : T} : MutexStep (some t) (.release t) none

/-- Exactly the owner is inside. -/
def Guards (inside : T → Prop) (owner : Option T) : Prop := ∀ t, inside t ↔ owner = some t

namespace Guards

variable {inside inside' : T → Prop} {owner : Option T} {t u : T}

/-- **Mutual exclusion.** -/
theorem unique (h : Guards inside owner) (ht : inside t) (hu : inside u) : t = u := by
  have hsome := ((h t).1 ht).symm.trans ((h u).1 hu)
  exact Option.some.inj hsome

/-- Nobody is inside a free lock. -/
theorem free_iff (h : Guards inside owner) : owner = none ↔ ∀ t, ¬ inside t := by
  constructor
  · rintro rfl t ht
    simpa using (h t).1 ht
  · intro hnone
    cases owner with
    | none => rfl
    | some t => exact absurd ((h t).2 rfl) (hnone t)

theorem keep (h : Guards inside owner) (hsame : ∀ t, inside' t ↔ inside t) :
    Guards inside' owner :=
  fun t => (hsame t).trans (h t)

theorem acquire (h : Guards inside none) (hother : ∀ u, u ≠ t → (inside' u ↔ inside u))
    (ht : inside' t) : Guards inside' (some t) := by
  intro u
  by_cases hu : u = t
  · subst hu
    simp [ht]
  · rw [hother u hu, h u]
    simp [Ne.symm hu]

theorem release (h : Guards inside owner) (hin : inside t)
    (hother : ∀ u, u ≠ t → (inside' u ↔ inside u)) (ht : ¬ inside' t) : Guards inside' none := by
  intro u
  constructor
  · intro hu
    by_cases heq : u = t
    · subst heq
      exact absurd hu ht
    · exact absurd (h.unique ((hother u heq).1 hu) hin) heq
  · intro hnone
    cases hnone

/-- **One thread moves**: it acquires the lock, does neither, or releases it. -/
theorem move {owner' : Option T} (h : Guards inside owner)
    (hother : ∀ u, u ≠ t → (inside' u ↔ inside u))
    (hmove : owner = none ∧ owner' = some t ∧ inside' t ∨
      owner' = owner ∧ (inside' t ↔ inside t) ∨ inside t ∧ owner' = none ∧ ¬ inside' t) :
    Guards inside' owner' := by
  rcases hmove with ⟨rfl, rfl, ht⟩ | ⟨rfl, ht⟩ | ⟨hin, rfl, ht⟩
  · exact h.acquire hother ht
  · refine h.keep fun u => ?_
    by_cases hu : u = t
    · rw [hu, ht]
    · exact hother u hu
  · exact h.release hin hother ht

end Guards

end Refcode.Lib
