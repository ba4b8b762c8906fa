import Mathlib.Data.List.Induction
import Mathlib.Logic.Relation

/-!
# Labelled transition systems and their finite runs

A system is a step relation `step : S → L → S → Prop` between states, labelled
by what happened.  `Run step s ls t` says that the labels `ls`, in that order,
lead from `s` to `t`.

* `Run.invariant` — the invariant rule with history: a statement about the
  labels so far and the present state holds after every run if it holds before
  the first step and every step keeps it.
* `Run.preserves` — the same rule for a statement about the state alone.
* `Run.simulates` — forward simulation along a relation, step for step.
* `Run.projects` — simulation with stuttering: a step of the concrete system is
  either a step of the abstract one or leaves the abstract state alone.
-/

namespace Refcode.Lib

variable {S A L M : Type*}

/-- `Run step s ls t`: the steps labelled `ls` lead from `s` to `t`.  The last
step is peeled off first, so that an induction follows the run forwards. -/
inductive Run (step : S → L → S → Prop) (s : S) : List L → S → Prop
  | nil : Run step s [] s
  | snoc {ls : List L} {t u : S} {l : L} :
      Run step s ls t → step t l u → Run step s (ls ++ [l]) u

namespace Run

variable {step : S → L → S → Prop} {s t u : S} {ls ms : List L} {l : L}

/-- A run of a single step. -/
theorem single (h : step s l t) : Run step s [l] t := by
  have hrun : Run step s ([] ++ [l]) t := Run.nil.snoc h
  simpa using hrun

/-- Two runs one after the other. -/
theorem append (h : Run step s ls t) (h' : Run step t ms u) : Run step s (ls ++ ms) u := by
  induction h' with
  | nil => simpa using h
  | snoc _ hstep ih =>
    rw [← List.append_assoc]
    exact ih.snoc hstep

/-- One more step in front of a run. -/
theorem cons (h : step s l t) (h' : Run step t ms u) : Run step s (l :: ms) u :=
  (single h).append h'

/-- The last step of a run. -/
theorem of_snoc (h : Run step s (ls ++ [l]) u) : ∃ t, Run step s ls t ∧ step t l u := by
  generalize hks : ls ++ [l] = ks at h
  cases h with
  | nil => simp at hks
  | snoc hrun hstep =>
    obtain ⟨rfl, hl⟩ := List.append_inj' hks rfl
    cases hl
    exact ⟨_, hrun, hstep⟩

/-- A run can be cut anywhere. -/
theorem of_append (h : Run step s (ls ++ ms) u) :
    ∃ t, Run step s ls t ∧ Run step t ms u := by
  induction ms using List.reverseRecOn generalizing u with
  | nil => exact ⟨u, by simpa using h, .nil⟩
  | append_singleton ms l ih =>
    rw [← List.append_assoc] at h
    obtain ⟨v, hv, hstep⟩ := h.of_snoc
    obtain ⟨t, ht, hrun⟩ := ih hv
    exact ⟨t, ht, hrun.snoc hstep⟩

/-- A run of no step. -/
theorem of_nil (h : Run step s [] t) : t = s := by
  generalize hks : ([] : List L) = ks at h
  cases h with
  | nil => rfl
  | snoc => simp at hks

/-- The first step of a run. -/
theorem of_cons (h : Run step s (l :: ms) u) : ∃ t, step s l t ∧ Run step t ms u := by
  obtain ⟨t, hone, hrun⟩ := of_append (show Run step s ([l] ++ ms) u from h)
  obtain ⟨s', hnil, hstep⟩ := of_snoc (show Run step s ([] ++ [l]) t from hone)
  obtain rfl := of_nil hnil
  exact ⟨t, hstep, hrun⟩

/-- **The invariant rule, with history.** -/
theorem invariant (Inv : List L → S → Prop) (h : Run step s ls t) (hinit : Inv [] s)
    (hstep : ∀ {ks x l y}, Inv ks x → step x l y → Inv (ks ++ [l]) y) : Inv ls t := by
  induction h with
  | nil => exact hinit
  | snoc _ hs ih => exact hstep ih hs

/-- The invariant rule for a predicate of the state alone. -/
theorem preserves {Inv : S → Prop} (h : Run step s ls t) (hinit : Inv s)
    (hstep : ∀ {x l y}, Inv x → step x l y → Inv y) : Inv t := by
  induction h with
  | nil => exact hinit
  | snoc _ hs ih => exact hstep ih hs

/-- **Forward simulation.**  If related states can match each other's steps,
then every run of the concrete system is matched by a run of the abstract one
with the labels translated by `f`, and the two end in related states. -/
theorem simulates {stepA : A → M → A → Prop} {R : S → A → Prop} {f : L → M} {a : A}
    (h : Run step s ls t) (hinit : R s a)
    (hsim : ∀ {x b l y}, R x b → step x l y → ∃ c, stepA b (f l) c ∧ R y c) :
    ∃ b, Run stepA a (ls.map f) b ∧ R t b := by
  induction h with
  | nil => exact ⟨a, .nil, hinit⟩
  | snoc _ hs ih =>
    obtain ⟨b, hrun, hR⟩ := ih
    obtain ⟨c, hc, hR'⟩ := hsim hR hs
    refine ⟨c, ?_, hR'⟩
    simpa using hrun.snoc hc

/-- **Simulation with stuttering.**  `see l` is what the abstract system sees of
the label `l`, if anything; a step it does not see must keep the relation. -/
theorem projects {stepA : A → M → A → Prop} {R : S → A → Prop} {see : L → Option M} {a : A}
    (h : Run step s ls t) (hinit : R s a)
    (hsee : ∀ {x b l y m}, R x b → step x l y → see l = some m → ∃ c, stepA b m c ∧ R y c)
    (hskip : ∀ {x b l y}, R x b → step x l y → see l = none → R y b) :
    ∃ b, Run stepA a (ls.filterMap see) b ∧ R t b := by
  induction h with
  | nil => exact ⟨a, .nil, hinit⟩
  | @snoc ls t u l _ hs ih =>
    obtain ⟨b, hrun, hR⟩ := ih
    rw [List.filterMap_append]
    cases hl : see l with
    | none =>
      refine ⟨b, ?_, hskip hR hs hl⟩
      simpa [hl] using hrun
    | some m =>
      obtain ⟨c, hc, hR'⟩ := hsee hR hs hl
      refine ⟨c, ?_, hR'⟩
      simpa [hl] using hrun.snoc hc

end Run

end Refcode.Lib
