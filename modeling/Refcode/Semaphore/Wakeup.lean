import Refcode.Lib.Tally
import Refcode.Semaphore.Pthread

/-!
# No lost wakeup

The condition variable is signalled once for every increment, and a thread that is
woken may find that another one has taken the unit.  Still no unit waits for a
sleeper: as long as somebody sleeps, there are at least as many woken threads that
have not looked at the value again as there are units.

* `Covered` — the invariant.
* `Step.covered`, `Run.covered` — every step keeps it.
* `semaphore_no_lost_wakeup` — the result.
-/

namespace Refcode.Semaphore

open Refcode.Lib

variable {T : Type*} [DecidableEq T] [Fintype T]

/-- Woken inside `pthread_cond_wait` or back from it, and `value` not tested again. -/
def Woken (pc : Pc) : Prop := pc = .waitWoken ∨ pc = .waitTest true

instance : DecidablePred Woken := fun _ => inferInstanceAs (Decidable (_ ∨ _))

/-- **The invariant.**  If there is a sleeper, every unit has a woken thread. -/
def Covered (value : Int) (pc : T → Pc) : Prop :=
  (∃ u, pc u = .waitSleep) → value ≤ tally Woken pc

variable {f : T → Pc} {t : T} {pc : Pc} {value value' : Int} {s s' : Sys T} {l : Label T}
  {sem : PthreadSem} {ls : List (Label T)}

theorem Pc.locked_woken {pc pc' : Pc} (h : pc.locked = some pc') :
    pc' ≠ .waitSleep ∧ (Woken pc' ↔ Woken pc) := by
  cases pc <;> cases h <;> decide

/-- One thread goes to `pc`, and does not take more units than it stood for. -/
theorem Covered.update (h : Covered value f) (hpc : pc ≠ .waitSleep)
    (hvalue : value' + (if Woken (f t) then 1 else 0) ≤ value + (if Woken pc then 1 else 0)) :
    Covered value' (Function.update f t pc) := by
  rintro ⟨u, hu⟩
  have hne : u ≠ t := by
    rintro rfl
    rw [Function.update_self] at hu
    exact hpc hu
  rw [Function.update_of_ne hne] at hu
  have hle := h ⟨u, hu⟩
  have htally := tally_move (P := Woken) (f := f) (g := Function.update f t pc) (t := t)
    fun u hu => by rw [Function.update_of_ne hu]
  rw [Function.update_self] at htally
  split_ifs at hvalue htally <;> omega

omit [Fintype T] in
theorem waitSleep_of_wakeAll {W : Finset T} {u : T} (h : wakeAll W f u = .waitSleep) :
    f u = .waitSleep := by
  unfold wakeAll at h
  split_ifs at h
  exact h

/-- **A signal wakes a thread for the unit it makes.** -/
theorem Covered.wakeAll {W : Finset T} (h : Covered value f) (hW : ∀ u ∈ W, f u = .waitSleep)
    (hsome : (∃ u, f u = .waitSleep) → W.Nonempty) : Covered (value + 1) (wakeAll W f) := by
  rintro ⟨u, hu⟩
  have hsleep : ∃ u, f u = .waitSleep := ⟨u, waitSleep_of_wakeAll hu⟩
  obtain ⟨w, hw⟩ := hsome hsleep
  have hle := h hsleep
  have hkeep : ∀ u, Woken (f u) → Woken (Semaphore.wakeAll W f u) := by
    intro u hwoken
    unfold Semaphore.wakeAll
    split_ifs
    · exact Or.inl rfl
    · exact hwoken
  have hbefore : ¬ Woken (f w) := by
    rw [hW w hw]
    decide
  have hafter : Woken (Semaphore.wakeAll W f w) := by
    rw [Semaphore.wakeAll, if_pos hw]
    decide
  have hlt := tally_lt hkeep hbefore hafter
  omega

/-- **Every step keeps the invariant.** -/
theorem Step.covered (h : Step s l s') (hs : Covered s.sem.value s.pc) :
    Covered s'.sem.value s'.pc := by
  cases h with
  | callWait hpc | callSignal hpc | waitReturn hpc | signalReturn hpc | wake hpc =>
    refine hs.update (by decide) ?_
    simp [Sys.goto, hpc, Woken]
  | @lock t pc howner hlocked =>
    obtain ⟨hpc, hwoken⟩ := Pc.locked_woken hlocked
    refine hs.update hpc ?_
    simp only [Sys.goto, hwoken]
    exact le_rfl
  | @take t woken sem hpc hsec =>
    obtain ⟨-, rfl⟩ := waitSection_eq_some.1 hsec
    refine hs.update (by decide) ?_
    cases woken <;> simp [hpc, Woken]
  | sleep hpc hsec =>
    intro _
    show s.sem.value ≤ _
    rw [waitSection_eq_none.1 hsec]
    exact Int.natCast_nonneg _
  | @post t sem result W hpc hsec hW hsome =>
    obtain ⟨-, rfl, -⟩ := signalSection_eq_post.1 hsec
    have hactor : Semaphore.wakeAll W s.pc t = .signalTest := by
      unfold Semaphore.wakeAll
      split_ifs with hmem
      · rw [hW t hmem] at hpc
        cases hpc
      · exact hpc
    refine (hs.wakeAll hW hsome).update (by simp) ?_
    simp [hactor, Woken]
  | refuse hpc hsec =>
    obtain ⟨-, rfl, -⟩ := signalSection_eq_refuse.1 hsec
    refine hs.update (by simp) ?_
    simp [hpc, Woken]

/-- The invariant holds along every run. -/
theorem Run.covered (h : Run Step (Sys.initial sem) ls s) : Covered s.sem.value s.pc := by
  let Inv : Sys T → Prop := fun s => Covered s.sem.value s.pc
  have hinit : Inv (Sys.initial sem) := by
    rintro ⟨u, hu⟩
    cases hu
  apply h.preserves hinit
  intro x l y hs hstep
  exact hstep.covered hs

/-- **No lost wakeup.**  In every reachable state with a sleeper, the value is at most
the number of woken threads that have not tested it again.  So there never is a unit
and a sleeper while the mutex is free and nobody has been woken to take the unit. -/
theorem semaphore_no_lost_wakeup (h : Run Step (Sys.initial sem) ls s) :
    ((∃ u, s.pc u = .waitSleep) → s.sem.value ≤ tally Woken s.pc) ∧
    ¬ (0 < s.sem.value ∧ (∃ u, s.pc u = .waitSleep) ∧ s.owner = none ∧
      ∀ u, s.pc u ≠ .waitWoken) := by
  have hcovered : Covered s.sem.value s.pc := Run.covered h
  refine ⟨hcovered, ?_⟩
  rintro ⟨hpos, hsleep, howner, hnone⟩
  have hle := hcovered hsleep
  -- a thread that is back from the condition variable holds the mutex
  have hzero : tally Woken s.pc = 0 := by
    apply tally_eq_zero
    intro u hu
    rcases hu with hu | hu
    · exact hnone u hu
    · exact (Run.guarded h).free_iff.1 howner u (by simp [hu, Pc.holds])
  omega

/-- Two threads sleep, and the signal of a third one wakes the first. -/
theorem semaphore_no_lost_wakeup_three : ∃ (ls : List (Label (Fin 3))) (s : Sys (Fin 3)),
    Run Step (Sys.initial ⟨0, 2⟩) ls s ∧ s.pc 1 = .waitSleep ∧ s.sem.value = 1 ∧
      s.sem.value ≤ tally Woken s.pc := by
  have hfirst := Run.sleepOnce (s := Sys.initial ⟨0, 2⟩) (t := (0 : Fin 3)) rfl rfl rfl
  have hboth := hfirst.append (Run.sleepOnce (t := 1) rfl rfl rfl)
  have hlock := (hboth.snoc (.callSignal (t := 2) rfl)).snoc (.lock (t := 2) rfl rfl)
  have hpost := hlock.snoc (.post (t := 2) (W := {0}) rfl rfl (by decide) (by decide))
  obtain ⟨hle, -⟩ := semaphore_no_lost_wakeup hpost
  exact ⟨_, _, hpost, rfl, rfl, hle ⟨1, rfl⟩⟩

end Refcode.Semaphore
