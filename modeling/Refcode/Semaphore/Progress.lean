import Refcode.Lib.Budget
import Refcode.Semaphore.Conservation
import Refcode.Semaphore.Wakeup

/-!
# Progress

Neither function of the semaphore loops without sleeping: a wait goes to sleep, and is
woken by a signal or for no reason at all.  So a run is bounded by its calls and its
wakeups for no reason; and in a state with no other step left, every thread is outside, or
asleep and the value is zero.

* `Pc.cost`, `Label.budget` — the steps that a thread has before it, and those that a label
  adds to them.
* `Step.pays` — a step lowers the cost by one at least, not counting what its label adds.
* `AtRest.idle_or_asleep` — where the threads are when no step is left but those from
  outside.
* `semaphore_settles` — the result: how long a run is, and how many waits return.
-/

namespace Refcode.Semaphore

open Refcode.Lib

variable {T : Type*} [DecidableEq T]

/-! ## Steps from outside -/

/-- A call, or a sleeper that wakes up for no reason. -/
def Label.outside : Label T → Bool
  | .callWait _ | .callSignal _ | .wake _ => true
  | _ => false

def Label.isCallWait : Label T → Bool
  | .callWait _ => true
  | _ => false

def Label.isCallSignal : Label T → Bool
  | .callSignal _ => true
  | _ => false

def Label.isWake : Label T → Bool
  | .wake _ => true
  | _ => false

/-- The calls of `pthread_sem_wait`. -/
def waits (ls : List (Label T)) : ℕ := ls.countP Label.isCallWait

/-- The calls of `pthread_sem_signal`. -/
def signals (ls : List (Label T)) : ℕ := ls.countP Label.isCallSignal

/-- The sleepers that woke up for no reason. -/
def wakes (ls : List (Label T)) : ℕ := ls.countP Label.isWake

/-! ## The cost of a state -/

/-- At most how many steps a thread takes before it is outside or asleep; for a signal, also
the three steps of each of the `n` threads that it may wake. -/
def Pc.cost (n : ℕ) : Pc → ℕ
  | .idle | .waitSleep => 0
  | .waitUnlock | .signalUnlock _ => 1
  | .waitTest _ => 2
  | .waitLock | .waitWoken => 3
  | .signalTest => 3 * n + 2
  | .signalLock => 3 * n + 3

/-- By how much a step from outside raises the cost, and one for the step itself; nothing
for the other steps. -/
def Label.budget (n : ℕ) : Label T → ℕ
  | .callWait _ | .wake _ => 4
  | .callSignal _ => 3 * n + 4
  | _ => 0

omit [DecidableEq T] in
theorem budget_eq_zero {n : ℕ} {l : Label T} : l.budget n = 0 ↔ l.outside = false := by
  cases l <;> simp [Label.budget, Label.outside]

omit [DecidableEq T] in
theorem sum_budget {n : ℕ} (ls : List (Label T)) :
    (ls.map (Label.budget n)).sum = 4 * waits ls + (3 * n + 4) * signals ls + 4 * wakes ls := by
  unfold waits signals wakes
  induction ls with
  | nil => simp
  | cons l ls ih =>
    rw [List.map_cons, List.sum_cons, ih]
    cases l <;> simp [Label.budget, List.countP_cons, Label.isCallWait, Label.isCallSignal,
      Label.isWake] <;> ring

variable {sem : PthreadSem} {s s' : Sys T} {l : Label T} {ls : List (Label T)} {t : T}

/-- The cost of another thread does not grow, but for a signal that adds a unit: such a
signal may wake the thread, which makes its cost three. -/
theorem Step.cost_of_ne {n : ℕ} (h : Step s l s') {u : T} (hu : u ≠ l.actor) :
    (s'.pc u).cost n ≤ (s.pc u).cost n + if l.isPost then 3 else 0 := by
  cases h with
  | @post t sem result W hpc hsec hW hsome =>
    have hmoved : Function.update (wakeAll W s.pc) t (.signalUnlock result) u = wakeAll W s.pc u :=
      Function.update_of_ne hu _ _
    simp only [hmoved, wakeAll, Label.isPost, if_true]
    split_ifs
    · exact Nat.le_add_left _ _
    · exact Nat.le_add_right _ _
  | _ => exact (congrArg (Pc.cost n) (Function.update_of_ne hu _ _)).le

/-- The cost of the thread that takes the step falls by one at least, not counting what the
label adds; for a signal that adds a unit, by `3 * n` more. -/
theorem Step.cost_actor {n : ℕ} (h : Step s l s') :
    (s'.pc l.actor).cost n + 1 + (if l.isPost then 3 else 0) * n
      ≤ (s.pc l.actor).cost n + l.budget n := by
  cases h with
  | @lock t pc howner hlocked =>
    cases hpc : s.pc t <;> rw [hpc] at hlocked <;> cases hlocked <;>
      simp [Label.actor, Label.isPost, Label.budget, Sys.goto, hpc, Pc.cost]
  | callWait hpc | callSignal hpc | wake hpc | refuse hpc | take hpc | sleep hpc
  | waitReturn hpc | signalReturn hpc | post hpc =>
    simp [Label.actor, Label.isPost, Label.budget, Sys.goto, hpc, Pc.cost] <;> omega

variable [Fintype T]

/-- The costs of all threads together. -/
def Sys.cost (s : Sys T) : ℕ := ∑ t, (s.pc t).cost (Fintype.card T)

/-- **A step lowers the cost of the state** by one at least, not counting what its label
adds. -/
theorem Step.pays (h : Step s l s') :
    s'.cost + 1 ≤ s.cost + l.budget (Fintype.card T) := by
  have hactor := h.cost_actor (n := Fintype.card T)
  have hsum : s'.cost + (s.pc l.actor).cost (Fintype.card T) ≤ s.cost + _ + _ :=
    sum_move fun u hu => h.cost_of_ne (n := Fintype.card T) hu
  omega

/-- `Step.pays` as an instance of `Paid`; it needs no invariant. -/
theorem paid : Paid Step (fun _ : Sys T => True) Sys.cost (Label.budget (Fintype.card T)) :=
  ⟨fun _ _ => trivial, fun _ hs => hs.pays⟩

/-! ## Coming to rest -/

/-- Every step from `s` is a call or a wakeup for no reason. -/
def AtRest (s : Sys T) : Prop := ∀ l s', Step s l s' → l.outside = true

/-- At rest no thread is where it holds the mutex: from each such place there is a step. -/
theorem AtRest.not_holds (hrest : AtRest s) : (s.pc t).holds = false := by
  by_contra hholds
  cases hpc : s.pc t with
  | waitTest woken =>
    cases hsec : waitSection s.sem with
    | none => simpa [Label.outside] using hrest _ _ (.sleep hpc hsec)
    | some sem => simpa [Label.outside] using hrest _ _ (.take hpc hsec)
  | waitUnlock => simpa [Label.outside] using hrest _ _ (.waitReturn hpc)
  | signalUnlock result => simpa [Label.outside] using hrest _ _ (.signalReturn hpc)
  | signalTest =>
    by_cases hlt : s.sem.value < s.sem.valueMax
    · have hsec := signalSection_eq_post.2 ⟨hlt, rfl, rfl⟩
      -- a signal may wake all sleepers
      have hpost := Step.post (W := Finset.univ.filter fun u => s.pc u = .waitSleep) hpc hsec
        (by simp) (fun ⟨u, hu⟩ => ⟨u, by simp [hu]⟩)
      simpa [Label.outside] using hrest _ _ hpost
    · have hsec := signalSection_eq_refuse.2 ⟨not_lt.1 hlt, rfl, rfl⟩
      simpa [Label.outside] using hrest _ _ (.refuse hpc hsec)
  | _ => simp [hpc, Pc.holds] at hholds

/-- **At rest** the mutex is free, and every thread is outside or asleep. -/
theorem AtRest.idle_or_asleep (hrest : AtRest s) (hguarded : Guarded s) :
    s.owner = none ∧ ∀ t, s.pc t = .idle ∨ s.pc t = .waitSleep := by
  have hfree : s.owner = none := by
    refine hguarded.free_iff.2 fun t ht => ?_
    simp [hrest.not_holds] at ht
  refine ⟨hfree, fun t => ?_⟩
  have hout : (s.pc t).holds = false := hrest.not_holds
  have hwait : (s.pc t).locked = none := by
    rw [Option.eq_none_iff_forall_ne_some]
    intro pc hlocked
    simpa [Label.outside] using hrest _ _ (.lock hfree hlocked)
  cases hpc : s.pc t <;> simp [hpc, Pc.holds, Pc.locked] at hout hwait <;> simp

/-- **At rest, if a thread sleeps, the value is zero.** -/
theorem AtRest.value_eq_zero (hrest : AtRest s) (hguarded : Guarded s)
    (hcovered : Covered s.sem.value s.pc) (hlow : 0 ≤ s.sem.value) (hpc : s.pc t = .waitSleep) :
    s.sem.value = 0 := by
  have hnone : tally Woken s.pc = 0 := by
    apply tally_eq_zero
    intro u hu
    rcases (hrest.idle_or_asleep hguarded).2 u with h | h <;> simp [Woken, h] at hu
  have hle := hcovered ⟨t, hpc⟩
  omega

/-! ## Counting the threads inside -/

/-- In `pthread_sem_wait`, before its decrement. -/
def Pc.seeks : Pc → Bool
  | .waitLock | .waitTest _ | .waitSleep | .waitWoken => true
  | _ => false

omit [Fintype T] in
/-- `Pc.seeks` begins with the call of a wait and ends with its decrement. -/
theorem Step.seeks (h : Step s l s') :
    (if l.isTake then 1 else 0) + (if (s'.pc l.actor).seeks then 1 else 0)
      = (if l.isCallWait then 1 else 0) + (if (s.pc l.actor).seeks then 1 else 0) := by
  cases h with
  | @lock t pc howner hlocked =>
    cases hpc : s.pc t <;> rw [hpc] at hlocked <;> cases hlocked <;>
      simp [Label.isTake, Label.isCallWait, Label.actor, Sys.goto, hpc, Pc.seeks]
  | callWait hpc | callSignal hpc | wake hpc | refuse hpc | take hpc | sleep hpc
  | waitReturn hpc | signalReturn hpc | post hpc =>
    simp [Label.isTake, Label.isCallWait, Label.actor, Sys.goto, hpc, Pc.seeks]

/-- **The steps that leave `P` and the threads in it are as many as the steps that enter
it.**  `P` is a set of places without `idle`; it has both or neither of `waitSleep` and
`waitWoken`, since a signal moves other threads from the one to the other. -/
theorem Run.passing {P : Pc → Prop} [DecidablePred P] {enter leave : Label T → Bool}
    (hidle : ¬ P .idle) (hwoken : P .waitSleep ↔ P .waitWoken)
    (hstep : ∀ {s : Sys T} {l : Label T} {s' : Sys T}, Step s l s' →
      (if leave l then 1 else 0) + (if P (s'.pc l.actor) then 1 else 0)
        = (if enter l then 1 else 0) + (if P (s.pc l.actor) then 1 else 0))
    (h : Run Step (Sys.initial sem) ls s) :
    ls.countP leave + tally P s.pc = ls.countP enter := by
  induction h with
  | nil =>
    have hnone : tally P (Sys.initial sem : Sys T).pc = 0 := tally_eq_zero fun _ => hidle
    simp [hnone]
  | @snoc ls m m' l hrun hs ih =>
    have hmove := tally_move (P := P) (f := m.pc) (g := m'.pc) (t := l.actor) fun u hu => by
      rcases hs.pc_of_ne hu with heq | ⟨hold, hnew⟩
      · rw [heq]
      · rw [hold, hnew, hwoken]
    have hactor := hstep hs
    simp only [List.countP_append, List.countP_singleton]
    omega

/-! ## The result -/

variable {pSem : Option PthreadSem} {value valueMax mutexInit condInit : Int}

/-- **The semaphore comes to rest.**  Start with `0 ≤ value ≤ valueMax` and `valueMax > 0`.
Every run of `n` threads is bounded by the number of calls in it and of sleepers that woke
up for no reason.  From every state reached, the calls that have been made can be brought
to an end, as far as they have one; and when nothing more can happen without a new call,
the mutex is free, every thread is outside or asleep, nobody sleeps while there is a unit,
and of the waits that were called, as many have returned as there were units for. -/
theorem semaphore_settles
    (hinit : pthreadSemInit pSem value valueMax mutexInit condInit = (0, some sem))
    (hlow : 0 ≤ value) (h : Run Step (Sys.initial sem) ls s) :
    ls.length ≤ 4 * waits ls + (3 * Fintype.card T + 4) * signals ls + 4 * wakes ls ∧
    (∃ ms s', Run Step s ms s' ∧ (∀ l ∈ ms, l.outside = false) ∧ AtRest s') ∧
    (AtRest s →
      s.owner = none ∧ (∀ t, s.pc t = .idle ∨ s.pc t = .waitSleep) ∧
      ((∃ t, s.pc t = .waitSleep) → s.sem.value = 0) ∧
      (waitReturns ls : Int) = min (waits ls : Int) (value + posts ls)) := by
  obtain ⟨-, -, hhigh, -, -, rfl⟩ := pthreadSemInit_eq_zero.1 hinit
  refine ⟨?_, ?_, ?_⟩
  · have hlength := paid.length_le trivial h
    have hidle : (Sys.initial ⟨value, valueMax⟩ : Sys T).cost = 0 := by
      simp [Sys.cost, Sys.initial, Pc.cost]
    rw [hidle, sum_budget] at hlength
    omega
  · obtain ⟨ms, s', hrun, hinside, hsettled⟩ := paid.exists_settled (s := s) trivial
    refine ⟨ms, s', hrun, fun l hl => budget_eq_zero.1 (hinside l hl), fun l s'' hstep => ?_⟩
    have hbudget := hsettled l s'' hstep
    rwa [Ne, budget_eq_zero, Bool.not_eq_false] at hbudget
  · intro hrest
    have hguarded : Guarded s := Run.guarded h
    obtain ⟨hfree, hplaces⟩ := hrest.idle_or_asleep hguarded
    obtain ⟨hge, -⟩ := Run.bounds h hlow hhigh
    have hzero : (∃ t, s.pc t = .waitSleep) → s.sem.value = 0 := by
      rintro ⟨t, ht⟩
      exact hrest.value_eq_zero hguarded (Run.covered h) hge ht
    refine ⟨hfree, hplaces, hzero, ?_⟩
    have hvalue : s.sem.value = value + posts ls - takes ls := Run.value h
    have hcalled : takes ls + tally (fun pc => pc.seeks = true) s.pc = waits ls :=
      Run.passing (by decide) (by decide) Step.seeks h
    have hreturned : waitReturns ls + tally (· = .waitUnlock) s.pc = takes ls :=
      Run.passing (by decide) (by decide) Step.waitUnlock h
    have hgone : tally (· = .waitUnlock) s.pc = 0 := tally_eq_zero fun t ht => by
      rcases hplaces t with hpc | hpc <;> simp [hpc] at ht
    by_cases hasleep : ∃ t, s.pc t = .waitSleep
    · have hnone := hzero hasleep
      omega
    · have hall : tally (fun pc : Pc => pc.seeks = true) s.pc = 0 := tally_eq_zero fun t ht => by
        rcases hplaces t with hpc | hpc
        · simp [hpc, Pc.seeks] at ht
        · exact hasleep ⟨t, hpc⟩
      omega

/-- Two threads wait for the only unit, and one of them is left asleep. -/
theorem semaphore_settles_two : ∃ (ls : List (Label Bool)) (s : Sys Bool),
    Run Step (Sys.initial ⟨1, 1⟩) ls s ∧ AtRest s ∧ s.pc false = .waitSleep ∧ waits ls = 2 ∧
      (waitReturns ls : Int) = min (waits ls : Int) (1 + posts ls) := by
  have hinit : pthreadSemInit (some ⟨0, 0⟩) 1 1 0 0 = (0, some ⟨1, 1⟩) := rfl
  have hfirst := Run.waitOnce (s := Sys.initial ⟨1, 1⟩) (t := true) rfl rfl (by decide)
  have hboth := hfirst.append (Run.sleepOnce (t := false) rfl rfl rfl)
  have hrest : AtRest ((⟨⟨0, 1⟩, none, Function.update (fun _ => .idle) false .waitSleep⟩ :
      Sys Bool)) := by
    intro l s' hstep
    cases hstep with
    | callWait | callSignal | wake => rfl
    | @lock t => cases t <;> simp_all [Pc.locked]
    | @take t _ _ hpc | @sleep t _ hpc | @post t _ _ _ hpc | @refuse t _ _ hpc
    | @waitReturn t hpc | @signalReturn t _ hpc => cases t <;> simp at hpc
  obtain ⟨-, -, hsettled⟩ := semaphore_settles hinit (by decide) hboth
  exact ⟨_, _, hboth, hrest, rfl, rfl, (hsettled hrest).2.2.2⟩

end Refcode.Semaphore
