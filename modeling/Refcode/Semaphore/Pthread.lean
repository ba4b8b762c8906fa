import Mathlib
import Refcode.Lib.Mutex

/-!
# The semaphore

`pthread_semaphore.c` as a step relation over any number of threads that share one
semaphore.  A thread waits for the mutex, sleeps on the condition variable or holds
the mutex; what it does between taking the mutex and giving it back is one step,
for nobody else can look meanwhile.  The mutex goes to any thread that asks while
it is free, and the condition variable may wake anybody at any time.

* `pthreadSemInit`, `waitSection`, `signalSection` — the code, as functions of the
  two fields.
* `Step` — the threads.
* `Step.value`, `Step.valueMax` — what a step does to the two fields.
-/

namespace Refcode.Semaphore

open Refcode.Lib

/-! ## The functions -/

/-- `EINVAL` and `ERANGE` of `errno.h`. -/
def EINVAL : Int := 22
def ERANGE : Int := 34

/-- The `int`s. -/
def IsInt (n : Int) : Prop := -2 ^ 31 ≤ n ∧ n < 2 ^ 31

/-- The fields of `pthread_sem_t` that are not the mutex and the condition
variable. -/
structure PthreadSem where
  value : Int
  valueMax : Int
  deriving DecidableEq

/-- `pthread_sem_init`, with what the initialisation of the mutex and of the
condition variable return; `pSem` is `none` for `NULL`. -/
def pthreadSemInit (pSem : Option PthreadSem) (value valueMax mutexInit condInit : Int) :
    Int × Option PthreadSem :=
  if pSem = none ∨ valueMax = 0 ∨ value > valueMax then (EINVAL, pSem)
  else if mutexInit ≠ 0 then (mutexInit, some ⟨value, valueMax⟩)
  else if condInit ≠ 0 then (condInit, some ⟨value, valueMax⟩)
  else (0, some ⟨value, valueMax⟩)

/-- What `pthread_sem_wait` does while it holds the mutex, up to the next time it
gives it back: `none` if it has to sleep. -/
def waitSection (sem : PthreadSem) : Option PthreadSem :=
  if sem.value = 0 then none else some { sem with value := sem.value - 1 }

/-- What `pthread_sem_signal` does while it holds the mutex: the fields, the result,
and whether the condition variable is signalled. -/
def signalSection (sem : PthreadSem) : PthreadSem × Int × Bool :=
  if sem.value < sem.valueMax then ({ sem with value := sem.value + 1 }, 0, true)
  else (sem, ERANGE, false)

/-! ## The threads -/

/-- Where a thread is. -/
inductive Pc where
  /-- Outside both functions. -/
  | idle
  /-- About to lock the mutex in `pthread_sem_wait`. -/
  | waitLock
  /-- Holding the mutex, about to test `value == 0`; `woken` if it has slept since
  the last test. -/
  | waitTest (woken : Bool)
  /-- Asleep in `pthread_cond_wait`. -/
  | waitSleep
  /-- Woken in `pthread_cond_wait`, about to lock the mutex again. -/
  | waitWoken
  /-- About to unlock the mutex and return `0`. -/
  | waitUnlock
  /-- About to lock the mutex in `pthread_sem_signal`. -/
  | signalLock
  /-- Holding the mutex, about to test `value < valueMax`. -/
  | signalTest
  /-- About to unlock the mutex and return `result`. -/
  | signalUnlock (result : Int)
  deriving DecidableEq

/-- Where a thread goes when it gets the mutex it asks for. -/
def Pc.locked : Pc → Option Pc
  | .waitLock => some (.waitTest false)
  | .waitWoken => some (.waitTest true)
  | .signalLock => some .signalTest
  | _ => none

/-- What happens. -/
inductive Label (T : Type*) where
  | callWait (t : T)
  | callSignal (t : T)
  | lock (t : T)
  /-- `value` was not zero and is decremented. -/
  | take (t : T)
  | sleep (t : T)
  /-- A sleeper wakes up for no reason. -/
  | wake (t : T)
  /-- `value` is incremented and the condition variable signalled, which wakes the
  threads `W`. -/
  | post (t : T) (W : Finset T)
  /-- `value` is at its maximum. -/
  | refuse (t : T)
  | waitReturn (t : T)
  | signalReturn (t : T) (result : Int)

/-- The thread that does it, or that wakes up. -/
def Label.actor {T : Type*} : Label T → T
  | .callWait t | .callSignal t | .lock t | .take t | .sleep t | .wake t | .post t _ | .refuse t
  | .waitReturn t | .signalReturn t _ => t

/-- The semaphore, the thread that holds its mutex, and the threads. -/
structure Sys (T : Type*) where
  sem : PthreadSem
  owner : Option T
  pc : T → Pc

variable {T : Type*} [DecidableEq T]

/-- Thread `t` goes to `pc`. -/
def Sys.goto (s : Sys T) (t : T) (pc : Pc) : Sys T := { s with pc := Function.update s.pc t pc }

/-- The threads in `W` are woken. -/
def wakeAll (W : Finset T) (pc : T → Pc) : T → Pc := fun u => if u ∈ W then .waitWoken else pc u

theorem wakeAll_empty (pc : T → Pc) : wakeAll ∅ pc = pc :=
  funext fun u => if_neg (Finset.notMem_empty u)

/-- One step of one thread. -/
inductive Step : Sys T → Label T → Sys T → Prop
  | callWait {s : Sys T} {t : T} : s.pc t = .idle → Step s (.callWait t) (s.goto t .waitLock)
  | callSignal {s : Sys T} {t : T} :
      s.pc t = .idle → Step s (.callSignal t) (s.goto t .signalLock)
  | lock {s : Sys T} {t : T} {pc : Pc} : s.owner = none → (s.pc t).locked = some pc →
      Step s (.lock t) { s.goto t pc with owner := some t }
  | take {s : Sys T} {t : T} {woken : Bool} {sem : PthreadSem} :
      s.pc t = .waitTest woken → waitSection s.sem = some sem →
      Step s (.take t) { s.goto t .waitUnlock with sem := sem }
  | sleep {s : Sys T} {t : T} {woken : Bool} :
      s.pc t = .waitTest woken → waitSection s.sem = none →
      Step s (.sleep t) { s.goto t .waitSleep with owner := none }
  | wake {s : Sys T} {t : T} : s.pc t = .waitSleep → Step s (.wake t) (s.goto t .waitWoken)
  | post {s : Sys T} {t : T} {sem : PthreadSem} {result : Int} {W : Finset T} :
      s.pc t = .signalTest → signalSection s.sem = (sem, result, true) →
      -- at least one sleeper is woken if there is one
      (∀ u ∈ W, s.pc u = .waitSleep) → ((∃ u, s.pc u = .waitSleep) → W.Nonempty) →
      Step s (.post t W)
        ⟨sem, s.owner, Function.update (wakeAll W s.pc) t (.signalUnlock result)⟩
  | refuse {s : Sys T} {t : T} {sem : PthreadSem} {result : Int} :
      s.pc t = .signalTest → signalSection s.sem = (sem, result, false) →
      Step s (.refuse t) { s.goto t (.signalUnlock result) with sem := sem }
  | waitReturn {s : Sys T} {t : T} : s.pc t = .waitUnlock →
      Step s (.waitReturn t) { s.goto t .idle with owner := none }
  | signalReturn {s : Sys T} {t : T} {result : Int} : s.pc t = .signalUnlock result →
      Step s (.signalReturn t result) { s.goto t .idle with owner := none }

/-- Nobody has called anything yet. -/
def Sys.initial (sem : PthreadSem) : Sys T := ⟨sem, none, fun _ => .idle⟩

/-! ## What a step does to the fields -/

/-- The change of `value`. -/
def Label.gain : Label T → Int
  | .post _ _ => 1
  | .take _ => -1
  | _ => 0

theorem waitSection_eq_some {sem sem' : PthreadSem} :
    waitSection sem = some sem' ↔ sem.value ≠ 0 ∧ sem' = ⟨sem.value - 1, sem.valueMax⟩ := by
  unfold waitSection
  split_ifs with h
  · simp [h]
  · simp [h, eq_comm]

theorem waitSection_eq_none {sem : PthreadSem} : waitSection sem = none ↔ sem.value = 0 := by
  unfold waitSection
  split_ifs with h <;> simp [h]

theorem signalSection_eq_post {sem sem' : PthreadSem} {result : Int} :
    signalSection sem = (sem', result, true) ↔
      sem.value < sem.valueMax ∧ sem' = ⟨sem.value + 1, sem.valueMax⟩ ∧ result = 0 := by
  unfold signalSection
  split_ifs with h
  · simp [h, eq_comm]
  · simp [h]

theorem signalSection_eq_refuse {sem sem' : PthreadSem} {result : Int} :
    signalSection sem = (sem', result, false) ↔
      sem.valueMax ≤ sem.value ∧ sem' = sem ∧ result = ERANGE := by
  unfold signalSection
  split_ifs with h
  · simp [h]
  · simp [not_lt.1 h, eq_comm]

theorem pthreadSemInit_eq_zero {pSem : Option PthreadSem} {value valueMax mutexInit condInit : Int}
    {sem : PthreadSem} :
    pthreadSemInit pSem value valueMax mutexInit condInit = (0, some sem) ↔
      pSem ≠ none ∧ valueMax ≠ 0 ∧ value ≤ valueMax ∧ mutexInit = 0 ∧ condInit = 0 ∧
        sem = ⟨value, valueMax⟩ := by
  unfold pthreadSemInit
  constructor
  · intro h
    split_ifs at h with hargs hmutex hcond
    · simp [EINVAL] at h
    · simp [hmutex] at h
    · simp [hcond] at h
    · push Not at hargs hmutex hcond
      simp only [Prod.mk.injEq, Option.some.injEq, true_and] at h
      exact ⟨hargs.1, hargs.2.1, hargs.2.2, hmutex, hcond, h.symm⟩
  · rintro ⟨hnull, hmax, hle, rfl, rfl, rfl⟩
    simp [hnull, hmax, hle]

variable {s s' : Sys T} {l : Label T}

theorem Step.valueMax (h : Step s l s') : s'.sem.valueMax = s.sem.valueMax := by
  cases h with
  | take _ hsec => rw [(waitSection_eq_some.1 hsec).2]
  | post _ hsec => rw [(signalSection_eq_post.1 hsec).2.1]
  | refuse _ hsec => rw [(signalSection_eq_refuse.1 hsec).2.1]
  | _ => rfl

/-- **`value` changes by what the step says.** -/
theorem Step.value (h : Step s l s') : s'.sem.value = s.sem.value + l.gain := by
  cases h with
  | take _ hsec =>
    rw [(waitSection_eq_some.1 hsec).2]
    rfl
  | post _ hsec =>
    rw [(signalSection_eq_post.1 hsec).2.1]
    rfl
  | refuse _ hsec =>
    rw [(signalSection_eq_refuse.1 hsec).2.1]
    exact (Int.add_zero _).symm
  | _ => exact (Int.add_zero _).symm

/-- **`value` stays between `0` and `valueMax`.** -/
theorem Step.bounds (h : Step s l s') (hlow : 0 ≤ s.sem.value)
    (hhigh : s.sem.value ≤ s.sem.valueMax) : 0 ≤ s'.sem.value ∧ s'.sem.value ≤ s'.sem.valueMax := by
  rw [h.value, h.valueMax]
  cases h with
  | take _ hsec =>
    have hne := (waitSection_eq_some.1 hsec).1
    simp only [Label.gain]
    omega
  | post _ hsec =>
    have hlt := (signalSection_eq_post.1 hsec).1
    simp only [Label.gain]
    omega
  | _ => simpa [Label.gain] using ⟨hlow, hhigh⟩

/-- **The other threads** stay where they are, or are woken. -/
theorem Step.pc_of_ne (h : Step s l s') {u : T} (hu : u ≠ l.actor) :
    s'.pc u = s.pc u ∨ s.pc u = .waitSleep ∧ s'.pc u = .waitWoken := by
  cases h with
  | @post t sem result W hpc hsec hW hsome =>
    have hne : u ≠ t := hu
    show Function.update _ _ _ u = _ ∨ _ ∧ Function.update _ _ _ u = _
    rw [Function.update_of_ne hne, wakeAll]
    split_ifs with hmem
    · exact Or.inr ⟨hW u hmem, rfl⟩
    · exact Or.inl rfl
  | _ => exact Or.inl (Function.update_of_ne hu _ _)

/-! ## The mutex -/

/-- The places where a thread holds the mutex. -/
def Pc.holds : Pc → Bool
  | .waitTest _ | .waitUnlock | .signalTest | .signalUnlock _ => true
  | _ => false

theorem Pc.locked_holds {pc pc' : Pc} (h : pc.locked = some pc') : pc'.holds = true := by
  cases pc <;> cases h <;> rfl

/-- **The mutex.**  A step takes it, keeps things as they are, or gives it back. -/
theorem Step.mutex (h : Step s l s') :
    s.owner = none ∧ s'.owner = some l.actor ∧ (s'.pc l.actor).holds = true ∨
    s'.owner = s.owner ∧ (s'.pc l.actor).holds = (s.pc l.actor).holds ∨
    (s.pc l.actor).holds = true ∧ s'.owner = none ∧ (s'.pc l.actor).holds = false := by
  cases h with
  | lock howner hlocked =>
    refine Or.inl ⟨howner, rfl, ?_⟩
    simpa [Label.actor, Sys.goto] using Pc.locked_holds hlocked
  | sleep hpc | waitReturn hpc | signalReturn hpc =>
    refine Or.inr (Or.inr ⟨?_, rfl, ?_⟩)
    · simp [Label.actor, hpc, Pc.holds]
    · simp [Label.actor, Sys.goto, Pc.holds]
  | callWait hpc | callSignal hpc | take hpc | wake hpc | post hpc | refuse hpc =>
    refine Or.inr (Or.inl ⟨rfl, ?_⟩)
    simp [Label.actor, Sys.goto, hpc, Pc.holds]

/-- The mutex is held by the thread between taking it and giving it back, and by no
other. -/
def Guarded (s : Sys T) : Prop := Guards (fun t => (s.pc t).holds = true) s.owner

theorem Step.guarded (hs : Guarded s) (h : Step s l s') : Guarded s' := by
  have hother : ∀ u, u ≠ l.actor → ((s'.pc u).holds = true ↔ (s.pc u).holds = true) := by
    intro u hu
    rcases h.pc_of_ne hu with heq | ⟨hsleep, hwoken⟩
    · rw [heq]
    · rw [hsleep, hwoken]
      rfl
  unfold Guarded at hs ⊢
  rcases h.mutex with ⟨hfree, howner, hpc⟩ | ⟨howner, hpc⟩ | ⟨hold, howner, hpc⟩
  · rw [hfree] at hs
    rw [howner]
    exact hs.acquire hother hpc
  · rw [howner]
    refine hs.keep fun u => ?_
    by_cases hu : u = l.actor
    · rw [hu, hpc]
    · exact hother u hu
  · rw [howner]
    exact hs.release hold hother (by rw [hpc]; exact Bool.false_ne_true)

/-- **Mutual exclusion.** -/
theorem Run.guarded {sem : PthreadSem} {ls : List (Label T)}
    (h : Run Step (Sys.initial sem) ls s) : Guarded s := by
  have hinit : Guarded (Sys.initial sem : Sys T) := by
    intro t
    simp [Sys.initial, Pc.holds]
  apply h.preserves hinit
  intro x l y hs hstep
  exact hstep.guarded hs

/-! ## Calls that nobody disturbs -/

variable {t : T}

theorem Sys.goto_pc (pc : Pc) : (s.goto t pc).pc t = pc := Function.update_self ..

/-- **A wait that finds a unit**, from the call to the return. -/
theorem Run.waitOnce (hpc : s.pc t = .idle) (howner : s.owner = none) (hne : s.sem.value ≠ 0) :
    Run Step s [.callWait t, .lock t, .take t, .waitReturn t]
      { s with sem := ⟨s.sem.value - 1, s.sem.valueMax⟩ } := by
  have hback : Function.update s.pc t .idle = s.pc := by rw [← hpc, Function.update_eq_self]
  have hcall := Run.single (Step.callWait hpc)
  have hlocked : ((s.goto t .waitLock).pc t).locked = some (.waitTest false) := by
    rw [Sys.goto_pc]
    rfl
  have hlock := hcall.snoc (.lock howner hlocked)
  have htake := hlock.snoc (.take (Sys.goto_pc _) (waitSection_eq_some.2 ⟨hne, rfl⟩))
  have hreturn := htake.snoc (.waitReturn (Sys.goto_pc _))
  simpa [Sys.goto, hback, howner] using hreturn

/-- **A wait that finds no unit**, from the call to the sleep. -/
theorem Run.sleepOnce (hpc : s.pc t = .idle) (howner : s.owner = none) (hzero : s.sem.value = 0) :
    Run Step s [.callWait t, .lock t, .sleep t] (s.goto t .waitSleep) := by
  have hcall := Run.single (Step.callWait hpc)
  have hlocked : ((s.goto t .waitLock).pc t).locked = some (.waitTest false) := by
    rw [Sys.goto_pc]
    rfl
  have hlock := hcall.snoc (.lock howner hlocked)
  have hsleep := hlock.snoc (.sleep (Sys.goto_pc _) (waitSection_eq_none.2 hzero))
  simpa [Sys.goto, howner] using hsleep

/-- **A signal below the maximum while no thread sleeps**, from the call to the return. -/
theorem Run.signalOnce (hpc : s.pc t = .idle) (howner : s.owner = none)
    (hawake : ∀ u, s.pc u ≠ .waitSleep) (hlt : s.sem.value < s.sem.valueMax) :
    Run Step s [.callSignal t, .lock t, .post t ∅, .signalReturn t 0]
      { s with sem := ⟨s.sem.value + 1, s.sem.valueMax⟩ } := by
  have hback : Function.update s.pc t .idle = s.pc := by rw [← hpc, Function.update_eq_self]
  have hcall := Run.single (Step.callSignal hpc)
  have hlocked : ((s.goto t .signalLock).pc t).locked = some .signalTest := by
    rw [Sys.goto_pc]
    rfl
  have hlock := hcall.snoc (.lock howner hlocked)
  have hpost := hlock.snoc (.post (W := ∅) (Sys.goto_pc _)
    (signalSection_eq_post.2 ⟨hlt, rfl, rfl⟩) (by simp) ?_)
  · have hreturn := hpost.snoc (.signalReturn (Function.update_self ..))
    simpa [Sys.goto, hback, howner, wakeAll_empty] using hreturn
  · rintro ⟨u, hu⟩
    rcases eq_or_ne u t with rfl | hne
    · simp [Sys.goto] at hu
    · simp [Sys.goto, hne, hawake] at hu

end Refcode.Semaphore
