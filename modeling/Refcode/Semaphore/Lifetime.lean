import Refcode.Lib.Ledger
import Refcode.Semaphore.Pthread

/-!
# The life of a semaphore

`pthread_sem_init` and `pthread_sem_destroy`, call of the system by call of the system, for any
number of semaphores and threads.  The system may refuse to make a mutex or a condition
variable.  The callers initialise storage that holds no semaphore, use semaphores that have
been initialised, and destroy one only while no thread is inside its functions.

* `LifeStep` — the threads.
* `LifeRun.init` — a call of `pthread_sem_init` returns what `pthreadSemInit` says.
* `LifeStep.books` — what a step does to the mutexes and the condition variables.
* `semaphore_lifetimes` — none is leaked, made twice, or used or destroyed while there is none.
-/

namespace Refcode.Semaphore

open Refcode.Lib

/-! ## The functions -/

/-- What the system makes for the semaphore at `p`. -/
inductive Obj (P : Type*) where
  | lock (p : P)
  | cond (p : P)
  deriving DecidableEq

/-- How far the storage of a semaphore has come, and the thread that is at it. -/
inductive Stage (T : Type*) where
  /-- There is no semaphore. -/
  | raw
  /-- In `pthread_sem_init`, about to call `pthread_mutex_init`. -/
  | initLock (t : T)
  /-- In `pthread_sem_init`, about to call `pthread_cond_init`. -/
  | initCond (t : T)
  /-- In `pthread_sem_init`, about to call `pthread_mutex_destroy` and return `result`. -/
  | undo (t : T) (result : Int)
  | ready
  /-- In `pthread_sem_destroy`, about to call `pthread_cond_destroy`. -/
  | destroyCond (t : T)
  /-- In `pthread_sem_destroy`, about to call `pthread_mutex_destroy`. -/
  | destroyLock (t : T)

namespace Stage

variable {T : Type*}

/-- The thread that initialises or destroys the semaphore. -/
def actor : Stage T → Option T
  | .raw | .ready => none
  | .initLock t | .initCond t | .undo t _ | .destroyCond t | .destroyLock t => some t

/-- There is a mutex. -/
def hasLock : Stage T → Bool
  | .raw | .initLock _ => false
  | _ => true

/-- There is a condition variable. -/
def hasCond : Stage T → Bool
  | .ready | .destroyCond _ => true
  | _ => false

end Stage

/-- What happens: a call begins, or the system has been called. -/
inductive LifeLabel (P T : Type*) where
  | init (t : T) (p : P)
  /-- `pthread_sem_init` returns `EINVAL`. -/
  | reject (t : T) (p : P)
  | mutexInit (t : T) (p : P) (result : Int)
  | condInit (t : T) (p : P) (result : Int)
  | destroy (t : T) (p : P)
  | condDestroy (t : T) (p : P)
  /-- The last call of a function, which returns `result`. -/
  | mutexDestroy (t : T) (p : P) (result : Int)
  /-- A step of `pthread_sem_wait` or `pthread_sem_signal`. -/
  | use (p : P) (l : Label T)

/-- A call of `pthread_sem_wait` or `pthread_sem_signal` begins. -/
def Label.begins {T : Type*} : Label T → Bool
  | .callWait _ | .callSignal _ => true
  | _ => false

/-- The calls of the system in a step of `pthread_sem_wait` or `pthread_sem_signal`; a thread
asleep in `pthread_cond_wait` is still in it when it wakes up. -/
def Label.entries {P T : Type*} (p : P) : Label T → List (Entry (Obj P))
  | .lock _ | .waitReturn _ | .signalReturn _ _ => [.use (.lock p)]
  | .sleep _ => [.use (.cond p), .use (.lock p)]
  | .wake _ | .post _ _ => [.use (.cond p)]
  | .callWait _ | .callSignal _ | .take _ | .refuse _ => []

/-- The calls of the system in a step; one that fails has made nothing. -/
def LifeLabel.entries {P T : Type*} : LifeLabel P T → List (Entry (Obj P))
  | .mutexInit _ p result => if result = 0 then [.issue (.lock p)] else []
  | .condInit _ p result => if result = 0 then [.issue (.cond p)] else []
  | .condDestroy _ p => [.retire (.cond p)]
  | .mutexDestroy _ p _ => [.retire (.lock p)]
  | .use p l => l.entries p
  | .init _ _ | .reject _ _ | .destroy _ _ => []

/-- What `pthread_sem_init` or `pthread_sem_destroy` returns at the end of a step. -/
def LifeLabel.returned {P T : Type*} : LifeLabel P T → Option Int
  | .reject _ _ => some EINVAL
  | .mutexInit _ _ result => if result = 0 then none else some result
  | .condInit _ _ result => if result = 0 then some 0 else none
  | .mutexDestroy _ _ result => some result
  | _ => none

/-- The storages, and the threads that use what is in them. -/
structure Semaphores (P T : Type*) where
  stage : P → Stage T
  sys : P → Sys T

variable {P T : Type*} [DecidableEq P] [DecidableEq T]

namespace Semaphores

/-- The semaphore at `p` comes to a stage. -/
def goto (s : Semaphores P T) (p : P) (stage : Stage T) : Semaphores P T :=
  { s with stage := Function.update s.stage p stage }

/-- What is in the storage at `p` changes. -/
def put (s : Semaphores P T) (p : P) (sys : Sys T) : Semaphores P T :=
  { s with sys := Function.update s.sys p sys }

omit [DecidableEq P] [DecidableEq T] in
/-- The thread is in none of the functions. -/
def Free (s : Semaphores P T) (t : T) : Prop :=
  ∀ p, (s.sys p).pc t = .idle ∧ (s.stage p).actor ≠ some t

/-- Nothing has been initialised; the storages hold anything. -/
structure Untouched (s : Semaphores P T) : Prop where
  raw : ∀ p, s.stage p = .raw
  idle : ∀ p t, (s.sys p).pc t = .idle

end Semaphores

/-- One step of one thread. -/
inductive LifeStep : Semaphores P T → LifeLabel P T → Semaphores P T → Prop
  | reject {s : Semaphores P T} {t : T} {p : P} {value valueMax : Int} :
      s.stage p = .raw → s.Free t → valueMax = 0 ∨ value > valueMax →
      LifeStep s (.reject t p) s
  | init {s : Semaphores P T} {t : T} {p : P} {value valueMax : Int} :
      s.stage p = .raw → s.Free t → ¬ (valueMax = 0 ∨ value > valueMax) →
      LifeStep s (.init t p)
        ((s.goto p (.initLock t)).put p { s.sys p with sem := ⟨value, valueMax⟩ })
  | mutexInit {s : Semaphores P T} {t : T} {p : P} : s.stage p = .initLock t →
      LifeStep s (.mutexInit t p 0)
        ((s.goto p (.initCond t)).put p { s.sys p with owner := none })
  | mutexInitFails {s : Semaphores P T} {t : T} {p : P} {result : Int} :
      s.stage p = .initLock t → result ≠ 0 → LifeStep s (.mutexInit t p result) (s.goto p .raw)
  | condInit {s : Semaphores P T} {t : T} {p : P} : s.stage p = .initCond t →
      LifeStep s (.condInit t p 0) (s.goto p .ready)
  | condInitFails {s : Semaphores P T} {t : T} {p : P} {result : Int} :
      s.stage p = .initCond t → result ≠ 0 →
      LifeStep s (.condInit t p result) (s.goto p (.undo t result))
  | undo {s : Semaphores P T} {t : T} {p : P} {result : Int} : s.stage p = .undo t result →
      LifeStep s (.mutexDestroy t p result) (s.goto p .raw)
  | destroy {s : Semaphores P T} {t : T} {p : P} : s.stage p = .ready → s.Free t →
      (∀ u, (s.sys p).pc u = .idle) → LifeStep s (.destroy t p) (s.goto p (.destroyCond t))
  | condDestroy {s : Semaphores P T} {t : T} {p : P} : s.stage p = .destroyCond t →
      LifeStep s (.condDestroy t p) (s.goto p (.destroyLock t))
  | mutexDestroy {s : Semaphores P T} {t : T} {p : P} : s.stage p = .destroyLock t →
      LifeStep s (.mutexDestroy t p 0) (s.goto p .raw)
  | use {s : Semaphores P T} {p : P} {l : Label T} {sys : Sys T} : Step (s.sys p) l sys →
      (l.begins = true → s.stage p = .ready ∧ s.Free l.actor) → LifeStep s (.use p l) (s.put p sys)

variable {s s' s₀ : Semaphores P T} {l : LifeLabel P T} {ls : List (LifeLabel P T)} {p q : P}
  {t : T} {stage : Stage T} {sys : Sys T}

omit [DecidableEq T] in
@[simp] theorem Semaphores.goto_stage : (s.goto p stage).stage p = stage :=
  Function.update_self ..

omit [DecidableEq T] in
@[simp] theorem Semaphores.goto_sys : (s.goto p stage).sys = s.sys := rfl

omit [DecidableEq T] in
@[simp] theorem Semaphores.put_sys : (s.put p sys).sys p = sys := Function.update_self ..

omit [DecidableEq T] in
@[simp] theorem Semaphores.put_stage : (s.put p sys).stage = s.stage := rfl

/-- **What `pthread_sem_init` does** is what `pthreadSemInit` says, whatever the system answers. -/
theorem LifeRun.init (hraw : s.stage p = .raw) (hfree : s.Free t)
    (value valueMax mutexInit condInit : Int) :
    let r := pthreadSemInit (some (s.sys p).sem) value valueMax mutexInit condInit
    ∃ ls l s', Run LifeStep s (ls ++ [l]) s' ∧ l.returned = some r.1 ∧
      r.2 = some (s'.sys p).sem ∧ s'.stage p = if r.1 = 0 then .ready else .raw := by
  intro r
  by_cases hargs : valueMax = 0 ∨ value > valueMax
  · have hr : r = (EINVAL, some (s.sys p).sem) := if_pos (.inr hargs)
    refine ⟨[], .reject t p, s, .single (.reject hraw hfree hargs), ?_⟩
    simp [hr, LifeLabel.returned, EINVAL, hraw]
  · have hinit := Run.single (LifeStep.init hraw hfree hargs)
    by_cases hmutex : mutexInit = 0
    · subst hmutex
      have hlock := hinit.snoc (.mutexInit (t := t) (p := p) (by simp))
      by_cases hcond : condInit = 0
      · subst hcond
        refine ⟨_, _, _, hlock.snoc (.condInit (t := t) (p := p) (by simp)), ?_⟩
        have hr : r = (0, some ⟨value, valueMax⟩) := by
          simp only [r, pthreadSemInit, reduceCtorEq, hargs, or_self, if_false, ne_eq,
            not_true_eq_false]
        simp [hr, LifeLabel.returned]
      · refine ⟨_, _, _, (hlock.snoc (.condInitFails (t := t) (p := p) (by simp) hcond)).snoc
          (.undo Semaphores.goto_stage), ?_⟩
        have hr : r = (condInit, some ⟨value, valueMax⟩) := by
          simp only [r, pthreadSemInit, reduceCtorEq, hargs, or_self, if_false, ne_eq,
            not_true_eq_false, hcond, not_false_eq_true, if_true]
        simp [hr, LifeLabel.returned, hcond]
    · refine ⟨_, _, _, hinit.snoc (.mutexInitFails (t := t) (p := p) (by simp) hmutex), ?_⟩
      have hr : r = (mutexInit, some ⟨value, valueMax⟩) := by
        simp only [r, pthreadSemInit, reduceCtorEq, hargs, or_self, if_false, ne_eq,
          hmutex, not_false_eq_true, if_true]
      simp [hr, LifeLabel.returned, hmutex]

/-! ## What the storages hold -/

/-- `pthread_sem_init` accepts the fields. -/
def PthreadSem.Accepted (sem : PthreadSem) : Prop :=
  pthreadSemInit (some sem) sem.value sem.valueMax 0 0 = (0, some sem)

/-- What has become of a semaphore that `pthread_sem_init` has made. -/
def Sys.Born (sys : Sys T) : Prop :=
  ∃ (sem : PthreadSem) (ms : List (Label T)), sem.Accepted ∧ Run Step (Sys.initial sem) ms sys

/-- What the storage holds at a stage. -/
def Stage.Holds (sys : Sys T) : Stage T → Prop
  | .raw => ∀ u, sys.pc u = .idle
  | .initLock _ => (∀ u, sys.pc u = .idle) ∧ sys.sem.Accepted
  | .ready => sys.Born
  | .initCond _ | .undo _ _ | .destroyCond _ | .destroyLock _ =>
    (∀ u, sys.pc u = .idle) ∧ sys.Born

/-- Every storage holds what its stage says. -/
def Semaphores.Kept (s : Semaphores P T) : Prop := ∀ p, (s.stage p).Holds (s.sys p)

/-- Nobody is inside a semaphore before it is made and while it is destroyed. -/
theorem Stage.Holds.idle (h : stage.Holds sys) (hready : stage ≠ .ready) (u : T) :
    sys.pc u = .idle := by
  cases stage with
  | raw => exact h u
  | ready => exact absurd rfl hready
  | _ => exact h.1 u

/-- A thread that is in neither function begins a call. -/
theorem Step.begins_of_idle {s s' : Sys T} {l : Label T} (h : Step s l s')
    (hidle : s.pc l.actor = .idle) : l.begins = true := by
  cases h with
  | callWait | callSignal => rfl
  | @lock t pc howner hlocked =>
    have hpc : s.pc t = .idle := hidle
    rw [hpc] at hlocked
    cases hlocked
  | take hpc | sleep hpc | wake hpc | post hpc | refuse hpc | waitReturn hpc | signalReturn hpc =>
    cases hpc.symm.trans hidle

omit [DecidableEq P] in
/-- The functions run on semaphores that are there. -/
theorem Semaphores.Kept.ready_of_use (hs : s.Kept) {l : Label T} (hstep : Step (s.sys p) l sys)
    (hbegins : l.begins = true → s.stage p = .ready ∧ s.Free l.actor) : s.stage p = .ready := by
  by_contra hready
  have hidle := (hs p).idle hready l.actor
  exact hready (hbegins (hstep.begins_of_idle hidle)).1

namespace Semaphores.Kept

variable (hs : s.Kept)
include hs

omit [DecidableEq P] in
/-- What the storage at a stage holds. -/
theorem holds (h : s.stage p = stage) : stage.Holds (s.sys p) := by
  rw [← h]
  exact hs p

theorem goto (hp : stage.Holds (s.sys p)) : (s.goto p stage).Kept := by
  intro q
  rcases eq_or_ne q p with rfl | hq
  · simpa using hp
  · simpa [Semaphores.goto, hq] using hs q

theorem put (hp : stage.Holds sys) : ((s.goto p stage).put p sys).Kept := by
  intro q
  rcases eq_or_ne q p with rfl | hq
  · simpa using hp
  · simpa [Semaphores.goto, Semaphores.put, hq] using hs q

end Semaphores.Kept

/-- **Every step keeps what the storages hold.** -/
theorem LifeStep.kept (h : LifeStep s l s') (hs : s.Kept) : s'.Kept := by
  cases h with
  | reject => exact hs
  | @init t p value valueMax hraw _ hargs =>
    refine hs.put ⟨hs.holds hraw, ?_⟩
    push Not at hargs
    exact pthreadSemInit_eq_zero.mpr ⟨by simp, hargs.1, hargs.2, rfl, rfl, rfl⟩
  | @mutexInit t p hstage =>
    obtain ⟨hidle, haccepted⟩ := hs.holds hstage
    refine hs.put ⟨hidle, (s.sys p).sem, [], haccepted, ?_⟩
    have hfresh : { s.sys p with owner := none } = Sys.initial (s.sys p).sem := by
      simp only [Sys.initial, Sys.mk.injEq, true_and]
      exact funext hidle
    rw [hfresh]
    exact .nil
  | mutexInitFails hstage => exact hs.goto (hs.holds hstage).1
  | condInit hstage => exact hs.goto (hs.holds hstage).2
  | condInitFails hstage =>
    obtain ⟨hidle, hborn⟩ := hs.holds hstage
    exact hs.goto ⟨hidle, hborn⟩
  | undo hstage => exact hs.goto (hs.holds hstage).1
  | destroy hstage _ hidle => exact hs.goto ⟨hidle, hs.holds hstage⟩
  | condDestroy hstage =>
    obtain ⟨hidle, hborn⟩ := hs.holds hstage
    exact hs.goto ⟨hidle, hborn⟩
  | mutexDestroy hstage => exact hs.goto (hs.holds hstage).1
  | @use p l sys hstep hbegins =>
    have hready := hs.ready_of_use hstep hbegins
    obtain ⟨sem, ms, haccepted, hrun⟩ := hs.holds hready
    have hput : ((s.goto p .ready).put p sys).Kept :=
      hs.put ⟨sem, ms ++ [l], haccepted, hrun.snoc hstep⟩
    rwa [show s.goto p .ready = s by
      simp [Semaphores.goto, ← hready, Function.update_eq_self]] at hput

/-! ## The books -/

/-- What the system has made and not yet taken back. -/
def Semaphores.live (s : Semaphores P T) : Obj P → Bool
  | .lock p => (s.stage p).hasLock
  | .cond p => (s.stage p).hasCond

omit [DecidableEq T] in
@[simp] theorem Semaphores.live_put : (s.put p sys).live = s.live := by
  funext o
  cases o <;> rfl

omit [DecidableEq T] in
theorem Semaphores.live_goto_lock (hcond : stage.hasCond = (s.stage p).hasCond) :
    (s.goto p stage).live = Function.update s.live (.lock p) stage.hasLock := by
  funext o
  rcases o with q | q <;> rcases eq_or_ne q p with rfl | hq <;>
    simp [Semaphores.live, Semaphores.goto, *]

omit [DecidableEq T] in
theorem Semaphores.live_goto_cond (hlock : stage.hasLock = (s.stage p).hasLock) :
    (s.goto p stage).live = Function.update s.live (.cond p) stage.hasCond := by
  funext o
  rcases o with q | q <;> rcases eq_or_ne q p with rfl | hq <;>
    simp [Semaphores.live, Semaphores.goto, *]

omit [DecidableEq T] in
theorem Semaphores.live_goto (hlock : stage.hasLock = (s.stage p).hasLock)
    (hcond : stage.hasCond = (s.stage p).hasCond) : (s.goto p stage).live = s.live := by
  rw [Semaphores.live_goto_lock hcond, hlock]
  exact Function.update_eq_self _ _

omit [DecidableEq P] [DecidableEq T] in
/-- The objects a step of the functions uses. -/
theorem Label.entries_use {l : Label T} (e : Entry (Obj P)) (he : e ∈ l.entries p) :
    e = .use (.lock p) ∨ e = .use (.cond p) := by
  cases l with
  | lock | waitReturn | signalReturn => exact .inl (List.mem_singleton.mp he)
  | wake | post => exact .inr (List.mem_singleton.mp he)
  | sleep => simpa [Label.entries, or_comm] using he
  | callWait | callSignal | take | refuse => cases he

/-- **What a step does to the mutexes and condition variables**: it uses some that are there,
makes one that is not, or destroys one. -/
theorem LifeStep.books {log : List (Entry (Obj P))} (h : LifeStep s l s') (hs : s.Kept)
    (hlog : Tracks log s.live) : Tracks (log ++ l.entries) s'.live := by
  cases h with
  | reject => simpa [LifeLabel.entries] using hlog
  | @init t p value valueMax hstage =>
    rw [Semaphores.live_put, Semaphores.live_goto (by simp [hstage, Stage.hasLock])
      (by simp [hstage, Stage.hasCond])]
    simpa [LifeLabel.entries] using hlog
  | @mutexInit t p hstage =>
    rw [Semaphores.live_put, Semaphores.live_goto_lock (by simp [hstage, Stage.hasCond])]
    exact hlog.issue (by simp [Semaphores.live, hstage, Stage.hasLock])
  | @mutexInitFails t p result hstage hfails =>
    rw [Semaphores.live_goto (by simp [hstage, Stage.hasLock]) (by simp [hstage, Stage.hasCond])]
    simpa [LifeLabel.entries, hfails] using hlog
  | @condInit t p hstage =>
    rw [Semaphores.live_goto_cond (by simp [hstage, Stage.hasLock])]
    exact hlog.issue (by simp [Semaphores.live, hstage, Stage.hasCond])
  | @condInitFails t p result hstage hfails =>
    rw [Semaphores.live_goto (by simp [hstage, Stage.hasLock]) (by simp [hstage, Stage.hasCond])]
    simpa [LifeLabel.entries, hfails] using hlog
  | @destroy t p hstage =>
    rw [Semaphores.live_goto (by simp [hstage, Stage.hasLock]) (by simp [hstage, Stage.hasCond])]
    simpa [LifeLabel.entries] using hlog
  | @condDestroy t p hstage =>
    rw [Semaphores.live_goto_cond (by simp [hstage, Stage.hasLock])]
    exact hlog.retire (by simp [Semaphores.live, hstage, Stage.hasCond])
  | @undo t p result hstage =>
    rw [Semaphores.live_goto_lock (by simp [hstage, Stage.hasCond])]
    exact hlog.retire (by simp [Semaphores.live, hstage, Stage.hasLock])
  | @mutexDestroy t p hstage =>
    rw [Semaphores.live_goto_lock (by simp [hstage, Stage.hasCond])]
    exact hlog.retire (by simp [Semaphores.live, hstage, Stage.hasLock])
  | @use p l sys hstep hbegins =>
    have hready := hs.ready_of_use hstep hbegins
    rw [Semaphores.live_put]
    refine hlog.use fun e he => ?_
    rcases Label.entries_use e he with rfl | rfl
    · exact ⟨.lock p, by simp [Semaphores.live, hready, Stage.hasLock], rfl⟩
    · exact ⟨.cond p, by simp [Semaphores.live, hready, Stage.hasCond], rfl⟩

/-! ## Whole runs -/

/-- The log of a run and the storages after it. -/
theorem LifeRun.tracks (h₀ : s₀.Untouched) (h : Run LifeStep s₀ ls s) :
    s.Kept ∧ Tracks (ls.flatMap LifeLabel.entries) s.live := by
  have hkept : s₀.Kept := by
    intro p
    rw [h₀.raw p]
    exact h₀.idle p
  have hnone : ∀ o, s₀.live o = false := by
    intro o
    cases o <;> simp [Semaphores.live, h₀.raw, Stage.hasLock, Stage.hasCond]
  induction h with
  | nil => exact ⟨hkept, .nil hnone⟩
  | snoc _ hstep ih =>
    obtain ⟨hs, hlog⟩ := ih
    refine ⟨hstep.kept hs, ?_⟩
    simpa using hstep.books hs hlog

omit [DecidableEq P] in
/-- A semaphore that is made or destroyed has a free mutex and nobody inside. -/
theorem Semaphores.Kept.unlocked (hs : s.Kept) (hready : s.stage p ≠ .ready)
    (hlock : (s.stage p).hasLock = true) :
    (s.sys p).owner = none ∧ ∀ u, (s.sys p).pc u = .idle := by
  have hidle := (hs p).idle hready
  have hborn : (s.sys p).Born := by
    have hp := hs p
    revert hlock hp hready
    cases s.stage p <;> simp [Stage.hasLock, Stage.Holds]
  obtain ⟨sem, ms, -, hrun⟩ := hborn
  refine ⟨(Run.guarded hrun).free_iff.mpr fun u => ?_, hidle⟩
  simp [hidle u, Pc.holds]

/-- **The lives of semaphores.**  A thread makes one call at a time; it initialises storage
that holds no semaphore, begins `pthread_sem_wait`, `pthread_sem_signal` and
`pthread_sem_destroy` only on a semaphore that has been initialised and is not being
destroyed, and destroys one only while no thread is inside its functions.  In every run of
any number of such threads over any number of storages, whichever calls of the system fail:
every mutex and condition variable that is used or destroyed is there, and none is made that
is there already; a storage without a semaphore has given back all it was given, also where
`pthread_sem_init` has failed; a semaphore that is there has both, and its threads are in a
run that began with fields `pthread_sem_init` accepts; and when a mutex or a condition
variable is destroyed, no thread holds the mutex or is inside the functions. -/
theorem semaphore_lifetimes (h₀ : s₀.Untouched) (h : Run LifeStep s₀ ls s) :
    let log := ls.flatMap LifeLabel.entries
    Lib.Sound log ∧ (outstanding log).Nodup ∧
      (∀ p, s.stage p = .raw → ∀ o ∈ [Obj.lock p, .cond p], issues o log = retirements o log) ∧
      (∀ p, s.stage p = .ready →
        Obj.lock p ∈ outstanding log ∧ Obj.cond p ∈ outstanding log ∧ (s.sys p).Born) ∧
      ∀ t p s', LifeStep s (.condDestroy t p) s' ∨
          (∃ result, LifeStep s (.mutexDestroy t p result) s') →
        (s.sys p).owner = none ∧ ∀ u, (s.sys p).pc u = .idle := by
  intro log
  obtain ⟨hs, hlog⟩ := LifeRun.tracks h₀ h
  refine ⟨hlog.sound, hlog.nodup, fun p hraw o ho => ?_, fun p hready => ?_, ?_⟩
  · refine hlog.balance ?_
    simp only [List.mem_cons, List.not_mem_nil, or_false] at ho
    rcases ho with rfl | rfl
    · simp [Semaphores.live, hraw, Stage.hasLock]
    · simp [Semaphores.live, hraw, Stage.hasCond]
  · refine ⟨(hlog.mem_iff _).mpr ?_, (hlog.mem_iff _).mpr ?_, hs.holds hready⟩
    · simp [Semaphores.live, hready, Stage.hasLock]
    · simp [Semaphores.live, hready, Stage.hasCond]
  · rintro t p s' (hcond | ⟨result, hlock⟩)
    · cases hcond with
      | condDestroy hstage => exact hs.unlocked (by simp [hstage]) (by simp [hstage, Stage.hasLock])
    · cases hlock with
      | undo hstage | mutexDestroy hstage =>
        exact hs.unlocked (by simp [hstage]) (by simp [hstage, Stage.hasLock])

/-- The system has no condition variable left, and then it has one. -/
theorem semaphore_lifetimes_retry : ∃ (ls : List (LifeLabel Unit Unit)) (s : Semaphores Unit Unit),
    Run LifeStep ⟨fun _ => .raw, fun _ => Sys.initial ⟨7, -7⟩⟩ ls s ∧ s.stage () = .ready ∧
      issues (.lock ()) (ls.flatMap LifeLabel.entries) = 2 ∧
      Obj.cond () ∈ outstanding (ls.flatMap LifeLabel.entries) ∧ (s.sys ()).Born := by
  have hargs : ¬ ((1000 : Int) = 0 ∨ (0 : Int) > 1000) := by decide
  have hfree : ∀ {s : Semaphores Unit Unit}, s.stage () = .raw → (s.sys ()).pc () = .idle →
      s.Free () := by
    rintro s hraw hidle ⟨⟩
    exact ⟨hidle, by simp [hraw, Stage.actor]⟩
  have h₀ : (⟨fun _ => .raw, fun _ => Sys.initial ⟨7, -7⟩⟩ : Semaphores Unit Unit).Untouched :=
    ⟨fun _ => rfl, fun _ _ => rfl⟩
  have hinit := Run.single (LifeStep.init (h₀.raw ()) (hfree (h₀.raw ()) rfl) hargs)
  have hlock := hinit.snoc (.mutexInit (t := ()) (p := ()) rfl)
  have hfails : (12 : Int) ≠ 0 := by decide
  have hundo := (hlock.snoc (.condInitFails (t := ()) (p := ()) rfl hfails)).snoc
    (.undo (t := ()) (p := ()) rfl)
  have hagain := hundo.snoc (.init (t := ()) (p := ()) rfl (hfree rfl rfl) hargs)
  have hready := (hagain.snoc (.mutexInit (t := ()) (p := ()) rfl)).snoc
    (.condInit (t := ()) (p := ()) rfl)
  obtain ⟨-, -, -, hmade, -⟩ := semaphore_lifetimes h₀ hready
  obtain ⟨-, hcond, hborn⟩ := hmade () rfl
  exact ⟨_, _, hready, rfl, by decide, hcond, hborn⟩

end Refcode.Semaphore
