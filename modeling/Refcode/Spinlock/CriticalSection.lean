import Refcode.Lib.Serial
import Refcode.Spinlock.Lock

/-!
# What the spinlock protects

Threads that get at shared data between `spinlock_lock` and `spinlock_unlock` only, where
`main` has its `TODO`.  An access is one step, so that reading, computing and writing back
are several, and other threads call, spin and return in between.

* `DataStep` — the threads of the spinlock, with the data.
* `DataRun.guarded` — a run of them is a run of a lock with the data that it guards.
* `spinlock_serializable` — what the threads do to the data between locking and unlocking
  is done at once.
-/

namespace Refcode.Spinlock

open Refcode.Lib

variable {T A X : Type*} [DecidableEq T]

/-- A step of the spinlock, or an access to the data. -/
inductive DataLabel (T A : Type*) where
  | lock (l : Label T)
  | access (t : T) (a : A)

/-- Thread `t` does `act t a` to the data, which holds its local variables too. -/
inductive DataStep (backEnd : BackEnd) (act : T → A → X → X) :
    Sys T × X → DataLabel T A → Sys T × X → Prop
  | lock {s s' : Sys T} {l : Label T} {x : X} : Step backEnd s l s' →
      DataStep backEnd act (s, x) (.lock l) (s', x)
  | access {s : Sys T} {t : T} {a : A} {x : X} : s.pc t = .critical →
      DataStep backEnd act (s, x) (.access t a) (s, act t a x)

/-- Who wins the exchange. -/
def DataLabel.acquired : DataLabel T A → Option T
  | .lock (.acquire t) => some t
  | _ => none

/-- Who gets at the data, and how. -/
def DataLabel.accessed : DataLabel T A → Option (T × A)
  | .access t a => some (t, a)
  | _ => none

/-- What a lock and the data that it guards see of a step. -/
def DataLabel.move : DataLabel T A → Option (GuardedMove T A)
  | .lock l => l.move.map .lock
  | .access t a => some (.access t a)

variable {backEnd : BackEnd} {act : T → A → X → X} {s : Sys T} {x x₀ : X}
  {ls : List (DataLabel T A)}

omit [DecidableEq T] in
@[simp] theorem bind_acquired (l : DataLabel T A) :
    l.move.bind GuardedMove.acquired = l.acquired := by
  cases l with
  | lock l => cases l <;> rfl
  | access t a => rfl

omit [DecidableEq T] in
@[simp] theorem bind_accessed (l : DataLabel T A) :
    l.move.bind GuardedMove.accessed = l.accessed := by
  cases l with
  | lock l => cases l <;> rfl
  | access t a => rfl

/-- **The spinlock guards the data.** -/
theorem DataRun.guarded (h : Run (DataStep backEnd act) (Sys.initial, x₀) ls (s, x)) :
    ∃ owner, Run (GuardedStep act) (none, x₀) (ls.filterMap DataLabel.move) (owner, x) ∧
      Implements s owner := by
  let R : Sys T × X → Option T × X → Prop := fun s g => Implements s.1 g.1 ∧ s.2 = g.2
  have hinit : R (Sys.initial, x₀) (none, x₀) := by
    refine ⟨⟨?_, rfl⟩, rfl⟩
    intro t
    simp [Sys.initial, Pc.holds]
  have hsee : ∀ {y : Sys T × X} {g : Option T × X} {l : DataLabel T A} {z : Sys T × X}
      {m : GuardedMove T A}, R y g → DataStep backEnd act y l z → l.move = some m →
        ∃ g', GuardedStep act g m g' ∧ R z g' := by
    rintro y ⟨owner, x⟩ l z m ⟨himpl, rfl⟩ hs hm
    cases hs with
    | lock hstep =>
      obtain ⟨move, hmove, rfl⟩ := Option.map_eq_some_iff.mp hm
      obtain ⟨owner', hlock, himpl'⟩ := hstep.sees himpl hmove
      exact ⟨_, .lock hlock, himpl', rfl⟩
    | @access s t a x hpc =>
      cases hm
      have hin : (s.pc t).holds = true := by rw [hpc]; rfl
      obtain rfl := (himpl.guards t).mp hin
      exact ⟨_, .access, himpl, rfl⟩
  have hskip : ∀ {y : Sys T × X} {g : Option T × X} {l : DataLabel T A} {z : Sys T × X},
      R y g → DataStep backEnd act y l z → l.move = none → R z g := by
    rintro y ⟨owner, x⟩ l z ⟨himpl, rfl⟩ hs hm
    cases hs with
    | lock hstep => exact ⟨hstep.skips himpl (Option.map_eq_none_iff.mp hm), rfl⟩
    | access => cases hm
  obtain ⟨⟨owner, x'⟩, hrun, himpl, rfl⟩ := h.projects hinit hsee hskip
  exact ⟨owner, hrun, himpl⟩

/-- **Critical sections are atomic.**  With any back end, along every run of any number of
threads, the data is what comes out when the threads do their work one after the other,
in the order in which they win the exchange, each of them all of it at once.  Only a
thread that holds the lock may be half way through its work. -/
theorem spinlock_serializable (h : Run (DataStep backEnd act) (Sys.initial, x₀) ls (s, x)) :
    ∃ (done : List (CriticalSection T A)) (y : X) (current : Option (CriticalSection T A)),
      Run (SectionStep act) x₀ done y ∧
      (∀ t, (s.pc t).holds = true ↔ current.map CriticalSection.thread = some t) ∧
      x = current.elim y (fun c => c.effect act y) ∧
      ls.filterMap DataLabel.acquired = (done ++ current.toList).map CriticalSection.thread ∧
      ls.filterMap DataLabel.accessed
        = (done ++ current.toList).flatMap CriticalSection.accessed := by
  obtain ⟨owner, hrun, himpl⟩ := DataRun.guarded h
  obtain ⟨done, y, current, hserial⟩ := hrun.serial
  simp only [List.filterMap_filterMap, bind_acquired, bind_accessed] at hserial
  refine ⟨done, y, current, hserial.run, ?_, hserial.data_eq, hserial.acquired_eq,
    hserial.accessed_eq⟩
  intro t
  rw [← hserial.owner_eq]
  exact himpl.guards t

/-! ## A counter -/

/-- `tmp = counter;` and `counter = tmp + 1;`. -/
inductive CounterAccess where
  | load
  | store

/-- A counter, and a local variable of every thread. -/
def countUp {T : Type*} [DecidableEq T] (t : T) (a : CounterAccess) (x : ℕ × (T → ℕ)) :
    ℕ × (T → ℕ) :=
  match a with
  | .load => (x.1, Function.update x.2 t x.1)
  | .store => (x.2 t + 1, x.2)

/-- Two threads count, and one of them spins in the meantime. -/
theorem spinlock_serializable_pair : ∃ (ls : List (DataLabel Bool CounterAccess))
    (s : Sys Bool) (tmp : Bool → ℕ),
    Run (DataStep .modernGcc countUp) (Sys.initial, 0, fun _ => 0) ls (s, 2, tmp) ∧
    ∃ (done : List (CriticalSection Bool CounterAccess)) (y : ℕ × (Bool → ℕ))
      (current : Option (CriticalSection Bool CounterAccess)),
      Run (SectionStep countUp) (0, fun _ => 0) done y ∧
      (2, tmp) = current.elim y (fun c => c.effect countUp y) ∧
      [true, false] = (done ++ current.toList).map CriticalSection.thread := by
  have hwin : Run (DataStep .modernGcc countUp) ((Sys.initial : Sys Bool), 0, fun _ => 0) _ _ :=
    ((Run.single (.lock (.callLock (t := true) rfl))).snoc
      (.lock (.acquire (t := true) rfl rfl))).snoc (.lock (.returnLock (t := true) rfl))
  have hload := hwin.snoc (.access (t := true) (a := .load) rfl)
  have hspin := (hload.snoc (.lock (.callLock (t := false) rfl))).snoc
    (.lock (.fail (t := false) rfl rfl (by decide)))
  have hstore := hspin.snoc (.access (t := true) (a := .store) rfl)
  have hleave := (hstore.snoc (.lock (.callUnlock (t := true) rfl))).snoc
    (.lock (.clear (t := true) rfl))
  have hturn := ((hleave.snoc (.lock (.load (t := false) rfl rfl))).snoc
    (.lock (.acquire (t := false) rfl rfl))).snoc (.lock (.returnLock (t := false) rfl))
  have hcount := (hturn.snoc (.access (t := false) (a := .load) rfl)).snoc
    (.access (t := false) (a := .store) rfl)
  obtain ⟨done, y, current, hrun, -, hdata, hacquired, -⟩ := spinlock_serializable hcount
  exact ⟨_, _, _, hcount, done, y, current, hrun, hdata, hacquired⟩

end Refcode.Spinlock
