import Refcode.Lib.Mutex

/-!
# Critical sections

What a lock is good for.  Data that only the owner of a lock touches changes as if every
owner had done all its work at once: what it does between acquiring and releasing is a
section, and the sections come one after the other, whatever else happens in between.

* `GuardedStep` — a lock and the data that it guards, access by access.
* `SectionStep` — the data alone, section by section.
* `Run.serial` — every run of the first is one of the second, in the order in which the
  lock is acquired, up to the section that is still open.
-/

namespace Refcode.Lib

variable {T A X : Type*}

/-- What happens to a lock, or to the data. -/
inductive GuardedMove (T A : Type*) where
  | lock (move : MutexMove T)
  | access (t : T) (a : A)

/-- The owner of the lock, and nobody else, gets at the data; `act t a` is what thread `t`
does to it with `a`. -/
inductive GuardedStep (act : T → A → X → X) :
    Option T × X → GuardedMove T A → Option T × X → Prop
  | lock {owner owner' : Option T} {move : MutexMove T} {x : X} : MutexStep owner move owner' →
      GuardedStep act (owner, x) (.lock move) (owner', x)
  | access {t : T} {a : A} {x : X} : GuardedStep act (some t, x) (.access t a) (some t, act t a x)

/-- A thread, and what it does while it has the lock. -/
structure CriticalSection (T A : Type*) where
  thread : T
  accesses : List A

/-- All of a section at once. -/
def CriticalSection.effect (act : T → A → X → X) (c : CriticalSection T A) (x : X) : X :=
  c.accesses.foldl (fun x a => act c.thread a x) x

/-- One section after the other. -/
inductive SectionStep (act : T → A → X → X) : X → CriticalSection T A → X → Prop
  | perform {x : X} {c : CriticalSection T A} : SectionStep act x c (c.effect act x)

/-- Who acquires the lock. -/
def GuardedMove.acquired : GuardedMove T A → Option T
  | .lock (.acquire t) => some t
  | _ => none

/-- Who gets at the data, and how. -/
def GuardedMove.accessed : GuardedMove T A → Option (T × A)
  | .access t a => some (t, a)
  | _ => none

/-- The accesses of a section. -/
def CriticalSection.accessed (c : CriticalSection T A) : List (T × A) :=
  c.accesses.map fun a => (c.thread, a)

/-- **The sections of a run.**  Those that are over have led to `y` one after the other;
the one that is open, if there is one, belongs to the owner and has led on to `x`.
Together they are all accesses, and all acquisitions, in order. -/
structure Serial (act : T → A → X → X) (x₀ : X) (owner : Option T) (x : X)
    (acquired : List T) (accessed : List (T × A)) (done : List (CriticalSection T A)) (y : X)
    (current : Option (CriticalSection T A)) : Prop where
  run : Run (SectionStep act) x₀ done y
  owner_eq : owner = current.map CriticalSection.thread
  data_eq : x = current.elim y fun c => c.effect act y
  acquired_eq : acquired = (done ++ current.toList).map CriticalSection.thread
  accessed_eq : accessed = (done ++ current.toList).flatMap CriticalSection.accessed

section Serial

variable {act : T → A → X → X} {x₀ x x' y : X} {owner owner' : Option T} {acquired : List T}
  {accessed : List (T × A)} {done : List (CriticalSection T A)}
  {current : Option (CriticalSection T A)} {move : GuardedMove T A}
  {moves : List (GuardedMove T A)}

/-- **Every step adds to the sections.** -/
theorem Serial.step (h : Serial act x₀ owner x acquired accessed done y current)
    (hs : GuardedStep act (owner, x) move (owner', x')) : ∃ done' y' current',
      Serial act x₀ owner' x' (acquired ++ move.acquired.toList)
        (accessed ++ move.accessed.toList) done' y' current' := by
  obtain ⟨hrun, howner, hdata, hacq, hacc⟩ := h
  cases hs with
  | lock hlock =>
    cases hlock with
    | @acquire t =>
      -- nobody had the lock, so that no section was open
      obtain rfl : current = none := Option.map_eq_none_iff.mp howner.symm
      refine ⟨done, y, some ⟨t, []⟩, hrun, rfl, hdata, ?_, ?_⟩
      · simp [hacq, GuardedMove.acquired]
      · simp [hacc, GuardedMove.accessed, CriticalSection.accessed]
    | @release t =>
      obtain ⟨c, rfl, -⟩ := Option.map_eq_some_iff.mp howner.symm
      refine ⟨done ++ [c], c.effect act y, none, hrun.snoc .perform, rfl, hdata, ?_, ?_⟩
      · simp [hacq, GuardedMove.acquired]
      · simp [hacc, GuardedMove.accessed]
  | @access t a x =>
    obtain ⟨c, rfl, rfl⟩ := Option.map_eq_some_iff.mp howner.symm
    refine ⟨done, y, some ⟨c.thread, c.accesses ++ [a]⟩, hrun, rfl, ?_, ?_, ?_⟩
    · simp [hdata, CriticalSection.effect]
    · simp [hacq, GuardedMove.acquired]
    · simp [hacc, GuardedMove.accessed, CriticalSection.accessed]

theorem filterMap_snoc {L M : Type*} {see : L → Option M} {ls : List L} {l : L} :
    (ls ++ [l]).filterMap see = ls.filterMap see ++ (see l).toList := by
  cases hl : see l <;> simp [hl]

/-- **Under a lock, sections are atomic.** -/
theorem Run.serial (h : Run (GuardedStep act) (none, x₀) moves (owner, x)) :
    ∃ done y current, Serial act x₀ owner x (moves.filterMap GuardedMove.acquired)
      (moves.filterMap GuardedMove.accessed) done y current := by
  let Inv : List (GuardedMove T A) → Option T × X → Prop := fun moves s =>
    ∃ done y current, Serial act x₀ s.1 s.2 (moves.filterMap GuardedMove.acquired)
      (moves.filterMap GuardedMove.accessed) done y current
  apply h.invariant Inv
  · exact ⟨[], x₀, none, .nil, rfl, rfl, rfl, rfl⟩
  · rintro moves ⟨owner, x⟩ move ⟨owner', x'⟩ ⟨done, y, current, hserial⟩ hs
    simp only [Inv, filterMap_snoc]
    exact hserial.step hs

end Serial

end Refcode.Lib
