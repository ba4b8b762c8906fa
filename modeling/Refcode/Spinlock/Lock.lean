import Mathlib.Logic.Function.Basic
import Refcode.Lib.Mutex
import Refcode.Spinlock.BackEnds

/-!
# The spinlock

`spinlock_lock` and `spinlock_unlock`, as a step relation over any number of threads
that share one lock word.  Every step is one atomic access of the back end, or a call
or a return.

* `Step` — the threads.
* `Run.mutex` — a run of the spinlock is a run of a lock.
* `spinlock_mutual_exclusion` — the results: one holder, the word says whether there
  is one, loads change nothing, and a thread that runs alone gets a free lock.
-/

namespace Refcode.Spinlock

open Refcode.Lib

/-! ## The threads -/

/-- Where a thread is. -/
inductive Pc where
  /-- Outside, without the lock. -/
  | idle
  /-- In `spinlock_lock`, about to test and set. -/
  | testAndSet
  /-- In the inner loop of `spinlock_lock`, about to load. -/
  | load
  /-- About to return from `spinlock_lock`. -/
  | locked
  /-- Outside, with the lock. -/
  | critical
  /-- In `spinlock_unlock`, about to clear. -/
  | clear
  deriving DecidableEq

/-- From the exchange that wins up to the clearing step. -/
def Pc.holds : Pc → Bool
  | .locked | .critical | .clear => true
  | .idle | .testAndSet | .load => false

/-- Inside `spinlock_lock`, and not yet successful. -/
def Pc.spins : Pc → Bool
  | .testAndSet | .load => true
  | .idle | .locked | .critical | .clear => false

/-- What happens. -/
inductive Label (T : Type*) where
  | callLock (t : T)
  /-- The exchange returns `0`. -/
  | acquire (t : T)
  /-- The exchange returns something else. -/
  | fail (t : T)
  | load (t : T)
  | returnLock (t : T)
  | callUnlock (t : T)
  | clear (t : T)

/-- The thread that does it. -/
def Label.actor {T : Type*} : Label T → T
  | .callLock t | .acquire t | .fail t | .load t | .returnLock t | .callUnlock t | .clear t => t

/-- The lock word, and the threads. -/
structure Sys (T : Type*) where
  word : Word
  pc : T → Pc

variable {T : Type*} [DecidableEq T]

/-- Thread `t` goes to `pc`. -/
def Sys.goto (s : Sys T) (t : T) (pc : Pc) : Sys T := { s with pc := Function.update s.pc t pc }

/-- One step of one thread.  A thread calls `spinlock_unlock` only while it has the
lock. -/
inductive Step (backEnd : BackEnd) : Sys T → Label T → Sys T → Prop
  | callLock {s : Sys T} {t : T} : s.pc t = .idle →
      Step backEnd s (.callLock t) (s.goto t .testAndSet)
  | acquire {s : Sys T} {t : T} {word : Word} : s.pc t = .testAndSet →
      spinlockTestAndSetExplicit backEnd .acquire s.word = (0, word) →
      Step backEnd s (.acquire t) { s.goto t .locked with word := word }
  | fail {s : Sys T} {t : T} {old word : Word} : s.pc t = .testAndSet →
      spinlockTestAndSetExplicit backEnd .acquire s.word = (old, word) → old ≠ 0 →
      Step backEnd s (.fail t) { s.goto t .load with word := word }
  | load {s : Sys T} {t : T} {value word : Word} : s.pc t = .load →
      spinlockLoadExplicit backEnd .relaxed s.word = (value, word) →
      Step backEnd s (.load t)
        { s.goto t (if value = 1 then .load else .testAndSet) with word := word }
  | returnLock {s : Sys T} {t : T} : s.pc t = .locked →
      Step backEnd s (.returnLock t) (s.goto t .critical)
  | callUnlock {s : Sys T} {t : T} : s.pc t = .critical →
      Step backEnd s (.callUnlock t) (s.goto t .clear)
  | clear {s : Sys T} {t : T} : s.pc t = .clear →
      Step backEnd s (.clear t)
        { s.goto t .idle with word := spinlockClearExplicit backEnd .release s.word }

/-- The word is `0`, and nobody has called anything yet. -/
def Sys.initial : Sys T := ⟨0, fun _ => .idle⟩

variable {backEnd : BackEnd} {s s' : Sys T} {l : Label T} {ls : List (Label T)} {t : T}

/-- **Loads change nothing.** -/
theorem Step.word_load (h : Step backEnd s (.load t) s') : s'.word = s.word := by
  cases h with
  | load _ hload =>
    rw [spinlockLoadExplicit_eq] at hload
    exact (Prod.mk.inj hload).2.symm

/-! ## The lock -/

/-- The lock that the word and the threads implement: its owner is the holder, and the
word says whether there is one. -/
structure Implements (s : Sys T) (owner : Option T) : Prop where
  guards : Guards (fun t => (s.pc t).holds = true) owner
  word : s.word = if owner = none then 0 else 1

/-- What the lock sees of a step. -/
def Label.move : Label T → Option (MutexMove T)
  | .acquire t => some (.acquire t)
  | .clear t => some (.release t)
  | _ => none

variable {owner : Option T} {move : MutexMove T} {pc : Pc}

omit [DecidableEq T] in
theorem Implements.word_eq_zero (hs : Implements s owner) : s.word = 0 ↔ owner = none := by
  rw [hs.word]
  split_ifs with hnone
  · exact iff_of_true rfl hnone
  · exact iff_of_false (by decide) hnone

/-- Other threads than `t` hold the lock as before. -/
theorem holds_goto_of_ne {u : T} (hu : u ≠ t) :
    ((s.goto t pc).pc u).holds = true ↔ (s.pc u).holds = true := by
  simp only [Sys.goto, Function.update_of_ne hu]

theorem holds_goto_self : ((s.goto t pc).pc t).holds = pc.holds := by
  simp only [Sys.goto, Function.update_self]

/-- A thread that neither gets nor gives the lock leaves the owner alone. -/
theorem Implements.goto (hs : Implements s owner) (hpc : pc.holds = (s.pc t).holds) :
    Guards (fun u => ((s.goto t pc).pc u).holds = true) owner := by
  apply hs.guards.keep
  intro u
  by_cases hu : u = t
  · rw [hu, holds_goto_self, hpc]
  · exact holds_goto_of_ne hu

/-- **The winning exchange acquires the lock, and the clearing step releases it.** -/
theorem Step.sees (hs : Implements s owner) (h : Step backEnd s l s') (hmove : l.move = some move) :
    ∃ owner', MutexStep owner move owner' ∧ Implements s' owner' := by
  cases h with
  | @acquire t word hpc hset =>
    cases hmove
    rw [spinlockTestAndSetExplicit_eq] at hset
    obtain ⟨hzero, rfl⟩ := Prod.mk.inj hset
    obtain rfl := hs.word_eq_zero.1 hzero
    refine ⟨some t, .acquire, hs.guards.acquire (fun u hu => holds_goto_of_ne hu) ?_, rfl⟩
    exact holds_goto_self
  | @clear t hpc =>
    cases hmove
    have hin : (s.pc t).holds = true := by rw [hpc]; rfl
    obtain rfl := (hs.guards t).1 hin
    refine ⟨none, .release, hs.guards.release hin (fun u hu => holds_goto_of_ne hu) ?_, ?_⟩
    · show ¬ ((s.goto t .idle).pc t).holds = true
      rw [holds_goto_self]
      exact Bool.false_ne_true
    · exact spinlockClearExplicit_eq ..
  | _ => cases hmove

/-- **No other step is one of the lock.** -/
theorem Step.skips (hs : Implements s owner) (h : Step backEnd s l s') (hmove : l.move = none) :
    Implements s' owner := by
  cases h with
  | callLock hpc | returnLock hpc | callUnlock hpc =>
    exact ⟨hs.goto (by rw [hpc]; rfl), hs.word⟩
  | fail hpc hset hne =>
    rw [spinlockTestAndSetExplicit_eq] at hset
    obtain ⟨rfl, rfl⟩ := Prod.mk.inj hset
    have howner : owner ≠ none := fun hnone => hne (hs.word_eq_zero.2 hnone)
    exact ⟨hs.goto (by rw [hpc]; rfl), (if_neg howner).symm⟩
  | load hpc hload =>
    rw [spinlockLoadExplicit_eq] at hload
    obtain ⟨rfl, rfl⟩ := Prod.mk.inj hload
    refine ⟨hs.goto ?_, hs.word⟩
    rw [hpc]
    split_ifs <;> rfl
  | acquire | clear => cases hmove

/-- **A run of the spinlock is a run of the lock.** -/
theorem Run.mutex (h : Run (Step backEnd) Sys.initial ls s) :
    ∃ owner, Run MutexStep none (ls.filterMap Label.move) owner ∧ Implements s owner := by
  have hinit : Implements (Sys.initial : Sys T) none := by
    refine ⟨?_, rfl⟩
    intro t
    simp [Sys.initial, Pc.holds]
  apply h.projects hinit
  · intro x owner l y move hs hstep hmove
    exact hstep.sees hs hmove
  · intro x owner l y hs hstep hmove
    exact hstep.skips hs hmove

/-! ## Progress -/

/-- Only thread `t` moves. -/
def Solo (t : T) (ls : List (Label T)) : Prop := ∀ l ∈ ls, l.actor = t

/-- A thread about to exchange gets a free lock. -/
theorem Step.of_testAndSet (hfree : s.word = 0) (hpc : s.pc t = .testAndSet)
    (h : Step backEnd s l s') (hl : l.actor = t) : l = .acquire t := by
  subst hl
  cases h with
  | acquire => rfl
  | fail _ hset hne =>
    rw [spinlockTestAndSetExplicit_eq, hfree] at hset
    exact absurd (Prod.mk.inj hset).1.symm hne
  | callLock hold | load hold | returnLock hold | callUnlock hold | clear hold =>
    simp [Label.actor, hold] at hpc

/-- A thread in the inner loop leaves it when the lock is free. -/
theorem Step.of_load (hfree : s.word = 0) (hpc : s.pc t = .load)
    (h : Step backEnd s l s') (hl : l.actor = t) : s'.word = 0 ∧ s'.pc t = .testAndSet := by
  subst hl
  cases h with
  | load _ hload =>
    rw [spinlockLoadExplicit_eq, hfree] at hload
    obtain ⟨rfl, rfl⟩ := Prod.mk.inj hload
    exact ⟨rfl, Function.update_self ..⟩
  | callLock hold | acquire hold | fail hold | returnLock hold | callUnlock hold | clear hold =>
    simp [Label.actor, hold] at hpc

/-- **A thread that runs alone gets a free lock** with its first two steps. -/
theorem Run.solo (hfree : s.word = 0) (hpc : (s.pc t).spins = true)
    (h : Run (Step backEnd) s ls s') (hsolo : Solo t ls) (hlen : 2 ≤ ls.length) :
    .acquire t ∈ ls.take 2 := by
  obtain ⟨l₁, ls₁, rfl⟩ := List.exists_cons_of_length_pos (show 0 < ls.length by omega)
  rw [List.length_cons] at hlen
  obtain ⟨l₂, ls₂, rfl⟩ := List.exists_cons_of_length_pos (show 0 < ls₁.length by omega)
  obtain ⟨m, hfirst, hrest⟩ := Run.of_cons h
  obtain ⟨m', hsecond, -⟩ := Run.of_cons hrest
  have hactor₁ : l₁.actor = t := hsolo l₁ (by simp)
  have hactor₂ : l₂.actor = t := hsolo l₂ (by simp)
  cases hold : s.pc t <;> rw [hold] at hpc <;> cases hpc
  case testAndSet =>
    rw [hfirst.of_testAndSet hfree hold hactor₁]
    simp
  case load =>
    obtain ⟨hfree', hpc'⟩ := hfirst.of_load hfree hold hactor₁
    rw [hsecond.of_testAndSet hfree' hpc' hactor₂]
    simp

/-- A thread that spins on a free lock can take two steps alone. -/
theorem Run.exists_solo (hfree : s.word = 0) (hpc : (s.pc t).spins = true) :
    ∃ ls s', Run (Step backEnd) s ls s' ∧ Solo t ls ∧ ls.length = 2 := by
  have hset : ∀ {s : Sys T}, s.word = 0 →
      spinlockTestAndSetExplicit backEnd .acquire s.word = (0, 1) := fun hfree => by
    rw [spinlockTestAndSetExplicit_eq, hfree]
  cases hold : s.pc t <;> rw [hold] at hpc <;> cases hpc
  case testAndSet =>
    have hacquire := Run.single (Step.acquire hold (hset hfree))
    have hreturn := hacquire.snoc (.returnLock (t := t) (Function.update_self ..))
    exact ⟨_, _, hreturn, by simp [Solo, Label.actor], rfl⟩
  case load =>
    have hvalue : spinlockLoadExplicit backEnd .relaxed s.word = (0, 0) := by
      rw [spinlockLoadExplicit_eq, hfree]
    have hleave : (Function.update s.pc t (if (0 : Word) = 1 then .load else .testAndSet)) t
        = .testAndSet := by
      rw [Function.update_self]
      rfl
    have hload := Run.single (Step.load hold hvalue)
    have hacquire := hload.snoc (.acquire (t := t) hleave (hset rfl))
    exact ⟨_, _, hacquire, by simp [Solo, Label.actor], rfl⟩

/-! ## The results -/

/-- **The spinlock.**  With any back end, along every run of any number of threads: at
most one thread holds the lock; the word is `0` or `1`, and `1` exactly when somebody
holds the lock; no load changes the word; and when nobody holds the lock, a thread in
`spinlock_lock` that runs alone can always go on, and has the lock after at most two
of its steps. -/
theorem spinlock_mutual_exclusion (h : Run (Step backEnd) Sys.initial ls s) :
    (∀ t u, (s.pc t).holds = true → (s.pc u).holds = true → t = u) ∧
    (s.word = 0 ∨ s.word = 1) ∧ (s.word = 1 ↔ ∃ t, (s.pc t).holds = true) ∧
    (∀ t s', Step backEnd s (.load t) s' → s'.word = s.word) ∧
    ((∀ t, ¬ (s.pc t).holds = true) → ∀ t, (s.pc t).spins = true →
      (∃ ls s', Run (Step backEnd) s ls s' ∧ Solo t ls ∧ ls.length = 2) ∧
      ∀ ls s', Run (Step backEnd) s ls s' → Solo t ls → 2 ≤ ls.length →
        .acquire t ∈ ls.take 2) := by
  obtain ⟨owner, -, himpl⟩ := Run.mutex h
  refine ⟨fun t u => himpl.guards.unique, ?_, ?_, fun t s' hstep => hstep.word_load, ?_⟩
  · rw [himpl.word]
    split_ifs
    · exact Or.inl rfl
    · exact Or.inr rfl
  · rw [himpl.word]
    split_ifs with hfree
    · exact iff_of_false (by decide) fun ⟨t, ht⟩ => himpl.guards.free_iff.1 hfree t ht
    · obtain ⟨t, ht⟩ := Option.ne_none_iff_exists'.1 hfree
      exact iff_of_true rfl ⟨t, (himpl.guards t).2 ht⟩
  · intro hnone t hspins
    have hfree : s.word = 0 := himpl.word_eq_zero.2 (himpl.guards.free_iff.2 hnone)
    exact ⟨Run.exists_solo hfree hspins, fun ls s' => Run.solo hfree hspins⟩

/-- One thread gets the lock of the `chibicc` back end, and another one spins. -/
theorem spinlock_mutual_exclusion_pair : ∃ (ls : List (Label Bool)) (s : Sys Bool),
    Run (Step .chibicc) Sys.initial ls s ∧ (s.pc true).holds = true ∧ s.pc false = .load ∧
      ∀ s', Step .chibicc s (.load false) s' → s'.word = 1 := by
  have hcall : Run (Step .chibicc) (Sys.initial : Sys Bool) [.callLock true] _ :=
    Run.single (.callLock rfl)
  have hwin := hcall.snoc (.acquire (t := true) rfl rfl)
  have hfail := (hwin.snoc (.callLock (t := false) rfl)).snoc
    (.fail (t := false) rfl rfl (by decide))
  obtain ⟨-, -, -, hload, -⟩ := spinlock_mutual_exclusion hfail
  exact ⟨_, _, hfail, rfl, rfl, fun s' => hload false s'⟩

end Refcode.Spinlock
