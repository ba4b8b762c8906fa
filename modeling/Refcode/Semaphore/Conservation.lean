import Refcode.Lib.Pool
import Refcode.Lib.Tally
import Refcode.Semaphore.Pthread

/-!
# Conservation

The value of the semaphore is what it started with, plus the increments, minus the
decrements, over every run of any number of threads.

* `Run.value` — the balance, which needs nothing of the arguments of the
  initialisation.
* `semaphore_conservation` — between `0` and `valueMax` the semaphore is a pool of
  units, no unit of which is used twice, and `ERANGE` is returned exactly at the maximum.
* `semaphore_sound_iff` — the arguments `pthread_sem_init` accepts are sound exactly
  when the value is not negative.
-/

namespace Refcode.Semaphore

open Refcode.Lib

variable {T : Type*} [DecidableEq T]

/-! ## Counting what happened -/

def Label.isPost : Label T → Bool
  | .post _ _ => true
  | _ => false

def Label.isTake : Label T → Bool
  | .take _ => true
  | _ => false

def Label.isWaitReturn : Label T → Bool
  | .waitReturn _ => true
  | _ => false

/-- The signals that performed their increment. -/
def posts (ls : List (Label T)) : ℕ := ls.countP Label.isPost

/-- The waits that performed their decrement. -/
def takes (ls : List (Label T)) : ℕ := ls.countP Label.isTake

/-- The waits that returned. -/
def waitReturns (ls : List (Label T)) : ℕ := ls.countP Label.isWaitReturn

variable {sem : PthreadSem} {s s' : Sys T} {ls : List (Label T)} {l : Label T} {t : T}

omit [DecidableEq T] in
theorem posts_snoc : posts (ls ++ [l]) = posts ls + if l.isPost then 1 else 0 := by
  simp [posts, List.countP_singleton]

omit [DecidableEq T] in
theorem takes_snoc : takes (ls ++ [l]) = takes ls + if l.isTake then 1 else 0 := by
  simp [takes, List.countP_singleton]

omit [DecidableEq T] in
theorem waitReturns_snoc :
    waitReturns (ls ++ [l]) = waitReturns ls + if l.isWaitReturn then 1 else 0 := by
  simp [waitReturns, List.countP_singleton]

omit [DecidableEq T] in
theorem gain_eq (l : Label T) :
    l.gain = (if l.isPost then 1 else 0) - (if l.isTake then 1 else 0) := by
  cases l <;> rfl

/-- **The balance of a run.** -/
theorem Run.value (h : Run Step (Sys.initial sem) ls s) :
    s.sem.value = sem.value + posts ls - takes ls := by
  let Inv : List (Label T) → Sys T → Prop := fun ls s =>
    s.sem.value = sem.value + posts ls - takes ls
  apply h.invariant Inv
  · simp [Inv, Sys.initial, posts, takes]
  · intro ls x l y hx hs
    have hx : x.sem.value = sem.value + posts ls - takes ls := hx
    show y.sem.value = sem.value + posts (ls ++ [l]) - takes (ls ++ [l])
    rw [hs.value, hx, posts_snoc, takes_snoc, gain_eq]
    split_ifs <;> push_cast <;> omega

theorem Run.valueMax (h : Run Step (Sys.initial sem) ls s) : s.sem.valueMax = sem.valueMax := by
  let Inv : Sys T → Prop := fun s => s.sem.valueMax = sem.valueMax
  have hinit : Inv (Sys.initial sem) := rfl
  apply h.preserves hinit
  intro x l y hx hs
  exact hs.valueMax.trans hx

/-- The bounds hold along every run that starts within them. -/
theorem Run.bounds (h : Run Step (Sys.initial sem) ls s) (hlow : 0 ≤ sem.value)
    (hhigh : sem.value ≤ sem.valueMax) :
    0 ≤ s.sem.value ∧ s.sem.value ≤ s.sem.valueMax := by
  let Inv : Sys T → Prop := fun s => 0 ≤ s.sem.value ∧ s.sem.value ≤ s.sem.valueMax
  have hinit : Inv (Sys.initial sem) := ⟨hlow, hhigh⟩
  apply h.preserves hinit
  intro x l y hx hs
  exact hs.bounds hx.1 hx.2

/-! ## Returning from a wait -/

/-- **A tally changes by what the thread that moves contributes**, if it counts
neither the sleepers nor the woken. -/
theorem Step.tally [Fintype T] {P : Pc → Prop} [DecidablePred P] (h : Step s l s')
    (hsleep : ¬ P .waitSleep) (hwoken : ¬ P .waitWoken) :
    tally P s'.pc + (if P (s.pc l.actor) then 1 else 0)
      = tally P s.pc + (if P (s'.pc l.actor) then 1 else 0) := by
  apply tally_move
  intro u hu
  rcases h.pc_of_ne hu with heq | ⟨hold, hnew⟩
  · rw [heq]
  · rw [hold, hnew]
    exact iff_of_false hsleep hwoken

/-- A thread about to return from a wait has come there by its decrement, and leaves
by returning. -/
theorem Step.waitUnlock (h : Step s l s') :
    (if l.isWaitReturn then 1 else 0) + (if s'.pc l.actor = .waitUnlock then 1 else 0)
      = (if l.isTake then 1 else 0) + (if s.pc l.actor = .waitUnlock then 1 else 0) := by
  cases h with
  | @lock t pc _ hpc =>
    cases hold : s.pc t <;> rw [hold] at hpc <;> cases hpc <;>
      simp [Label.isWaitReturn, Label.isTake, Label.actor, Sys.goto, hold]
  | _ => simp_all [Label.isWaitReturn, Label.isTake, Label.actor, Sys.goto]

/-- Every wait that returned has performed its decrement. -/
theorem Run.waitReturns_le [Fintype T] (h : Run Step (Sys.initial sem) ls s) :
    waitReturns ls ≤ takes ls := by
  let Inv : List (Label T) → Sys T → Prop := fun ls s =>
    waitReturns ls + tally (· = .waitUnlock) s.pc = takes ls
  suffices hinv : Inv ls s from Nat.le.intro hinv
  apply h.invariant Inv
  · have hidle : tally (· = Pc.waitUnlock) (Sys.initial sem : Sys T).pc = 0 :=
      tally_eq_zero fun _ h => Pc.noConfusion h
    simp [Inv, waitReturns, takes, hidle]
  · intro ls x l y hx hs
    have hx : waitReturns ls + tally (· = .waitUnlock) x.pc = takes ls := hx
    have htally := hs.tally (P := (· = .waitUnlock)) (by decide) (by decide)
    have hunlock := hs.waitUnlock
    show waitReturns (ls ++ [l]) + tally (· = .waitUnlock) y.pc = takes (ls ++ [l])
    rw [waitReturns_snoc, takes_snoc]
    omega

/-! ## The pool of units -/

/-- What a pool of units sees of a step. -/
def Label.move : Label T → Option PoolMove
  | .post _ _ => some .make
  | .take _ => some .use
  | _ => none

omit [DecidableEq T] in
theorem countP_move :
    (ls.filterMap Label.move).countP PoolMove.isUse = takes ls := by
  rw [List.countP_filterMap]
  refine List.countP_congr fun l _ => ?_
  cases l <;> simp [Label.move, Label.isTake, PoolMove.isUse]

/-- **The semaphore is a pool of units**: increments make them, decrements use
them, and the value is the number of the free ones. -/
theorem Run.pool (h : Run Step (Sys.initial sem) ls s) (hlow : 0 ≤ sem.value) :
    ∃ p, Run PoolStep (Pool.initial sem.value.toNat) (ls.filterMap Label.move) p ∧
      s.sem.value = p.free.card := by
  let R : Sys T → Pool → Prop := fun s p => p.Ok ∧ s.sem.value = p.free.card
  have hinit : R (Sys.initial sem) (Pool.initial sem.value.toNat) := by
    refine ⟨Pool.initial_ok _, ?_⟩
    show sem.value = ((Finset.range sem.value.toNat).card : Int)
    rw [Finset.card_range]
    omega
  have hsee : ∀ {x : Sys T} {p : Pool} {l : Label T} {y : Sys T} {m : PoolMove}, R x p →
      Step x l y → l.move = some m → ∃ p', PoolStep p m p' ∧ R y p' := by
    rintro x p l y m ⟨hok, hval⟩ hs hm
    cases l <;> cases hm
    · -- some unit is free, for the value is not zero
      have hne : p.free.Nonempty := by
        rw [← Finset.card_pos]
        cases hs with
        | take _ hsec =>
          have := (waitSection_eq_some.1 hsec).1
          omega
      obtain ⟨u, hu⟩ := hne
      refine ⟨_, .use hu, (PoolStep.use hu).ok hok, ?_⟩
      have hpos := Finset.card_pos.2 ⟨u, hu⟩
      rw [hs.value, hval]
      simp only [Finset.card_erase_of_mem hu, Label.gain]
      omega
    · refine ⟨_, .make, PoolStep.make.ok hok, ?_⟩
      rw [hs.value, hval, hok.card_make]
      simp [Label.gain]
  have hskip : ∀ {x : Sys T} {p : Pool} {l : Label T} {y : Sys T}, R x p → Step x l y →
      l.move = none → R y p := by
    rintro x p l y ⟨hok, hval⟩ hs hm
    refine ⟨hok, ?_⟩
    rw [hs.value, hval]
    cases l <;> first | exact Int.add_zero _ | cases hm
  obtain ⟨p, hp, -, hval⟩ := h.projects hinit hsee hskip
  exact ⟨p, hp, hval⟩

/-! ## What a signal returns -/

/-- **The section of a signal.**  Its result is `ERANGE` if the value has reached
the maximum, and then only the thread itself has moved. -/
theorem Step.signalUnlock {result : Int} (h : Step s l s')
    (hpc : s'.pc l.actor = .signalUnlock result) :
    s.pc l.actor = .signalTest ∧
      (result = 0 ∧ s.sem.value < s.sem.valueMax ∨
        result = ERANGE ∧ s.sem.valueMax ≤ s.sem.value ∧
          s' = s.goto l.actor (.signalUnlock ERANGE)) := by
  cases h with
  | @lock t pc howner hlock =>
    have hpc : Function.update s.pc t pc t = .signalUnlock result := hpc
    rw [Function.update_self] at hpc
    subst hpc
    cases hold : s.pc t <;> rw [hold] at hlock <;> cases hlock
  | @post t sem result' W htest hsec hW hsome =>
    obtain ⟨hlt, -, rfl⟩ := signalSection_eq_post.1 hsec
    have hpc : Function.update (wakeAll W s.pc) t (.signalUnlock 0) t = .signalUnlock result := hpc
    rw [Function.update_self] at hpc
    cases hpc
    exact ⟨htest, Or.inl ⟨rfl, hlt⟩⟩
  | @refuse t sem result' htest hsec =>
    obtain ⟨hle, rfl, rfl⟩ := signalSection_eq_refuse.1 hsec
    have hpc : Function.update s.pc t (.signalUnlock ERANGE) t = .signalUnlock result := hpc
    rw [Function.update_self] at hpc
    cases hpc
    exact ⟨htest, Or.inr ⟨rfl, hle, rfl⟩⟩
  | _ => simp [Label.actor, Sys.goto] at hpc

/-- A thread about to return from a signal has gone through its section, and has done
nothing since. -/
theorem Run.signalUnlock {result : Int} (h : Run Step (Sys.initial sem) ls s)
    (hpc : s.pc t = .signalUnlock result) : ∃ before l after m m',
      ls = before ++ l :: after ∧ Run Step (Sys.initial sem) before m ∧ Step m l m' ∧
      l.actor = t ∧ m'.pc t = .signalUnlock result ∧ ∀ l' ∈ after, l'.actor ≠ t := by
  induction h with
  | nil => cases hpc
  | @snoc ls m m' l hrun hs ih =>
    by_cases hact : l.actor = t
    · exact ⟨ls, l, [], m, m', rfl, hrun, hs, hact, hpc, by simp⟩
    · have hsame : m.pc t = .signalUnlock result := by
        rcases hs.pc_of_ne (fun h => hact h.symm) with heq | ⟨-, hwoken⟩
        · rw [← heq, hpc]
        · rw [hwoken] at hpc
          cases hpc
      obtain ⟨before, l₁, after, m₁, m₁', rfl, hrun₁, hs₁, hact₁, hpc₁, hafter⟩ := ih hsame
      refine ⟨before, l₁, after ++ [l], m₁, m₁', by simp, hrun₁, hs₁, hact₁, hpc₁, fun l' hl' => ?_⟩
      rcases List.mem_append.1 hl' with hl' | hl'
      · exact hafter l' hl'
      · rw [List.mem_singleton.1 hl']
        exact hact

/-! ## The results -/

variable {pSem : Option PthreadSem} {value valueMax mutexInit condInit : Int}

/-- **Conservation.**  Start with `0 ≤ value ≤ valueMax` and `valueMax > 0`.  Along
every run of any number of threads, the value is the initial one plus the
increments minus the decrements and stays within its bounds; no more waits return
than units there were; the units can be told apart so that no two waits use the
same one; and a signal returns `ERANGE` exactly when its section found the value at
the maximum, and then its section changed nothing. -/
theorem semaphore_conservation [Fintype T]
    (hinit : pthreadSemInit pSem value valueMax mutexInit condInit = (0, some sem))
    (hlow : 0 ≤ value) (h : Run Step (Sys.initial sem) ls s) :
    s.sem.value = value + posts ls - takes ls ∧
    0 ≤ s.sem.value ∧ s.sem.value ≤ valueMax ∧
    waitReturns ls ≤ takes ls ∧ takes ls ≤ value + posts ls ∧
    (∃ p, Run PoolStep (Pool.initial value.toNat) (ls.filterMap Label.move) p ∧
      s.sem.value = p.free.card ∧ p.used.Nodup ∧ p.used.length = takes ls) ∧
    ∀ before t result after, ls = before ++ .signalReturn t result :: after →
      ∃ before₁ l after₁ m m', before = before₁ ++ l :: after₁ ∧
        Run Step (Sys.initial sem) before₁ m ∧ Step m l m' ∧ l.actor = t ∧
        m.pc t = .signalTest ∧ (∀ l' ∈ after₁, l'.actor ≠ t) ∧
        (result = ERANGE ↔ m.sem.value = valueMax) ∧
        (result = ERANGE → m' = m.goto t (.signalUnlock ERANGE)) := by
  obtain ⟨-, -, hhigh, -, -, rfl⟩ := pthreadSemInit_eq_zero.1 hinit
  have hvalue : s.sem.value = value + posts ls - takes ls := Run.value h
  obtain ⟨hge, hle⟩ := Run.bounds h hlow hhigh
  have hvm : s.sem.valueMax = valueMax := Run.valueMax h
  obtain ⟨p, hp, hcard⟩ := Run.pool h hlow
  refine ⟨hvalue, hge, hvm ▸ hle, Run.waitReturns_le h, by omega, ⟨p, hp, hcard,
    (Run.poolOk hp).nodup, ?_⟩, ?_⟩
  · rw [Run.poolUsed hp, countP_move]
  · rintro before t result after rfl
    obtain ⟨u, hbefore, hrest⟩ := Run.of_append h
    have hpc : u.pc t = .signalUnlock result := by
      obtain ⟨_, hs, -⟩ := Run.of_cons hrest
      cases hs with
      | signalReturn hpc => exact hpc
    obtain ⟨before₁, l, after₁, m, m', rfl, hrun, hs, rfl, hpc', hafter⟩ :=
      Run.signalUnlock hbefore hpc
    obtain ⟨htest, hcases⟩ := hs.signalUnlock hpc'
    obtain ⟨-, hle⟩ := Run.bounds hrun hlow hhigh
    have hvm : m.sem.valueMax = valueMax := Run.valueMax hrun
    refine ⟨before₁, l, after₁, m, m', rfl, hrun, hs, rfl, htest, hafter, ?_⟩
    rcases hcases with ⟨rfl, hlt⟩ | ⟨rfl, hge, rfl⟩
    · have hne : (0 : Int) ≠ ERANGE := by decide
      exact ⟨iff_of_false hne (by omega), fun h0 => absurd h0 hne⟩
    · exact ⟨iff_of_true rfl (by omega), fun _ => rfl⟩

/-- One thread calls `pthread_sem_signal`, and then the other one `pthread_sem_wait`. -/
theorem semaphore_conservation_pair : ∃ (ls : List (Label Bool)) (s : Sys Bool),
    Run Step (Sys.initial ⟨0, 1⟩) ls s ∧ posts ls = 1 ∧ waitReturns ls = 1 ∧ s.sem.value = 0 := by
  have hinit : pthreadSemInit (some ⟨0, 0⟩) 0 1 0 0 = (0, some ⟨0, 1⟩) := rfl
  have hsignal := Run.signalOnce (s := Sys.initial ⟨0, 1⟩) (t := true) rfl rfl nofun (by decide)
  have hwait := hsignal.append (Run.waitOnce (t := false) rfl rfl (by decide))
  obtain ⟨hvalue, -⟩ := semaphore_conservation hinit le_rfl hwait
  exact ⟨_, _, hwait, rfl, rfl, hvalue⟩

/-! ## Which arguments are sound -/

/-- After the steps `ls` of a semaphore that started as `sem`, its value is an `int` within
its bounds, and every wait that completed had a unit, from the initial value or from a
signal. -/
structure Sound (sem : PthreadSem) (ls : List (Label T)) (s : Sys T) : Prop where
  nonneg : 0 ≤ s.sem.value
  le_max : s.sem.value ≤ s.sem.valueMax
  isInt : IsInt s.sem.value
  takes_le : takes ls ≤ sem.value.toNat + posts ls
  waitReturns_le : waitReturns ls ≤ sem.value.toNat + posts ls

/-- **Waits below zero.**  From a negative value, one thread completes `n` waits without any
signal, for every `n` that the value can be decremented by within an `int`. -/
theorem Run.of_negative (t : T) (hneg : sem.value < 0) {n : ℕ} (hint : IsInt (sem.value - n)) :
    ∃ ls, Run Step (Sys.initial sem : Sys T) ls (Sys.initial ⟨sem.value - n, sem.valueMax⟩) ∧
      posts ls = 0 ∧ waitReturns ls = n := by
  induction n with
  | zero =>
    refine ⟨[], ?_, rfl, rfl⟩
    simpa using Run.nil (s := (Sys.initial sem : Sys T))
  | succ n ih =>
    have hbefore : IsInt (sem.value - n) := by
      obtain ⟨hlow, hhigh⟩ := hint
      push_cast at hlow hhigh
      constructor <;> omega
    obtain ⟨ls, hrun, hposts, hreturns⟩ := ih hbefore
    have hwait := Run.waitOnce (s := (Sys.initial ⟨sem.value - n, sem.valueMax⟩ : Sys T)) (t := t)
      rfl rfl (by show sem.value - n ≠ 0; omega)
    have hvalue : sem.value - (n + 1 : ℕ) = sem.value - n - 1 := by push_cast; omega
    refine ⟨ls ++ [.callWait t, .lock t, .take t, .waitReturn t], ?_, ?_, ?_⟩
    · rw [hvalue]
      exact hrun.append hwait
    · rw [posts, List.countP_append, ← posts, hposts]
      rfl
    · rw [waitReturns, List.countP_append, ← waitReturns, hreturns]
      rfl

/-- **The arguments that are sound.**  Of the arguments that `pthread_sem_init` accepts,
`Sound` holds in every state of every run exactly for those whose value is not negative;
from a negative one every thread can complete waits with no unit at all, until the value is
`INT_MIN`. -/
theorem semaphore_sound_iff [Fintype T]
    (hinit : pthreadSemInit pSem value valueMax mutexInit condInit = (0, some sem))
    (hmax : IsInt valueMax) :
    ((∀ (ls : List (Label T)) (s : Sys T), Run Step (Sys.initial sem) ls s → Sound sem ls s) ↔
      0 ≤ value) ∧
    (value < 0 → ∀ (t : T) (n : ℕ), IsInt (value - n) →
      ∃ ls s, Run Step (Sys.initial sem : Sys T) ls s ∧
        posts ls = 0 ∧ waitReturns ls = n ∧ s.pc t = .idle ∧ s.sem.value = value - n) := by
  obtain ⟨-, -, hhigh, -, -, rfl⟩ := pthreadSemInit_eq_zero.1 hinit
  refine ⟨⟨fun h => (h [] _ .nil).nonneg, fun hlow ls s h => ?_⟩, fun hneg t n hint => ?_⟩
  · have hvalue : s.sem.value = value + posts ls - takes ls := Run.value h
    obtain ⟨hge, hle⟩ := Run.bounds h hlow hhigh
    have hvm : s.sem.valueMax = valueMax := Run.valueMax h
    have hint : -2 ^ 31 ≤ s.sem.value ∧ s.sem.value < 2 ^ 31 := by
      obtain ⟨-, hlt⟩ := hmax
      omega
    have htakes : takes ls ≤ value.toNat + posts ls := by omega
    exact ⟨hge, hle, hint, htakes, (Run.waitReturns_le h).trans htakes⟩
  · have hbelow : (⟨value, valueMax⟩ : PthreadSem).value < 0 := hneg
    obtain ⟨ls, hrun, hposts, hreturns⟩ := Run.of_negative t hbelow hint
    exact ⟨ls, _, hrun, hposts, hreturns, rfl, rfl⟩

/-- The arguments of the test program: a signal, and a wait of another thread. -/
theorem semaphore_sound_test : ∃ (ls : List (Label Bool)) (s : Sys Bool),
    Run Step (Sys.initial ⟨0, 1000⟩) ls s ∧ waitReturns ls = 1 ∧ Sound ⟨0, 1000⟩ ls s := by
  have hinit : pthreadSemInit (some ⟨0, 0⟩) 0 1000 0 0 = (0, some ⟨0, 1000⟩) := rfl
  have hsignal := Run.signalOnce (s := Sys.initial ⟨0, 1000⟩) (t := true) rfl rfl nofun (by decide)
  have hwait := hsignal.append (Run.waitOnce (t := false) rfl rfl (by decide))
  have hsound := (semaphore_sound_iff hinit ⟨by decide, by decide⟩).1.2 le_rfl _ _ hwait
  exact ⟨_, _, hwait, rfl, hsound⟩

/-- `-1` is accepted: a wait completes without a signal, and leaves `-2`. -/
theorem pthreadSemInit_negative :
    pthreadSemInit (some ⟨0, 0⟩) (-1) 1 0 0 = (0, some ⟨-1, 1⟩) ∧ IsInt (-1) ∧ IsInt 1 ∧
    ∃ (ls : List (Label Unit)) (s : Sys Unit), Run Step (Sys.initial ⟨-1, 1⟩) ls s ∧
      posts ls = 0 ∧ waitReturns ls = 1 ∧ s.sem.value = -2 ∧ ¬ Sound ⟨-1, 1⟩ ls s := by
  have hneg : (⟨-1, 1⟩ : PthreadSem).value < 0 := by decide
  have hint : IsInt ((⟨-1, 1⟩ : PthreadSem).value - (1 : ℕ)) := ⟨by decide, by decide⟩
  obtain ⟨ls, hrun, hposts, hreturns⟩ := Run.of_negative () hneg hint
  refine ⟨rfl, ⟨by decide, by decide⟩, ⟨by decide, by decide⟩, ls, _, hrun, hposts, hreturns, rfl,
    fun h => ?_⟩
  exact absurd h.nonneg (by decide)

end Refcode.Semaphore
