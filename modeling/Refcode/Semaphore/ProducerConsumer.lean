import Refcode.Semaphore.Conservation

/-!
# Producers and consumers

The program of `pthread_semaphore.c`: producers increment a counter under `g_lock`
and then signal the semaphore, consumers wait for the semaphore and then decrement
the counter under `g_lock`.  The counter and the semaphore are updated apart, so
many threads can be between the two.

* `DemoStep` — the two loops, over the steps of the semaphore.
* `DemoRun.gSem` — a run of the program is a run of the semaphore.
* `Balanced` — the counter is the value of the semaphore plus the threads that are
  between their two updates.
* `producer_consumer_bounded` — the counter stays within the cap, and no signal
  fails.
-/

namespace Refcode.Semaphore

open Refcode.Lib

/-! ## The program -/

/-- Where a thread is in `producer_thread` or `consumer_thread`, before `g_done` is
set. -/
inductive LoopPc where
  /-- A producer about to lock `g_lock`. -/
  | produceLock
  /-- Holding `g_lock`, about to test and increment `g_counter`. -/
  | produceTest
  /-- About to unlock `g_lock`; `produced` if it has incremented the counter. -/
  | produceUnlock (produced : Bool)
  /-- About to call `pthread_sem_signal`. -/
  | produceSignal
  /-- In `pthread_sem_signal`. -/
  | signalling
  /-- A consumer about to call `pthread_sem_wait`. -/
  | consumeWait
  /-- In `pthread_sem_wait`. -/
  | waiting
  /-- About to lock `g_lock`. -/
  | consumeLock
  /-- Holding `g_lock`, about to decrement `g_counter`. -/
  | consumeTake
  /-- About to unlock `g_lock`. -/
  | consumeUnlock
  deriving DecidableEq

/-- Where a thread goes when it gets `g_lock`. -/
def LoopPc.locked : LoopPc → Option LoopPc
  | .produceLock => some .produceTest
  | .consumeLock => some .consumeTake
  | _ => none

/-- Where a thread goes when it gives `g_lock` back. -/
def LoopPc.unlocked : LoopPc → Option LoopPc
  | .produceUnlock false => some .produceLock
  | .produceUnlock true => some .produceSignal
  | .consumeUnlock => some .consumeWait
  | _ => none

/-- Where a step of the semaphore takes the thread in its loop: the calls and the
returns are steps of the loop as well.  A failed signal is only reported. -/
def LoopPc.follow {T : Type*} : Label T → LoopPc → Option LoopPc
  | .callSignal _, .produceSignal => some .signalling
  | .signalReturn _ _, .signalling => some .produceLock
  | .callWait _, .consumeWait => some .waiting
  | .waitReturn _, .waiting => some .consumeLock
  | .callSignal _, _ | .signalReturn _ _, _ | .callWait _, _ | .waitReturn _, _ => none
  | _, pc => some pc

/-- What happens. -/
inductive DemoLabel (T : Type*) where
  | lock (t : T)
  /-- The counter is not at the cap and is incremented. -/
  | produce (t : T)
  /-- The counter is at the cap. -/
  | full (t : T)
  | consume (t : T)
  | unlock (t : T)
  | gSem (l : Label T)

/-- The global variables and the threads. -/
structure Demo (T : Type*) where
  gSem : Sys T
  gCounter : BitVec 32
  gLock : Option T
  pc : T → LoopPc

variable {T : Type*} [DecidableEq T]

def Demo.goto (s : Demo T) (t : T) (pc : LoopPc) : Demo T :=
  { s with pc := Function.update s.pc t pc }

/-- One step of one thread, with `cap` for the `1000` of the source. -/
inductive DemoStep (cap : ℕ) : Demo T → DemoLabel T → Demo T → Prop
  | lock {s : Demo T} {t : T} {pc : LoopPc} : s.gLock = none → (s.pc t).locked = some pc →
      DemoStep cap s (.lock t) { s.goto t pc with gLock := some t }
  | produce {s : Demo T} {t : T} : s.pc t = .produceTest → s.gCounter ≠ BitVec.ofNat 32 cap →
      DemoStep cap s (.produce t)
        { s.goto t (.produceUnlock true) with gCounter := s.gCounter + 1 }
  | full {s : Demo T} {t : T} : s.pc t = .produceTest → s.gCounter = BitVec.ofNat 32 cap →
      DemoStep cap s (.full t) (s.goto t (.produceUnlock false))
  | consume {s : Demo T} {t : T} : s.pc t = .consumeTake →
      DemoStep cap s (.consume t) { s.goto t .consumeUnlock with gCounter := s.gCounter - 1 }
  | unlock {s : Demo T} {t : T} {pc : LoopPc} : (s.pc t).unlocked = some pc →
      DemoStep cap s (.unlock t) { s.goto t pc with gLock := none }
  | gSem {s : Demo T} {l : Label T} {sys : Sys T} {pc : LoopPc} : Step s.gSem l sys →
      (s.pc l.actor).follow l = some pc →
      DemoStep cap s (.gSem l) { s.goto l.actor pc with gSem := sys }

/-- The threads start at the top of their loops. -/
def Demo.initial (sem : PthreadSem) (isProducer : T → Bool) : Demo T :=
  ⟨Sys.initial sem, 0, none, fun t => if isProducer t then .produceLock else .consumeWait⟩

variable {cap : ℕ} {sem : PthreadSem} {isProducer : T → Bool} {s s' : Demo T}
  {ls : List (DemoLabel T)} {l : DemoLabel T} {t : T}

/-- What the semaphore sees of a step. -/
def DemoLabel.sees : DemoLabel T → Option (Label T)
  | .gSem l => some l
  | _ => none

/-- **A run of the program is a run of the semaphore.** -/
theorem DemoRun.gSem (h : Run (DemoStep cap) (Demo.initial sem isProducer) ls s) :
    Run Step (Sys.initial sem) (ls.filterMap DemoLabel.sees) s.gSem := by
  let R : Demo T → Sys T → Prop := fun s sys => s.gSem = sys
  have hinit : R (Demo.initial sem isProducer) (Sys.initial sem) := rfl
  have hsee : ∀ {x : Demo T} {sys : Sys T} {l : DemoLabel T} {y : Demo T} {m : Label T},
      R x sys → DemoStep cap x l y → l.sees = some m → ∃ sys', Step sys m sys' ∧ R y sys' := by
    rintro x _ l y m rfl hs hm
    cases hs with
    | gSem hstep _ =>
      cases hm
      exact ⟨_, hstep, rfl⟩
    | _ => cases hm
  have hskip : ∀ {x : Demo T} {sys : Sys T} {l : DemoLabel T} {y : Demo T},
      R x sys → DemoStep cap x l y → l.sees = none → R y sys := by
    rintro x _ l y rfl hs hm
    cases hs with
    | gSem => cases hm
    | _ => rfl
  obtain ⟨sys, hrun, rfl⟩ := h.projects hinit hsee hskip
  exact hrun

/-! ## Where the two program counters meet -/

/-- The two functions of the semaphore. -/
inductive Fn where
  | wait
  | signal
  deriving DecidableEq

/-- The function a thread is in. -/
def Pc.inside : Pc → Option Fn
  | .idle => none
  | .waitLock | .waitTest _ | .waitSleep | .waitWoken | .waitUnlock => some .wait
  | .signalLock | .signalTest | .signalUnlock _ => some .signal

/-- The function of the semaphore a thread has called from its loop. -/
def LoopPc.inside : LoopPc → Option Fn
  | .waiting => some .wait
  | .signalling => some .signal
  | _ => none

/-- Every thread is in the function that it has called. -/
def Linked (s : Demo T) : Prop := ∀ t, (s.gSem.pc t).inside = (s.pc t).inside

theorem LoopPc.locked_inside {pc pc' : LoopPc} (h : pc.locked = some pc') :
    pc.inside = none ∧ pc'.inside = none := by
  cases pc <;> cases h <;> exact ⟨rfl, rfl⟩

theorem LoopPc.unlocked_inside {pc pc' : LoopPc} (h : pc.unlocked = some pc') :
    pc.inside = none ∧ pc'.inside = none := by
  rcases pc with _ | _ | (_ | _) | _ <;> cases h <;> exact ⟨rfl, rfl⟩

theorem LoopPc.eq_waiting {pc : LoopPc} (h : pc.inside = some .wait) : pc = .waiting := by
  cases pc <;> first | rfl | cases h

theorem LoopPc.eq_signalling {pc : LoopPc} (h : pc.inside = some .signal) : pc = .signalling := by
  cases pc <;> first | rfl | cases h

theorem Pc.locked_inside {pc pc' : Pc} (h : pc.locked = some pc') : pc'.inside = pc.inside := by
  cases pc <;> cases h <;> rfl

/-- The thread of a step of the semaphore is still in the function it has called. -/
theorem Step.inside {s s' : Sys T} {l : Label T} {pc pc' : LoopPc} (h : Step s l s')
    (hlink : (s.pc l.actor).inside = pc.inside) (hfollow : pc.follow l = some pc') :
    (s'.pc l.actor).inside = pc'.inside := by
  cases h with
  | @lock t q howner hlocked =>
    cases hfollow
    rw [← hlink]
    simpa [Label.actor, Sys.goto] using Pc.locked_inside hlocked
  | callWait hpc | callSignal hpc | waitReturn hpc | signalReturn hpc =>
    cases pc <;> cases hfollow
    simp [Label.actor, Sys.goto, Pc.inside, LoopPc.inside]
  | take hpc | sleep hpc | wake hpc | post hpc | refuse hpc =>
    cases hfollow
    rw [← hlink]
    simp [Label.actor, Sys.goto, hpc, Pc.inside]

/-- The thread of a step. -/
def DemoLabel.actor : DemoLabel T → T
  | .lock t | .produce t | .full t | .consume t | .unlock t => t
  | .gSem l => l.actor

/-- The other threads stay where they are, or are woken. -/
theorem DemoStep.pc_of_ne (h : DemoStep cap s l s') {u : T} (hu : u ≠ l.actor) :
    s'.pc u = s.pc u ∧ (s'.gSem.pc u = s.gSem.pc u ∨
      s.gSem.pc u = .waitSleep ∧ s'.gSem.pc u = .waitWoken) := by
  cases h with
  | gSem hstep _ => exact ⟨Function.update_of_ne hu _ _, hstep.pc_of_ne hu⟩
  | _ => exact ⟨Function.update_of_ne hu _ _, Or.inl rfl⟩

theorem DemoStep.linked (h : DemoStep cap s l s') (hs : Linked s) : Linked s' := by
  intro u
  rcases eq_or_ne u l.actor with rfl | hu
  · have hact := hs l.actor
    cases h with
    | lock _ hlocked =>
      obtain ⟨hold, hnew⟩ := LoopPc.locked_inside hlocked
      simpa [DemoLabel.actor, Demo.goto, hold, hnew] using hact
    | unlock hunlocked =>
      obtain ⟨hold, hnew⟩ := LoopPc.unlocked_inside hunlocked
      simpa [DemoLabel.actor, Demo.goto, hold, hnew] using hact
    | produce hpc | full hpc | consume hpc =>
      simpa [DemoLabel.actor, Demo.goto, hpc, LoopPc.inside] using hact
    | gSem hstep hfollow =>
      simpa [DemoLabel.actor, Demo.goto] using hstep.inside hact hfollow
  · obtain ⟨hpc, hsem⟩ := h.pc_of_ne hu
    rw [hpc, ← hs u]
    rcases hsem with heq | ⟨hold, hnew⟩
    · rw [heq]
    · rw [hold, hnew]
      rfl

/-! ## Between the two updates -/

/-- Where a thread is, in its loop and in the semaphore. -/
def Demo.place (s : Demo T) (t : T) : LoopPc × Pc := (s.pc t, s.gSem.pc t)

/-- A producer that has incremented the counter, and has not yet incremented the
semaphore. -/
def Produced (x : LoopPc × Pc) : Prop :=
  x.1 = .produceUnlock true ∨ x.1 = .produceSignal ∨ x.2 = .signalLock ∨ x.2 = .signalTest

/-- A consumer that has decremented the semaphore, and has not yet decremented the
counter. -/
def Taken (x : LoopPc × Pc) : Prop :=
  x.2 = .waitUnlock ∨ x.1 = .consumeLock ∨ x.1 = .consumeTake

instance : DecidablePred Produced := fun _ => inferInstanceAs (Decidable (_ ∨ _))
instance : DecidablePred Taken := fun _ => inferInstanceAs (Decidable (_ ∨ _))

/-- How often a thread at `x` is counted. -/
def transit (x : LoopPc × Pc) : ℕ := (if Produced x then 1 else 0) + (if Taken x then 1 else 0)

/-- The number of threads that are between their two updates. -/
def Demo.inTransit [Fintype T] (s : Demo T) : ℕ := tally Produced s.place + tally Taken s.place

theorem DemoStep.inTransit [Fintype T] (h : DemoStep cap s l s') :
    s'.inTransit + transit (s.place l.actor) = s.inTransit + transit (s'.place l.actor) := by
  have hmove : ∀ (P : LoopPc × Pc → Prop) [DecidablePred P],
      (∀ pc, P (pc, .waitSleep) ↔ P (pc, .waitWoken)) →
      tally P s'.place + (if P (s.place l.actor) then 1 else 0)
        = tally P s.place + (if P (s'.place l.actor) then 1 else 0) := by
    intro P _ hP
    apply tally_move
    intro u hu
    obtain ⟨hpc, hsem⟩ := h.pc_of_ne hu
    unfold Demo.place
    rw [hpc]
    rcases hsem with heq | ⟨hold, hnew⟩
    · rw [heq]
    · rw [hold, hnew]
      exact hP _
  have hproduced := hmove Produced fun pc => by simp [Produced]
  have htaken := hmove Taken fun pc => by simp [Taken]
  unfold Demo.inTransit transit
  omega

/-- **The semaphore's side of the balance.**  A step of the semaphore that does not
refuse a signal changes the value by what its thread is counted less. -/
theorem Step.transit {s s' : Sys T} {l : Label T} {pc pc' : LoopPc} (h : Step s l s')
    (hlink : (s.pc l.actor).inside = pc.inside) (hfollow : pc.follow l = some pc')
    (hrefuse : ∀ t, l ≠ .refuse t) :
    s'.sem.value + Semaphore.transit (pc', s'.pc l.actor)
      = s.sem.value + Semaphore.transit (pc, s.pc l.actor) := by
  rw [h.value]
  cases h with
  | @lock t q howner hlocked =>
    cases hfollow
    cases hold : s.pc t <;> rw [hold] at hlocked <;> cases hlocked <;>
      simp [Label.actor, Label.gain, Sys.goto, hold, Semaphore.transit, Produced, Taken]
  | callWait hpc | callSignal hpc | waitReturn hpc | signalReturn hpc =>
    cases pc <;> cases hfollow
    simp [Label.actor, Label.gain, Sys.goto, hpc, Semaphore.transit, Produced, Taken]
  | sleep hpc | wake hpc =>
    cases hfollow
    simp [Label.actor, Label.gain, Sys.goto, hpc, Semaphore.transit, Produced, Taken]
  | take hpc =>
    cases hfollow
    simp only [Label.actor, hpc] at hlink
    obtain rfl := LoopPc.eq_waiting hlink.symm
    simp [Label.actor, Label.gain, Sys.goto, hpc, Semaphore.transit, Produced, Taken]
  | post hpc =>
    cases hfollow
    simp only [Label.actor, hpc] at hlink
    obtain rfl := LoopPc.eq_signalling hlink.symm
    simp [Label.actor, Label.gain, hpc, Semaphore.transit, Produced, Taken]
  | refuse => exact absurd rfl (hrefuse _)

omit [DecidableEq T] in
theorem Linked.idle (hs : Linked s) (h : (s.pc t).inside = none) : s.gSem.pc t = .idle := by
  have hlink := hs t
  rw [h] at hlink
  cases hpc : s.gSem.pc t <;> rw [hpc] at hlink <;> first | rfl | cases hlink

/-- The change of `g_counter`. -/
def DemoLabel.gain : DemoLabel T → Int
  | .produce _ => 1
  | .consume _ => -1
  | _ => 0

/-- **The balance of a step.**  Unless it refuses a signal, a step changes the value
and what its thread is counted together by the change of the counter. -/
theorem DemoStep.transit (h : DemoStep cap s l s') (hs : Linked s)
    (hrefuse : ∀ t, l ≠ .gSem (.refuse t)) :
    s'.gSem.sem.value + Semaphore.transit (s'.place l.actor)
      = s.gSem.sem.value + Semaphore.transit (s.place l.actor) + l.gain := by
  cases h with
  | @lock t pc _ hlocked =>
    have hidle := hs.idle (LoopPc.locked_inside hlocked).1
    cases hold : s.pc t <;> rw [hold] at hlocked <;> cases hlocked <;>
      simp [DemoLabel.actor, DemoLabel.gain, Demo.place, Demo.goto, hold, hidle,
        Semaphore.transit, Produced, Taken]
  | @unlock t pc hunlocked =>
    have hidle := hs.idle (LoopPc.unlocked_inside hunlocked).1
    rcases hold : s.pc t with _ | _ | (_ | _) | _ <;> rw [hold] at hunlocked <;>
      cases hunlocked <;>
      simp [DemoLabel.actor, DemoLabel.gain, Demo.place, Demo.goto, hold, hidle,
        Semaphore.transit, Produced, Taken]
  | @produce t hpc | @full t hpc | @consume t hpc =>
    have hidle : s.gSem.pc t = .idle := hs.idle (by rw [hpc]; rfl)
    simp [DemoLabel.actor, DemoLabel.gain, Demo.place, Demo.goto, hpc, hidle,
      Semaphore.transit, Produced, Taken]
  | @gSem l sys pc hstep hfollow =>
    have htransit := hstep.transit (hs l.actor) hfollow fun t h => hrefuse t (h ▸ rfl)
    simpa [DemoLabel.actor, DemoLabel.gain, Demo.place, Demo.goto] using htransit

/-! ## The invariant -/

section Invariant

variable [Fintype T]

/-- **The three-term invariant.**  The counter is the value of the semaphore plus the
threads that are between their two updates, and does not exceed the cap. -/
structure Balanced (cap : ℕ) (s : Demo T) : Prop where
  linked : Linked s
  counter_le : s.gCounter.toNat ≤ cap
  balance : (s.gCounter.toNat : Int) = s.gSem.sem.value + s.inTransit

omit [DecidableEq T] in
/-- **A signal finds the value below the cap**: the item of its thread is counted by the
counter, and not yet by the value. -/
theorem Balanced.room (hs : Balanced cap s) (hpc : s.gSem.pc t = .signalTest) :
    s.gSem.sem.value < cap := by
  have hpos : 0 < tally Produced s.place :=
    tally_pos (t := t) (Or.inr (Or.inr (Or.inr hpc)))
  have hbalance := hs.balance
  have hle := hs.counter_le
  unfold Demo.inTransit at hbalance
  omega

omit [DecidableEq T] in
/-- **A consumer finds the counter above zero**: the item it has waited for is counted. -/
theorem Balanced.pos (hs : Balanced cap s) (hlow : 0 ≤ s.gSem.sem.value)
    (hpc : s.pc t = .consumeTake) : 0 < s.gCounter.toNat := by
  have hpos : 0 < tally Taken s.place := tally_pos (t := t) (Or.inr (Or.inr hpc))
  have hbalance := hs.balance
  unfold Demo.inTransit at hbalance
  omega

/-- **The counter never wraps.** -/
theorem DemoStep.gCounter (h : DemoStep cap s l s') (hs : Balanced cap s) (hcap : cap < 2 ^ 31)
    (hlow : 0 ≤ s.gSem.sem.value) :
    (s'.gCounter.toNat : Int) = s.gCounter.toNat + l.gain ∧ s'.gCounter.toNat ≤ cap := by
  have hle := hs.counter_le
  cases h with
  | produce hpc hne =>
    have hlt : s.gCounter.toNat ≠ cap := fun heq => hne (by
      rw [← heq, BitVec.ofNat_toNat, BitVec.setWidth_eq])
    have hsum : (s.gCounter + 1).toNat = s.gCounter.toNat + 1 :=
      BitVec.toNat_add_of_lt (by show s.gCounter.toNat + 1 < 2 ^ 32; omega)
    simp only [hsum, DemoLabel.gain]
    omega
  | consume hpc =>
    have hpos := hs.pos hlow hpc
    have hdiff : (s.gCounter - 1).toNat = s.gCounter.toNat - 1 :=
      BitVec.toNat_sub_of_le (BitVec.le_def.2 hpos)
    simp only [hdiff, DemoLabel.gain]
    omega
  | _ => exact ⟨(Int.add_zero _).symm, hle⟩

/-- **Every step keeps the invariant.** -/
theorem DemoStep.balanced (h : DemoStep cap s l s') (hs : Balanced cap s) (hcap : cap < 2 ^ 31)
    (hlow : 0 ≤ s.gSem.sem.value) (hmax : s.gSem.sem.valueMax = cap) : Balanced cap s' := by
  have hrefuse : ∀ t, l ≠ .gSem (.refuse t) := by
    rintro t rfl
    cases h with
    | gSem hstep _ =>
      cases hstep with
      | refuse hpc hsec =>
        have hfull := (signalSection_eq_refuse.1 hsec).1
        have hroom := hs.room hpc
        omega
  obtain ⟨hcounter, hle⟩ := h.gCounter hs hcap hlow
  have htransit := h.transit hs.linked hrefuse
  have hinTransit := h.inTransit
  have hbalance := hs.balance
  exact ⟨h.linked hs.linked, hle, by omega⟩

/-- **No signal has failed** when it is about to return. -/
def Succeeding (s : Demo T) : Prop := ∀ t result, s.gSem.pc t = .signalUnlock result → result = 0

theorem DemoStep.succeeding (h : DemoStep cap s l s') (hs : Balanced cap s)
    (hmax : s.gSem.sem.valueMax = cap) (hok : Succeeding s) : Succeeding s' := by
  intro u result hpc
  rcases eq_or_ne u l.actor with rfl | hu
  · cases h with
    | gSem hstep _ =>
      obtain ⟨htest, ⟨hresult, -⟩ | ⟨-, hfull, -⟩⟩ := hstep.signalUnlock hpc
      · exact hresult
      · have hroom := hs.room htest
        omega
    | _ => exact hok _ _ hpc
  · rcases (h.pc_of_ne hu).2 with heq | ⟨-, hnew⟩
    · rw [heq] at hpc
      exact hok _ _ hpc
    · rw [hnew] at hpc
      cases hpc

omit [DecidableEq T] in
theorem Balanced.initial : Balanced cap (Demo.initial ⟨0, cap⟩ isProducer) := by
  have hplace : ∀ t, (Demo.initial ⟨0, cap⟩ isProducer).place t = (.produceLock, .idle) ∨
      (Demo.initial ⟨0, cap⟩ isProducer).place t = (.consumeWait, .idle) := by
    intro t
    cases hrole : isProducer t
    · exact Or.inr (by simp [Demo.place, Demo.initial, Sys.initial, hrole])
    · exact Or.inl (by simp [Demo.place, Demo.initial, Sys.initial, hrole])
  have hproduced : tally Produced (Demo.initial ⟨0, cap⟩ isProducer).place = 0 :=
    tally_eq_zero fun t => by rcases hplace t with h | h <;> rw [h] <;> decide
  have htaken : tally Taken (Demo.initial ⟨0, cap⟩ isProducer).place = 0 :=
    tally_eq_zero fun t => by rcases hplace t with h | h <;> rw [h] <;> decide
  refine ⟨fun t => ?_, Nat.zero_le _, ?_⟩
  · show _ = ((Demo.initial ⟨0, cap⟩ isProducer).place t).1.inside
    rcases hplace t with h | h <;> rw [h] <;> rfl
  · unfold Demo.inTransit
    rw [hproduced, htaken]
    rfl

/-- The invariant holds along every run, and every signal that has returned has
succeeded. -/
theorem DemoRun.balanced (hcap : cap < 2 ^ 31)
    (h : Run (DemoStep cap) (Demo.initial ⟨0, cap⟩ isProducer) ls s) :
    Balanced cap s ∧ Succeeding s ∧
      ∀ t result, .gSem (.signalReturn t result) ∈ ls → result = 0 := by
  induction h with
  | nil => exact ⟨.initial, fun _ _ h => Pc.noConfusion h, fun _ _ h => absurd h List.not_mem_nil⟩
  | @snoc ls m m' l hrun hs ih =>
    obtain ⟨hbalanced, hok, hreturned⟩ := ih
    have hsem := DemoRun.gSem hrun
    obtain ⟨hlow, -⟩ := Run.bounds hsem le_rfl (Int.natCast_nonneg cap)
    have hmax : m.gSem.sem.valueMax = cap := Run.valueMax hsem
    refine ⟨hs.balanced hbalanced hcap hlow hmax, hs.succeeding hbalanced hmax hok,
      fun t result hmem => ?_⟩
    rcases List.mem_append.1 hmem with hmem | hmem
    · exact hreturned t result hmem
    · obtain rfl := List.mem_singleton.1 hmem
      cases hs with
      | gSem hstep _ =>
        cases hstep with
        | signalReturn hpc => exact hok t result hpc

end Invariant

/-- **Producers and consumers stay within the cap.**  Along every run of any number of
producers and consumers, the counter is the value of the semaphore, plus the producers
between their increment and the one of their signal, plus the consumers between the
decrement of their wait and their own.  So the counter stays within the cap, its
decrement does not wrap, and no signal returns `ERANGE`. -/
theorem producer_consumer_bounded [Fintype T] {pSem : Option PthreadSem}
    {mutexInit condInit : Int}
    (hinit : pthreadSemInit pSem 0 cap mutexInit condInit = (0, some sem)) (hcap : IsInt cap)
    (h : Run (DemoStep cap) (Demo.initial sem isProducer) ls s) :
    (s.gCounter.toNat : Int)
      = s.gSem.sem.value + tally Produced s.place + tally Taken s.place ∧
    s.gCounter.toNat ≤ cap ∧
    (∀ t, s.pc t = .consumeTake → (s.gCounter - 1).toNat + 1 = s.gCounter.toNat) ∧
    ∀ t result, .gSem (.signalReturn t result) ∈ ls → result ≠ ERANGE := by
  obtain ⟨-, -, -, -, -, rfl⟩ := pthreadSemInit_eq_zero.1 hinit
  have hlt : cap < 2 ^ 31 := by
    have := hcap.2
    omega
  obtain ⟨hbalanced, -, hreturned⟩ := DemoRun.balanced hlt h
  obtain ⟨hlow, -⟩ := Run.bounds (DemoRun.gSem h) le_rfl (Int.natCast_nonneg cap)
  refine ⟨?_, hbalanced.counter_le, fun t hpc => ?_, fun t result hmem => ?_⟩
  · have hbalance := hbalanced.balance
    unfold Demo.inTransit at hbalance
    omega
  · have hpos := hbalanced.pos hlow hpc
    have hdiff : (s.gCounter - 1).toNat = s.gCounter.toNat - 1 :=
      BitVec.toNat_sub_of_le (BitVec.le_def.2 hpos)
    omega
  · rw [hreturned t result hmem]
    decide

/-- The cap of the source, and the first item produced. -/
theorem producer_consumer_first : ∃ (ls : List (DemoLabel Bool)) (s : Demo Bool),
    Run (DemoStep 1000) (Demo.initial ⟨0, 1000⟩ id) ls s ∧ s.gCounter = 1 ∧
      (1 : Int) = s.gSem.sem.value + tally Produced s.place + tally Taken s.place := by
  have hinit : pthreadSemInit (some ⟨0, 0⟩) 0 (1000 : ℕ) 0 0 = (0, some ⟨0, 1000⟩) := rfl
  have hlock : Run (DemoStep 1000) (Demo.initial ⟨0, 1000⟩ id) [.lock true] _ :=
    Run.single (.lock rfl rfl)
  have hproduce := hlock.snoc (.produce (t := true) rfl (by decide))
  have hunlock := hproduce.snoc (.unlock (t := true) rfl)
  obtain ⟨hbalance, -⟩ := producer_consumer_bounded hinit ⟨by decide, by decide⟩ hunlock
  exact ⟨_, _, hunlock, rfl, hbalance⟩

end Refcode.Semaphore
