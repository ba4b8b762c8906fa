import Refcode.Semaphore.ProducerConsumer
import Refcode.Semaphore.Progress

/-!
# The test program

`main` of `pthread_semaphore.c` with its consumer and its two producers, up to the last
`pthread_join`.  Until `g_done` is set the threads go round their loops; then they leave
them, each at its own test, and `main` signals the semaphore twice more.

* `ProgramStep` — the program.
* `Placed`, `Program.Linked`, `Program.Guarded` — where the threads can be.
* `ProgramRun.demo` — as long as `g_done` is not set, the program is its loops.
* `program_counter` — the counter, in every state of every run.
-/

namespace Refcode.Semaphore

open Refcode.Lib

/-! ## The program -/

/-- `main` and the threads it creates. -/
inductive Thread where
  | main
  | consumer
  | producer (second : Bool)
  deriving DecidableEq, Fintype

/-- Where a thread is. -/
inductive ProgPc where
  /-- A producer about to test `g_done`. -/
  | top
  /-- A producer or a consumer in its loop. -/
  | loop (pc : LoopPc)
  /-- The consumer, back from `pthread_sem_wait` and about to test `g_done`. -/
  | check
  /-- `main` in `getchar`, about to set `g_done`. -/
  | input
  /-- `main` about to call `pthread_sem_signal`, for the second time if `again`. -/
  | call (again : Bool)
  /-- `main` in `pthread_sem_signal`. -/
  | inCall (again : Bool)
  /-- `main` in `pthread_join`. -/
  | join (t : Thread)
  /-- Returned. -/
  | finished
  deriving DecidableEq

namespace ProgPc

/-- Where a thread goes when it gets `g_lock`. -/
def locked : ProgPc → Option ProgPc
  | .loop pc => pc.locked.map .loop
  | _ => none

/-- Where a thread goes when it gives `g_lock` back. -/
def unlocked : ProgPc → Option ProgPc
  | .loop (.produceUnlock false) => some .top
  | .loop pc => pc.unlocked.map .loop
  | _ => none

/-- Where a thread goes when it tests `g_done`. -/
def tested (done : Bool) : ProgPc → Option ProgPc
  | .top => some (if done then .finished else .loop .produceLock)
  | .check => some (if done then .finished else .loop .consumeLock)
  | _ => none

/-- Where `main` goes when it has joined a thread. -/
def joined : Thread → Option ProgPc
  | .consumer => some (.join (.producer false))
  | .producer false => some (.call true)
  | .producer true => some .finished
  | .main => none

/-- Where a step of the semaphore takes the thread. -/
def follow {T : Type*} : Label T → ProgPc → Option ProgPc
  | .callSignal _, .loop .produceSignal => some (.loop .signalling)
  | .signalReturn _ _, .loop .signalling => some .top
  | .callWait _, .loop .consumeWait => some (.loop .waiting)
  | .waitReturn _, .loop .waiting => some .check
  | .callSignal _, .call again => some (.inCall again)
  | .signalReturn _ _, .inCall false => some (.join .consumer)
  | .signalReturn _ _, .inCall true => some (.join (.producer true))
  | .callSignal _, _ | .signalReturn _ _, _ | .callWait _, _ | .waitReturn _, _ => none
  | _, pc => some pc

end ProgPc

/-- What happens. -/
inductive ProgLabel where
  | lock (t : Thread)
  | produce (t : Thread)
  | full (t : Thread)
  | consume (t : Thread)
  | unlock (t : Thread)
  /-- `g_done` is tested. -/
  | test (t : Thread)
  /-- `getchar` returns, and `main` sets `g_done`. -/
  | quit
  /-- `main` has joined `t`. -/
  | join (t : Thread)
  | gSem (l : Label Thread)

/-- The thread that does it. -/
def ProgLabel.actor : ProgLabel → Thread
  | .lock t | .produce t | .full t | .consume t | .unlock t | .test t => t
  | .quit | .join _ => .main
  | .gSem l => l.actor

/-- The global variables and the threads. -/
structure Program where
  gSem : Sys Thread
  gCounter : BitVec 32
  gLock : Option Thread
  gDone : Bool
  pc : Thread → ProgPc

def Program.goto (s : Program) (t : Thread) (pc : ProgPc) : Program :=
  { s with pc := Function.update s.pc t pc }

/-- One step of one thread, with `cap` for the `1000` of the source. -/
inductive ProgramStep (cap : ℕ) : Program → ProgLabel → Program → Prop
  | lock {s : Program} {t : Thread} {pc : ProgPc} : s.gLock = none → (s.pc t).locked = some pc →
      ProgramStep cap s (.lock t) { s.goto t pc with gLock := some t }
  | produce {s : Program} {t : Thread} : s.pc t = .loop .produceTest →
      s.gCounter ≠ BitVec.ofNat 32 cap →
      ProgramStep cap s (.produce t)
        { s.goto t (.loop (.produceUnlock true)) with gCounter := s.gCounter + 1 }
  | full {s : Program} {t : Thread} : s.pc t = .loop .produceTest →
      s.gCounter = BitVec.ofNat 32 cap →
      ProgramStep cap s (.full t) (s.goto t (.loop (.produceUnlock false)))
  | consume {s : Program} {t : Thread} : s.pc t = .loop .consumeTake →
      ProgramStep cap s (.consume t)
        { s.goto t (.loop .consumeUnlock) with gCounter := s.gCounter - 1 }
  | unlock {s : Program} {t : Thread} {pc : ProgPc} : (s.pc t).unlocked = some pc →
      ProgramStep cap s (.unlock t) { s.goto t pc with gLock := none }
  | test {s : Program} {t : Thread} {pc : ProgPc} : (s.pc t).tested s.gDone = some pc →
      ProgramStep cap s (.test t) (s.goto t pc)
  | quit {s : Program} : s.pc .main = .input →
      ProgramStep cap s .quit { s.goto .main (.call false) with gDone := true }
  | join {s : Program} {t : Thread} {pc : ProgPc} : s.pc .main = .join t → s.pc t = .finished →
      ProgPc.joined t = some pc → ProgramStep cap s (.join t) (s.goto .main pc)
  | gSem {s : Program} {l : Label Thread} {sys : Sys Thread} {pc : ProgPc} : Step s.gSem l sys →
      (s.pc l.actor).follow l = some pc →
      ProgramStep cap s (.gSem l) { s.goto l.actor pc with gSem := sys }

/-- The threads have been created, and `main` waits for a key. -/
def Program.initial (sem : PthreadSem) : Program where
  gSem := Sys.initial sem
  gCounter := 0
  gLock := none
  gDone := false
  pc
    | .main => .input
    | .consumer => .loop .consumeWait
    | .producer _ => .top

variable {cap : ℕ} {sem : PthreadSem} {s s' : Program} {ls : List ProgLabel} {l : ProgLabel}
  {t : Thread} {pc pc' : ProgPc}

/-- The other threads stay where they are, or are woken. -/
theorem ProgramStep.pc_of_ne (h : ProgramStep cap s l s') {u : Thread} (hu : u ≠ l.actor) :
    s'.pc u = s.pc u ∧ (s'.gSem.pc u = s.gSem.pc u ∨
      s.gSem.pc u = .waitSleep ∧ s'.gSem.pc u = .waitWoken) := by
  cases h with
  | gSem hstep _ => exact ⟨Function.update_of_ne hu _ _, hstep.pc_of_ne hu⟩
  | _ => exact ⟨Function.update_of_ne hu _ _, Or.inl rfl⟩

@[simp] theorem Program.goto_pc (pc : ProgPc) : (s.goto t pc).pc t = pc := Function.update_self ..

@[simp] theorem Program.goto_gDone (pc : ProgPc) : (s.goto t pc).gDone = s.gDone := rfl

@[simp] theorem Program.goto_gSem (pc : ProgPc) : (s.goto t pc).gSem = s.gSem := rfl

@[simp] theorem Program.goto_gCounter (pc : ProgPc) : (s.goto t pc).gCounter = s.gCounter := rfl

@[simp] theorem Program.goto_gLock (pc : ProgPc) : (s.goto t pc).gLock = s.gLock := rfl

/-- What the semaphore sees of a step. -/
def ProgLabel.sees : ProgLabel → Option (Label Thread)
  | .gSem l => some l
  | _ => none

/-- **A run of the program is a run of the semaphore.** -/
theorem ProgramRun.gSem (h : Run (ProgramStep cap) (Program.initial sem) ls s) :
    Run Step (Sys.initial sem) (ls.filterMap ProgLabel.sees) s.gSem := by
  let R : Program → Sys Thread → Prop := fun s sys => s.gSem = sys
  have hinit : R (Program.initial sem) (Sys.initial sem) := rfl
  have hsee : ∀ {x : Program} {sys : Sys Thread} {l : ProgLabel} {y : Program}
      {m : Label Thread}, R x sys → ProgramStep cap x l y → l.sees = some m →
        ∃ sys', Step sys m sys' ∧ R y sys' := by
    rintro x _ l y m rfl hs hm
    cases hs with
    | gSem hstep _ =>
      cases hm
      exact ⟨_, hstep, rfl⟩
    | _ => cases hm
  have hskip : ∀ {x : Program} {sys : Sys Thread} {l : ProgLabel} {y : Program},
      R x sys → ProgramStep cap x l y → l.sees = none → R y sys := by
    rintro x _ l y rfl hs hm
    cases hs with
    | gSem => cases hm
    | _ => rfl
  obtain ⟨sys, hrun, rfl⟩ := h.projects hinit hsee hskip
  exact hrun

/-! ## Where the threads can be -/

/-- The places of a producer's loop. -/
def LoopPc.produces : LoopPc → Bool
  | .produceLock | .produceTest | .produceUnlock _ | .produceSignal | .signalling => true
  | .consumeWait | .waiting | .consumeLock | .consumeTake | .consumeUnlock => false

/-- The places of a thread, before and after `g_done` is set. -/
def Thread.mayBeAt (done : Bool) : Thread → ProgPc → Bool
  | .main, .input => !done
  | .main, .call _ | .main, .inCall _ | .main, .finished => done
  | .main, .join t => done && t ≠ .main
  | .consumer, .loop pc => !pc.produces
  | .consumer, .check => true
  | .producer _, .loop pc => pc.produces
  | .producer _, .top => true
  | .consumer, .finished | .producer _, .finished => done
  | _, _ => false

/-- Every thread is at one of its places. -/
def Placed (s : Program) : Prop := ∀ t : Thread, t.mayBeAt s.gDone (s.pc t) = true

theorem mayBeAt_locked {done : Bool} (h : pc.locked = some pc')
    (hpc : t.mayBeAt done pc = true) : t.mayBeAt done pc' = true := by
  rcases pc with _ | pc | _ <;> try cases h
  cases pc <;> cases h <;> cases t <;> exact hpc

theorem mayBeAt_unlocked {done : Bool} (h : pc.unlocked = some pc')
    (hpc : t.mayBeAt done pc = true) : t.mayBeAt done pc' = true := by
  rcases pc with _ | pc | _ <;> try cases h
  rcases pc with _ | _ | (_ | _) | _ <;> cases h <;> cases t <;> first | rfl | exact hpc

theorem mayBeAt_tested {done : Bool} (h : pc.tested done = some pc')
    (hpc : t.mayBeAt done pc = true) : t.mayBeAt done pc' = true := by
  cases pc <;> cases h <;> cases t <;> cases hpc <;> cases done <;> rfl

theorem mayBeAt_follow {T : Type*} {l : Label T} {done : Bool} (h : pc.follow l = some pc')
    (hpc : t.mayBeAt done pc = true) : t.mayBeAt done pc' = true := by
  cases l with
  | callWait | callSignal | waitReturn | signalReturn =>
    rcases pc with _ | pc | _ | _ | _ | (_ | _) | _ | _ <;> try cases h
    case loop =>
      cases pc <;> cases h
      all_goals cases t <;> exact hpc
    all_goals
      cases t <;> cases hpc
      rfl
  | _ =>
    cases h
    exact hpc

/-- Setting `g_done` takes no place away from the other threads. -/
theorem mayBeAt_done {done : Bool} (ht : t ≠ .main) (hpc : t.mayBeAt done pc = true) :
    t.mayBeAt true pc = true := by
  cases t with
  | main => exact absurd rfl ht
  | consumer | producer => cases pc <;> first | rfl | exact hpc

/-- **Every step keeps the threads at their places.** -/
theorem ProgramStep.placed (h : ProgramStep cap s l s') (hs : Placed s) : Placed s' := by
  intro u
  rcases eq_or_ne u l.actor with rfl | hu
  · have hact := hs l.actor
    cases h with
    | lock _ hlocked => simpa [ProgLabel.actor] using mayBeAt_locked hlocked hact
    | unlock hunlocked => simpa [ProgLabel.actor] using mayBeAt_unlocked hunlocked hact
    | test htested => simpa [ProgLabel.actor] using mayBeAt_tested htested hact
    | gSem hstep hfollow => simpa [ProgLabel.actor] using mayBeAt_follow hfollow hact
    | @produce t hpc | @full t hpc | @consume t hpc =>
      simp only [ProgLabel.actor, hpc, Program.goto_pc] at hact ⊢
      cases t <;> exact hact
    | quit => simp [ProgLabel.actor, Thread.mayBeAt]
    | @join t pc hpc _ hjoined =>
      simp only [ProgLabel.actor, hpc] at hact
      rcases t with _ | _ | (_ | _) <;> cases hjoined <;>
        simpa [ProgLabel.actor, Thread.mayBeAt] using hact
  · rw [(h.pc_of_ne hu).1]
    cases h with
    | quit => exact mayBeAt_done hu (hs u)
    | _ => exact hs u

theorem ProgramRun.placed (h : Run (ProgramStep cap) (Program.initial sem) ls s) : Placed s := by
  have hinit : Placed (Program.initial sem) := by
    intro t
    cases t <;> rfl
  apply h.preserves hinit
  intro x l y hx hs
  exact hs.placed hx

/-! ## The calls of the semaphore -/

/-- The function of the semaphore a thread has called. -/
def ProgPc.inside : ProgPc → Option Fn
  | .loop pc => pc.inside
  | .inCall _ => some .signal
  | _ => none

/-- Every thread is in the function that it has called. -/
def Program.Linked (s : Program) : Prop := ∀ t, (s.gSem.pc t).inside = (s.pc t).inside

theorem ProgPc.locked_inside (h : pc.locked = some pc') : pc.inside = none ∧ pc'.inside = none := by
  rcases pc with _ | pc | _ <;> try cases h
  cases pc <;> cases h <;> exact ⟨rfl, rfl⟩

theorem ProgPc.unlocked_inside (h : pc.unlocked = some pc') :
    pc.inside = none ∧ pc'.inside = none := by
  rcases pc with _ | pc | _ <;> try cases h
  rcases pc with _ | _ | (_ | _) | _ <;> cases h <;> exact ⟨rfl, rfl⟩

theorem ProgPc.tested_inside {done : Bool} (h : pc.tested done = some pc') :
    pc.inside = none ∧ pc'.inside = none := by
  cases pc <;> cases h <;> cases done <;> exact ⟨rfl, rfl⟩

theorem ProgPc.joined_inside (h : ProgPc.joined t = some pc) : pc.inside = none := by
  rcases t with _ | _ | (_ | _) <;> cases h <;> rfl

/-- The thread of a step of the semaphore is still in the function it has called. -/
theorem Step.prog_inside {T : Type*} [DecidableEq T] {s s' : Sys T} {l : Label T}
    (h : Step s l s') (hlink : (s.pc l.actor).inside = pc.inside)
    (hfollow : pc.follow l = some pc') : (s'.pc l.actor).inside = pc'.inside := by
  cases h with
  | @lock t q howner hlocked =>
    cases hfollow
    rw [← hlink]
    simpa [Label.actor, Sys.goto] using Pc.locked_inside hlocked
  | callWait hpc | callSignal hpc | waitReturn hpc | signalReturn hpc =>
    rcases pc with _ | pc | _ | _ | _ | (_ | _) | _ | _ <;> try cases hfollow
    case loop =>
      cases pc <;> cases hfollow
      simp [Label.actor, Sys.goto, Pc.inside, ProgPc.inside, LoopPc.inside]
    all_goals simp [Label.actor, Sys.goto, Pc.inside, ProgPc.inside]
  | take hpc | sleep hpc | wake hpc | post hpc | refuse hpc =>
    cases hfollow
    rw [← hlink]
    simp [Label.actor, Sys.goto, hpc, Pc.inside]

theorem ProgramStep.linked (h : ProgramStep cap s l s') (hs : s.Linked) : s'.Linked := by
  intro u
  rcases eq_or_ne u l.actor with rfl | hu
  · have hact := hs l.actor
    cases h with
    | lock _ hlocked =>
      obtain ⟨hold, hnew⟩ := ProgPc.locked_inside hlocked
      simpa [ProgLabel.actor, hold, hnew] using hact
    | unlock hunlocked =>
      obtain ⟨hold, hnew⟩ := ProgPc.unlocked_inside hunlocked
      simpa [ProgLabel.actor, hold, hnew] using hact
    | test htested =>
      obtain ⟨hold, hnew⟩ := ProgPc.tested_inside htested
      simpa [ProgLabel.actor, hold, hnew] using hact
    | produce hpc | full hpc | consume hpc | quit hpc =>
      simpa [ProgLabel.actor, hpc, ProgPc.inside, LoopPc.inside] using hact
    | join hpc _ hjoined =>
      have hnew := ProgPc.joined_inside hjoined
      simp only [ProgLabel.actor, hpc, ProgPc.inside] at hact
      simpa [ProgLabel.actor, hnew] using hact
    | gSem hstep hfollow =>
      simpa [ProgLabel.actor] using hstep.prog_inside hact hfollow
  · obtain ⟨hpc, hsem⟩ := h.pc_of_ne hu
    rw [hpc, ← hs u]
    rcases hsem with heq | ⟨hold, hnew⟩
    · rw [heq]
    · rw [hold, hnew]
      rfl

theorem ProgramRun.linked (h : Run (ProgramStep cap) (Program.initial sem) ls s) : s.Linked := by
  have hinit : (Program.initial sem).Linked := by
    intro t
    cases t <;> rfl
  apply h.preserves hinit
  intro x l y hx hs
  exact hs.linked hx

/-! ## `g_lock` -/

/-- The places of a loop where a thread holds `g_lock`. -/
def LoopPc.holds : LoopPc → Bool
  | .produceTest | .produceUnlock _ | .consumeTake | .consumeUnlock => true
  | _ => false

def ProgPc.holds : ProgPc → Bool
  | .loop pc => pc.holds
  | _ => false

/-- `g_lock` is held by the thread between taking it and giving it back, and by no
other. -/
def Program.Guarded (s : Program) : Prop := Guards (fun t => (s.pc t).holds = true) s.gLock

theorem ProgPc.locked_holds (h : pc.locked = some pc') : pc'.holds = true := by
  rcases pc with _ | pc | _ <;> try cases h
  cases pc <;> cases h <;> rfl

theorem ProgPc.unlocked_holds (h : pc.unlocked = some pc') :
    pc.holds = true ∧ pc'.holds = false := by
  rcases pc with _ | pc | _ <;> try cases h
  rcases pc with _ | _ | (_ | _) | _ <;> cases h <;> exact ⟨rfl, rfl⟩

theorem ProgPc.tested_holds {done : Bool} (h : pc.tested done = some pc') :
    pc'.holds = pc.holds := by
  cases pc <;> cases h <;> cases done <;> rfl

theorem ProgPc.joined_holds (h : ProgPc.joined t = some pc) : pc.holds = false := by
  rcases t with _ | _ | (_ | _) <;> cases h <;> rfl

theorem ProgPc.follow_holds {T : Type*} {l : Label T} (h : pc.follow l = some pc') :
    pc'.holds = pc.holds := by
  cases l with
  | callWait | callSignal | waitReturn | signalReturn =>
    rcases pc with _ | pc | _ | _ | _ | (_ | _) | _ | _ <;> try cases h
    case loop =>
      cases pc <;> cases h
      rfl
    all_goals rfl
  | _ =>
    cases h
    rfl

theorem ProgramStep.guarded (h : ProgramStep cap s l s') (hs : s.Guarded) : s'.Guarded := by
  refine Guards.move hs (t := l.actor) (fun u hu => by rw [(h.pc_of_ne hu).1]) ?_
  cases h with
  | lock hfree hlocked =>
    refine Or.inl ⟨hfree, rfl, ?_⟩
    simpa [ProgLabel.actor] using ProgPc.locked_holds hlocked
  | unlock hunlocked =>
    obtain ⟨hold, hnew⟩ := ProgPc.unlocked_holds hunlocked
    refine Or.inr (Or.inr ⟨hold, rfl, ?_⟩)
    simpa [ProgLabel.actor] using hnew
  | test htested =>
    refine Or.inr (Or.inl ⟨rfl, ?_⟩)
    simp [ProgLabel.actor, ProgPc.tested_holds htested]
  | gSem hstep hfollow =>
    refine Or.inr (Or.inl ⟨rfl, ?_⟩)
    simp [ProgLabel.actor, ProgPc.follow_holds hfollow]
  | join hpc _ hjoined =>
    refine Or.inr (Or.inl ⟨rfl, ?_⟩)
    simp only [ProgLabel.actor, Program.goto_pc, hpc, ProgPc.joined_holds hjoined]
    rfl
  | produce hpc | full hpc | consume hpc | quit hpc =>
    refine Or.inr (Or.inl ⟨rfl, ?_⟩)
    simp [ProgLabel.actor, hpc, ProgPc.holds, LoopPc.holds]

theorem ProgramRun.guarded (h : Run (ProgramStep cap) (Program.initial sem) ls s) :
    s.Guarded := by
  have hinit : (Program.initial sem).Guarded := by
    intro t
    cases t <;> simp [Program.initial, ProgPc.holds, LoopPc.holds]
  apply h.preserves hinit
  intro x l y hx hs
  exact hs.guarded hx

/-! ## Until `g_done` is set -/

/-- Where a thread is in its loop, as long as `g_done` is not set; `main` stays where a
producer starts. -/
def ProgPc.inLoop : ProgPc → LoopPc
  | .loop pc => pc
  | .check => .consumeLock
  | _ => .produceLock

/-- The loops of the program. -/
def Program.demo (s : Program) : Demo Thread :=
  ⟨s.gSem, s.gCounter, s.gLock, fun t => (s.pc t).inLoop⟩

/-- The threads that start like a producer. -/
def Thread.isProducer : Thread → Bool
  | .consumer => false
  | _ => true

theorem Program.demo_goto (pc : ProgPc) : (s.goto t pc).demo = s.demo.goto t pc.inLoop := by
  unfold Program.demo Program.goto Demo.goto
  congr 1
  funext u
  rcases eq_or_ne u t with rfl | hu
  · simp
  · simp [hu]

theorem Program.demo_goto_loop (pc : LoopPc) : (s.goto t (.loop pc)).demo = s.demo.goto t pc :=
  Program.demo_goto (.loop pc)

theorem ProgPc.locked_inLoop (h : pc.locked = some pc') :
    pc.inLoop.locked = some pc'.inLoop := by
  rcases pc with _ | pc | _ <;> try cases h
  cases pc <;> cases h <;> rfl

theorem ProgPc.unlocked_inLoop (h : pc.unlocked = some pc') :
    pc.inLoop.unlocked = some pc'.inLoop := by
  rcases pc with _ | pc | _ <;> try cases h
  rcases pc with _ | _ | (_ | _) | _ <;> cases h <;> rfl

theorem ProgPc.tested_inLoop (h : pc.tested false = some pc') : pc'.inLoop = pc.inLoop := by
  cases pc <;> cases h <;> rfl

/-- Before `g_done` is set, no thread is in the last part of `main`. -/
theorem ProgPc.follow_inLoop {T : Type*} {l : Label T} (h : pc.follow l = some pc')
    (hpc : t.mayBeAt false pc = true) : pc.inLoop.follow l = some pc'.inLoop := by
  cases l with
  | callWait | callSignal | waitReturn | signalReturn =>
    rcases pc with _ | pc | _ | _ | _ | (_ | _) | _ | _ <;> try cases h
    case loop =>
      cases pc <;> cases h
      rfl
    all_goals cases t <;> cases hpc
  | _ =>
    cases h
    rfl

/-- What the loops see of a step. -/
def ProgLabel.move : ProgLabel → Option (DemoLabel Thread)
  | .lock t => some (.lock t)
  | .produce t => some (.produce t)
  | .full t => some (.full t)
  | .consume t => some (.consume t)
  | .unlock t => some (.unlock t)
  | .gSem l => some (.gSem l)
  | .test _ | .quit | .join _ => none

/-- **A step that leaves `g_done` unset is one of the loops**, or a test of `g_done`. -/
theorem ProgramStep.demo (h : ProgramStep cap s l s') (hplaced : Placed s)
    (hdone : s'.gDone = false) :
    l.move = none ∧ s'.demo = s.demo ∨
      ∃ m, l.move = some m ∧ DemoStep cap s.demo m s'.demo := by
  cases h with
  | @lock t pc hfree hlocked =>
    have hstep : DemoStep cap s.demo (.lock t) _ := .lock hfree (ProgPc.locked_inLoop hlocked)
    rw [← Program.demo_goto] at hstep
    exact Or.inr ⟨_, rfl, hstep⟩
  | @unlock t pc hunlocked =>
    have hstep : DemoStep cap s.demo (.unlock t) _ := .unlock (ProgPc.unlocked_inLoop hunlocked)
    rw [← Program.demo_goto] at hstep
    exact Or.inr ⟨_, rfl, hstep⟩
  | @produce t hpc hne =>
    have hstep : DemoStep cap s.demo (.produce t) _ := .produce (congrArg ProgPc.inLoop hpc) hne
    rw [← Program.demo_goto_loop] at hstep
    exact Or.inr ⟨_, rfl, hstep⟩
  | @full t hpc heq =>
    have hstep : DemoStep cap s.demo (.full t) _ := .full (congrArg ProgPc.inLoop hpc) heq
    rw [← Program.demo_goto_loop] at hstep
    exact Or.inr ⟨_, rfl, hstep⟩
  | @consume t hpc =>
    have hstep : DemoStep cap s.demo (.consume t) _ := .consume (congrArg ProgPc.inLoop hpc)
    rw [← Program.demo_goto_loop] at hstep
    exact Or.inr ⟨_, rfl, hstep⟩
  | @test t pc htested =>
    have hundone : s.gDone = false := hdone
    rw [hundone] at htested
    refine Or.inl ⟨rfl, ?_⟩
    rw [Program.demo_goto, ProgPc.tested_inLoop htested]
    simp [Demo.goto, Program.demo]
  | quit => cases hdone
  | @join t pc hpc =>
    have hundone : s.gDone = false := hdone
    have hmain := hplaced .main
    simp [hpc, hundone, Thread.mayBeAt] at hmain
  | @gSem l sys pc hstep hfollow =>
    have hundone : s.gDone = false := hdone
    have hact := hplaced l.actor
    rw [hundone] at hact
    have hloop : DemoStep cap s.demo (.gSem l) _ :=
      .gSem hstep (ProgPc.follow_inLoop hfollow hact)
    rw [← Program.demo_goto] at hloop
    exact Or.inr ⟨_, rfl, hloop⟩

/-- `g_done` is never reset. -/
theorem ProgramStep.gDone (h : ProgramStep cap s l s') (hdone : s'.gDone = false) :
    s.gDone = false := by
  cases h with
  | quit => cases hdone
  | _ => exact hdone

/-- **As long as `g_done` is not set, the program is its loops.** -/
theorem ProgramRun.demo (h : Run (ProgramStep cap) (Program.initial sem) ls s)
    (hdone : s.gDone = false) :
    Run (DemoStep cap) (Demo.initial sem Thread.isProducer) (ls.filterMap ProgLabel.move)
      s.demo := by
  induction h with
  | nil =>
    have hinit : (Program.initial sem).demo = Demo.initial sem Thread.isProducer := by
      unfold Program.demo Program.initial Demo.initial
      congr 1
      funext t
      cases t <;> rfl
    rw [hinit]
    exact .nil
  | @snoc ls m m' l hrun hs ih =>
    have hbefore := ih (hs.gDone hdone)
    rw [List.filterMap_append]
    rcases hs.demo (ProgramRun.placed hrun) hdone with ⟨hmove, heq⟩ | ⟨move, hmove, hstep⟩
    · simpa [hmove, heq] using hbefore
    · simpa [hmove] using hbefore.snoc hstep

theorem ProgramRun.balanced (hcap : cap < 2 ^ 31)
    (h : Run (ProgramStep cap) (Program.initial ⟨0, cap⟩) ls s) (hdone : s.gDone = false) :
    Balanced cap s.demo ∧ ∀ t result, .gSem (.signalReturn t result) ∈ ls → result = 0 := by
  obtain ⟨hbalanced, -, hreturned⟩ := DemoRun.balanced hcap (ProgramRun.demo h hdone)
  refine ⟨hbalanced, fun t result hmem => hreturned t result ?_⟩
  exact List.mem_filterMap.2 ⟨_, hmem, rfl⟩

/-! ## The counter -/

/-- The consumer has tested `g_done`, and is about to decrement the counter. -/
def ProgPc.takes : ProgPc → Bool
  | .loop .consumeLock | .loop .consumeTake => true
  | _ => false

/-- **What is left of the balance once `g_done` is set**: the counter is within the cap,
and holds the item that the consumer is about to take. -/
structure Stocked (cap : ℕ) (s : Program) : Prop where
  counter_le : s.gCounter.toNat ≤ cap
  item : (s.pc .consumer).takes = true → 0 < s.gCounter.toNat

/-- As long as the loops are balanced, the consumer finds the counter above zero. -/
theorem Balanced.item (h : Balanced cap s.demo) (hlow : 0 ≤ s.gSem.sem.value)
    (hpc : s.pc .consumer = .check) : 0 < s.gCounter.toNat := by
  have hplace : Taken (s.demo.place .consumer) := by
    simp [Taken, Demo.place, Program.demo, hpc, ProgPc.inLoop]
  have hpos : 0 < tally Taken s.demo.place := tally_pos hplace
  have hbalance : (s.gCounter.toNat : Int) = s.gSem.sem.value + s.demo.inTransit := h.balance
  unfold Demo.inTransit at hbalance
  omega

/-- Only the consumer is at these places. -/
theorem Placed.consumer (hplaced : Placed s) (hpc : (s.pc t).takes = true) : t = .consumer := by
  have ht := hplaced t
  cases hold : s.pc t with
  | loop pc => cases pc <;> rw [hold] at hpc ht <;> cases hpc <;> cases t <;> first | rfl | cases ht
  | _ => rw [hold] at hpc; cases hpc

theorem ProgPc.locked_takes (h : pc.locked = some pc') (hpc : pc'.takes = true) :
    pc.takes = true := by
  rcases pc with _ | pc | _ <;> try cases h
  cases pc <;> cases h <;> first | rfl | cases hpc

theorem ProgPc.unlocked_takes (h : pc.unlocked = some pc') : pc'.takes = false := by
  rcases pc with _ | pc | _ <;> try cases h
  rcases pc with _ | _ | (_ | _) | _ <;> cases h <;> rfl

theorem ProgPc.tested_takes {done : Bool} (h : pc.tested done = some pc')
    (hpc : pc'.takes = true) : done = false ∧ pc = .check := by
  cases pc <;> cases h <;> cases done <;> first | exact ⟨rfl, rfl⟩ | cases hpc

theorem ProgPc.joined_takes (h : ProgPc.joined t = some pc) : pc.takes = false := by
  rcases t with _ | _ | (_ | _) <;> cases h <;> rfl

theorem ProgPc.follow_takes {T : Type*} {l : Label T} (h : pc.follow l = some pc')
    (hpc : pc'.takes = true) : pc.takes = true := by
  cases l with
  | callWait | callSignal | waitReturn | signalReturn =>
    rcases pc with _ | pc | _ | _ | _ | (_ | _) | _ | _ <;> try cases h
    case loop =>
      cases pc <;> cases h
      cases hpc
    all_goals cases hpc
  | _ =>
    cases h
    exact hpc

/-- The consumer gets to these places by finding `g_done` unset. -/
theorem ProgramStep.takes (h : ProgramStep cap s l s') (hpc : (s'.pc .consumer).takes = true) :
    (s.pc .consumer).takes = true ∨ s.gDone = false ∧ s.pc .consumer = .check := by
  rcases eq_or_ne .consumer l.actor with hact | hu
  · rw [hact] at hpc ⊢
    cases h with
    | lock _ hlocked =>
      simp only [ProgLabel.actor, Program.goto_pc] at hpc
      exact Or.inl (ProgPc.locked_takes hlocked hpc)
    | gSem _ hfollow =>
      simp only [ProgLabel.actor, Program.goto_pc] at hpc
      exact Or.inl (ProgPc.follow_takes hfollow hpc)
    | test htested =>
      simp only [ProgLabel.actor, Program.goto_pc] at hpc
      exact Or.inr (ProgPc.tested_takes htested hpc)
    | unlock hunlocked => simp [ProgLabel.actor, ProgPc.unlocked_takes hunlocked] at hpc
    | join _ _ hjoined => simp [ProgLabel.actor, ProgPc.joined_takes hjoined] at hpc
    | produce | full | consume | quit => simp [ProgLabel.actor, ProgPc.takes] at hpc
  · rw [(h.pc_of_ne hu).1] at hpc
    exact Or.inl hpc

/-- **The counter stays within the cap, and what the consumer is about to take is there.** -/
theorem ProgramStep.stocked (h : ProgramStep cap s l s') (hplaced : Placed s)
    (hitem : s.gDone = false → s.pc .consumer = .check → 0 < s.gCounter.toNat)
    (hcap : cap < 2 ^ 31) (hs : Stocked cap s) : Stocked cap s' := by
  have hle := hs.counter_le
  have hkept : (s'.pc .consumer).takes = true → 0 < s.gCounter.toNat := by
    intro hpc
    rcases h.takes hpc with hpc | ⟨hdone, hpc⟩
    · exact hs.item hpc
    · exact hitem hdone hpc
  cases h with
  | @produce t hpc hne =>
    have hlt : s.gCounter.toNat ≠ cap := fun heq => hne (by
      rw [← heq, BitVec.ofNat_toNat, BitVec.setWidth_eq])
    have hsum : (s.gCounter + 1).toNat = s.gCounter.toNat + 1 :=
      BitVec.toNat_add_of_lt (by show s.gCounter.toNat + 1 < 2 ^ 32; omega)
    refine ⟨?_, fun _ => ?_⟩
    · show (s.gCounter + 1).toNat ≤ cap
      omega
    · show 0 < (s.gCounter + 1).toNat
      omega
  | @consume t hpc =>
    have hin : (s.pc t).takes = true := by rw [hpc]; rfl
    obtain rfl := hplaced.consumer hin
    have hpos := hs.item hin
    have hdiff : (s.gCounter - 1).toNat = s.gCounter.toNat - 1 :=
      BitVec.toNat_sub_of_le (BitVec.le_def.2 hpos)
    refine ⟨?_, fun hnext => ?_⟩
    · show (s.gCounter - 1).toNat ≤ cap
      omega
    · simp [ProgPc.takes] at hnext
  | _ => exact ⟨hle, hkept⟩

theorem ProgramRun.stocked (hcap : cap < 2 ^ 31)
    (h : Run (ProgramStep cap) (Program.initial ⟨0, cap⟩) ls s) : Stocked cap s := by
  induction h with
  | nil => exact ⟨Nat.zero_le _, fun hpc => by cases hpc⟩
  | snoc hrun hs ih =>
    have hlow := (Run.bounds (ProgramRun.gSem hrun) le_rfl (Int.natCast_nonneg cap)).1
    refine hs.stocked (ProgramRun.placed hrun) (fun hdone hpc => ?_) hcap ih
    exact (ProgramRun.balanced hcap hrun hdone).1.item hlow hpc

/-- **The counter of the whole program.**  In every state of every run, before and after
`g_done` is set, the counter is within the cap and the consumer's decrement does not wrap;
and as long as `g_done` is not set the threads are producers and consumers that go round
their loops, so that no signal fails. -/
theorem program_counter {pSem : Option PthreadSem} {mutexInit condInit : Int}
    (hinit : pthreadSemInit pSem 0 cap mutexInit condInit = (0, some sem)) (hcap : IsInt cap)
    (h : Run (ProgramStep cap) (Program.initial sem) ls s) :
    s.gCounter.toNat ≤ cap ∧
    (∀ t, s.pc t = .loop .consumeTake → (s.gCounter - 1).toNat + 1 = s.gCounter.toNat) ∧
    (s.gDone = false →
      Run (DemoStep cap) (Demo.initial sem Thread.isProducer) (ls.filterMap ProgLabel.move)
        s.demo ∧
      ∀ t result, .gSem (.signalReturn t result) ∈ ls → result = 0) := by
  obtain ⟨-, -, -, -, -, rfl⟩ := pthreadSemInit_eq_zero.1 hinit
  have hlt : cap < 2 ^ 31 := by
    have := hcap.2
    omega
  have hstocked : Stocked cap s := ProgramRun.stocked hlt h
  refine ⟨hstocked.counter_le, fun t hpc => ?_, fun hdone =>
    ⟨ProgramRun.demo h hdone, (ProgramRun.balanced hlt h hdone).2⟩⟩
  have hin : (s.pc t).takes = true := by rw [hpc]; rfl
  obtain rfl := (ProgramRun.placed h).consumer hin
  have hpos := hstocked.item hin
  have hdiff : (s.gCounter - 1).toNat = s.gCounter.toNat - 1 :=
    BitVec.toNat_sub_of_le (BitVec.le_def.2 hpos)
  omega

/-- A key is pressed while the first producer is between its two updates. -/
theorem program_counter_quit : ∃ (ls : List ProgLabel) (s : Program),
    Run (ProgramStep 1000) (Program.initial ⟨0, 1000⟩) ls s ∧ s.gDone = true ∧
      s.pc (.producer false) = .loop .produceSignal ∧ s.gCounter = 1 ∧ s.gCounter.toNat ≤ 1000 := by
  have hinit : pthreadSemInit (some ⟨0, 0⟩) 0 (1000 : ℕ) 0 0 = (0, some ⟨0, 1000⟩) := rfl
  have htest : Run (ProgramStep 1000) (Program.initial ⟨0, 1000⟩) [.test (.producer false)] _ :=
    Run.single (.test rfl)
  have hlock := htest.snoc (.lock (t := .producer false) rfl rfl)
  have hproduce := hlock.snoc (.produce (t := .producer false) rfl (by decide))
  have hquit := (hproduce.snoc (.unlock (t := .producer false) rfl)).snoc (.quit rfl)
  obtain ⟨hle, -⟩ := program_counter hinit ⟨by decide, by decide⟩ hquit
  exact ⟨_, _, hquit, rfl, rfl, rfl, hle⟩

end Refcode.Semaphore
