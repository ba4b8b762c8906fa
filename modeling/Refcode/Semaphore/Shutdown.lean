import Refcode.Lib.Budget
import Refcode.Semaphore.Program

/-!
# Shutting down

The test program from the moment a key is pressed, which sets `g_done`.  The producers and
the consumer may be at any place then, and the consumer may be asleep; `main` wakes it with
a signal of its own, or the semaphore is full, and the consumer does not stay asleep.

* `ProgramStep.pays` — once `g_done` is set, a step lowers the cost by one at least, not
  counting wakeups for no reason.
* `ProgramRun.served` — after the first signal of `main` the consumer returns without
  waiting again, or there is a unit for it.
* `program_shuts_down` — the result: all threads return.
-/

namespace Refcode.Semaphore

open Refcode.Lib

variable {cap : ℕ} {sem : PthreadSem} {s s' : Program} {ls : List ProgLabel} {l : ProgLabel}
  {t : Thread} {pc pc' : ProgPc}

/-! ## The cost of a state -/

/-- At most how many steps a thread takes from its place in the loop until it returns, if
`g_done` is set: it leaves the loop at the next test.  A call of the semaphore counts with
the budget of its label, 4 for a wait and 16 for a signal with four threads. -/
def LoopPc.cost : LoopPc → ℕ
  | .produceLock => 20
  | .produceTest => 19
  | .produceUnlock true => 18
  | .produceSignal => 17
  | .produceUnlock false => 2
  | .signalling => 1
  | .consumeLock => 8
  | .consumeTake => 7
  | .consumeUnlock => 6
  | .consumeWait => 5
  | .waiting => 1

/-- The same for any place in the program. -/
def ProgPc.cost : ProgPc → ℕ
  | .loop pc => pc.cost
  | .top | .check => 1
  | .input => 36
  | .call false => 35
  | .inCall false | .join .consumer => 19
  | .join (.producer false) => 18
  | .call true => 17
  | .inCall true | .join (.producer true) => 1
  | .join .main | .finished => 0

/-- Four for a wakeup for no reason, as in the semaphore; nothing for the other steps. -/
def ProgLabel.budget : ProgLabel → ℕ
  | .gSem (.wake _) => 4
  | _ => 0

/-- The costs of all threads, in the program and in the semaphore together. -/
def Program.cost (s : Program) : ℕ := ∑ t, (s.pc t).cost + s.gSem.cost

theorem ProgPc.locked_cost (h : pc.locked = some pc') : pc'.cost + 1 ≤ pc.cost := by
  rcases pc with _ | pc | _ <;> try cases h
  cases pc <;> cases h <;> decide

theorem ProgPc.unlocked_cost (h : pc.unlocked = some pc') : pc'.cost + 1 ≤ pc.cost := by
  rcases pc with _ | pc | _ <;> try cases h
  rcases pc with _ | _ | (_ | _) | _ <;> cases h <;> decide

theorem ProgPc.tested_cost (h : pc.tested true = some pc') : pc'.cost + 1 ≤ pc.cost := by
  cases pc <;> cases h <;> decide

theorem ProgPc.joined_cost (h : ProgPc.joined t = some pc) :
    pc.cost + 1 ≤ (ProgPc.join t).cost := by
  rcases t with _ | _ | (_ | _) <;> cases h <;> decide

theorem card_thread : Fintype.card Thread = 4 := rfl

/-- When a thread enters a call or returns from one, its cost in the program falls by what
the step adds to the cost of the semaphore. -/
theorem ProgPc.follow_cost {l : Label Thread} (h : pc.follow l = some pc') :
    pc'.cost + l.budget (Fintype.card Thread) ≤ pc.cost + (ProgLabel.gSem l).budget := by
  cases l with
  | callWait | callSignal | waitReturn | signalReturn =>
    rcases pc with _ | pc | _ | _ | (_ | _) | (_ | _) | _ | _ <;> try cases h
    case loop =>
      cases pc <;> cases h
      simp [ProgPc.cost, LoopPc.cost, Label.budget, card_thread]
    all_goals simp [ProgPc.cost, Label.budget, card_thread]
  | _ =>
    cases h
    exact le_rfl

/-- **Once `g_done` is set, a step lowers the cost of the program** by one at least, not
counting a wakeup for no reason. -/
theorem ProgramStep.pays (h : ProgramStep cap s l s') (hdone : s.gDone = true) :
    s'.cost + 1 ≤ s.cost + l.budget := by
  have hsum := sum_move (f := fun u => (s.pc u).cost) (g := fun u => (s'.pc u).cost)
    (t := l.actor) (k := 0) fun u hu => by rw [(h.pc_of_ne hu).1]; exact le_rfl
  unfold Program.cost
  cases h with
  | lock hfree hlocked =>
    have hcost := ProgPc.locked_cost hlocked
    simp only [ProgLabel.actor, Program.goto_pc, Program.goto_gSem] at hsum ⊢
    omega
  | unlock hunlocked =>
    have hcost := ProgPc.unlocked_cost hunlocked
    simp only [ProgLabel.actor, Program.goto_pc, Program.goto_gSem] at hsum ⊢
    omega
  | test htested =>
    rw [hdone] at htested
    have hcost := ProgPc.tested_cost htested
    simp only [ProgLabel.actor, Program.goto_pc, Program.goto_gSem] at hsum ⊢
    omega
  | join hpc _ hjoined =>
    have hcost := ProgPc.joined_cost hjoined
    simp only [ProgLabel.actor, Program.goto_pc, Program.goto_gSem, hpc] at hsum ⊢
    omega
  | produce hpc | full hpc | consume hpc | quit hpc =>
    simp only [ProgLabel.actor, Program.goto_pc, Program.goto_gSem, hpc, ProgPc.cost,
      LoopPc.cost] at hsum ⊢
    omega
  | gSem hstep hfollow =>
    have hcost := ProgPc.follow_cost hfollow
    have hsem := hstep.pays
    simp only [ProgLabel.actor, Program.goto_pc] at hsum ⊢
    omega

/-- `ProgramStep.pays` as an instance of `Paid`: no step clears `g_done`. -/
theorem program_paid :
    Paid (ProgramStep cap) (fun s => s.gDone = true) Program.cost ProgLabel.budget := by
  refine ⟨fun {x l y} hdone hs => ?_, fun hdone hs => hs.pays hdone⟩
  cases hundone : y.gDone
  · rw [hs.gDone hundone] at hdone
    cases hdone
  · rfl

/-- A sleeper wakes up for no reason. -/
def ProgLabel.isWake : ProgLabel → Bool
  | .gSem (.wake _) => true
  | _ => false

theorem ProgLabel.budget_eq (l : ProgLabel) : l.budget = if l.isWake then 4 else 0 := by
  cases l with
  | gSem l => cases l <;> rfl
  | _ => rfl

theorem sum_prog_budget (ls : List ProgLabel) :
    (ls.map ProgLabel.budget).sum = 4 * ls.countP ProgLabel.isWake := by
  induction ls with
  | nil => rfl
  | cons l ls ih =>
    rw [List.map_cons, List.sum_cons, ih, l.budget_eq, List.countP_cons]
    split_ifs <;> omega

/-! ## A bound for the cost -/

/-- The greatest cost that a thread can have, with its cost in the semaphore. -/
def Thread.maxCost : Thread → ℕ
  | .main => 35
  | .consumer => 8
  | .producer _ => 20

/-- A thread costs at most 3 in a wait, `3 * n + 3` in a signal, and nothing outside. -/
theorem Pc.cost_le (q : Pc) (n : ℕ) :
    q.cost n ≤ match q.inside with
      | none => 0
      | some .wait => 3
      | some .signal => 3 * n + 3 := by
  cases q <;> simp [Pc.cost, Pc.inside]

theorem place_cost_le {q : Pc} (hlink : q.inside = pc.inside)
    (hplace : t.mayBeAt true pc = true) : pc.cost + q.cost (Fintype.card Thread) ≤ t.maxCost := by
  have hcall := q.cost_le (Fintype.card Thread)
  rw [hlink, card_thread] at hcall
  rw [card_thread]
  rcases pc with _ | pc | _ | _ | (_ | _) | (_ | _) | (_ | _ | (_ | _)) | _
  case loop =>
    rcases pc with _ | _ | (_ | _) | _ <;> cases t <;> cases hplace <;>
      simp_all [ProgPc.inside, LoopPc.inside, ProgPc.cost, LoopPc.cost, Thread.maxCost] <;> omega
  all_goals
    cases t <;> cases hplace <;>
      simp_all [ProgPc.inside, ProgPc.cost, Thread.maxCost] <;> omega

/-- **When `g_done` is set the cost is at most 83**, 35 + 8 + 20 + 20. -/
theorem Program.cost_le (hlinked : s.Linked) (hplaced : Placed s) (hdone : s.gDone = true) :
    s.cost ≤ 83 := by
  have hall : ∑ t, ((s.pc t).cost + (s.gSem.pc t).cost (Fintype.card Thread))
      ≤ ∑ t : Thread, t.maxCost :=
    Finset.sum_le_sum fun t _ => place_cost_le (hlinked t) (hdone ▸ hplaced t)
  rw [Finset.sum_add_distrib] at hall
  exact hall

/-! ## The signal of `main` -/

/-- `main` has left the section of its first signal. -/
def Program.Signalled (s : Program) : Prop :=
  s.pc .main = .inCall false ∧ (∃ result, s.gSem.pc .main = .signalUnlock result) ∨
    (∃ t, s.pc .main = .join t) ∨ s.pc .main = .call true ∨ s.pc .main = .inCall true ∨
      s.pc .main = .finished

/-- The consumer has returned, is about to test `g_done`, or has taken a unit and is about
to unlock the mutex of the semaphore; or the value is positive. -/
def Program.Served (s : Program) : Prop :=
  s.pc .consumer = .finished ∨ s.pc .consumer = .check ∨ s.gSem.pc .consumer = .waitUnlock ∨
    0 < s.gSem.sem.value

/-- A thread that is in `pthread_sem_wait` is the consumer. -/
theorem consumer_of_inside (hlinked : s.Linked) (hplaced : Placed s)
    (hin : (s.gSem.pc t).inside = some .wait) : t = .consumer := by
  rw [hlinked t] at hin
  have ht := hplaced t
  cases hold : s.pc t with
  | loop pc =>
    rw [hold] at hin ht
    obtain rfl := LoopPc.eq_waiting hin
    cases t <;> first | rfl | cases ht
  | _ =>
    rw [hold] at hin
    cases hin

/-- Once `g_done` is set, a thread that has returned or is about to test `g_done` is at one of
these two places after every step. -/
theorem ProgramStep.leaves (h : ProgramStep cap s l s') (hdone : s.gDone = true)
    (hpc : s.pc t = .finished ∨ s.pc t = .check) : s'.pc t = .finished ∨ s'.pc t = .check := by
  rcases eq_or_ne t l.actor with rfl | hu
  · cases h with
    | lock _ hlocked =>
      rcases hpc with hpc | hpc <;> simp only [ProgLabel.actor] at hpc <;>
        simp [hpc, ProgPc.locked] at hlocked
    | unlock hunlocked =>
      rcases hpc with hpc | hpc <;> simp only [ProgLabel.actor] at hpc <;>
        simp [hpc, ProgPc.unlocked] at hunlocked
    | test htested =>
      rcases hpc with hpc | hpc <;> simp only [ProgLabel.actor] at hpc <;>
        simp [hpc, hdone, ProgPc.tested] at htested
      exact Or.inl (by simp [ProgLabel.actor, htested])
    | produce hold | full hold | consume hold | quit hold | join hold =>
      simp [ProgLabel.actor, hold] at hpc
    | @gSem l sys pc hstep hfollow =>
      simp only [ProgLabel.actor, Program.goto_pc] at hpc ⊢
      cases l <;> rcases hpc with hpc | hpc <;> simp only [hpc] at hfollow <;> cases hfollow <;>
        simp
  · rwa [(h.pc_of_ne hu).1]

/-- After its decrement a wait only unlocks and returns. -/
theorem Step.of_waitUnlock {T : Type*} [DecidableEq T] {s s' : Sys T} {l : Label T}
    (h : Step s l s') (hpc : s.pc l.actor = .waitUnlock) : l = .waitReturn l.actor := by
  cases h with
  | waitReturn => rfl
  | lock howner hlocked =>
    simp only [Label.actor] at hpc
    simp [hpc, Pc.locked] at hlocked
  | callWait hold | callSignal hold | take hold | sleep hold | wake hold | post hold
  | refuse hold | signalReturn hold => simp [Label.actor, hold] at hpc

/-- If the value is positive, a step leaves it positive, or it is the decrement of a
wait. -/
theorem Step.keeps_unit {T : Type*} [DecidableEq T] {s s' : Sys T} {l : Label T}
    (h : Step s l s') (hpos : 0 < s.sem.value) :
    0 < s'.sem.value ∨ (s.pc l.actor).inside = some .wait ∧ s'.pc l.actor = .waitUnlock := by
  by_cases hgain : 0 ≤ l.gain
  · rw [h.value]
    exact Or.inl (by omega)
  · cases h with
    | take hpc =>
      refine Or.inr ⟨?_, Sys.goto_pc _⟩
      simp [Label.actor, hpc, Pc.inside]
    | _ => simp [Label.gain] at hgain

/-- After the section of a signal the value is positive, whether it added a unit or not. -/
theorem Step.makes_unit {T : Type*} [DecidableEq T] {s s' : Sys T} {l : Label T} {result : Int}
    (h : Step s l s') (hlow : 0 ≤ s.sem.value) (hmax : 0 < s.sem.valueMax)
    (hpc : s'.pc l.actor = .signalUnlock result) : 0 < s'.sem.value := by
  cases h with
  | post hold hsec =>
    obtain ⟨-, rfl, -⟩ := signalSection_eq_post.1 hsec
    exact Int.lt_add_one_of_le hlow
  | refuse hold hsec =>
    obtain ⟨hfull, rfl, -⟩ := signalSection_eq_refuse.1 hsec
    exact lt_of_lt_of_le hmax hfull
  | @lock t pc howner hlocked =>
    cases hold : s.pc t <;> rw [hold] at hlocked <;> cases hlocked <;>
      simp [Label.actor, Sys.goto] at hpc
  | _ => simp [Label.actor, Sys.goto] at hpc

theorem ProgPc.follow_waitReturn {T : Type*} {u : T} (h : pc.follow (.waitReturn u) = some pc') :
    pc' = .check := by
  cases pc with
  | loop pc =>
    cases pc <;> cases h
    rfl
  | _ => cases h

/-- **A step keeps `Served`** once `g_done` is set: only the consumer can take the unit, and
after its wait it tests `g_done` and returns. -/
theorem ProgramStep.served (h : ProgramStep cap s l s') (hlinked : s.Linked)
    (hplaced : Placed s) (hdone : s.gDone = true) (hs : s.Served) : s'.Served := by
  have hleaving : s.pc .consumer = .finished ∨ s.pc .consumer = .check → s'.Served := fun hpc =>
    (h.leaves hdone hpc).elim Or.inl fun hpc => Or.inr (Or.inl hpc)
  rcases hs with hpc | hpc | hunlock | hpos
  · exact hleaving (Or.inl hpc)
  · exact hleaving (Or.inr hpc)
  · -- the consumer has taken a unit, and only returns from the semaphore
    rcases eq_or_ne .consumer l.actor with hact | hu
    · cases h with
      | @gSem l sys pc hstep hfollow =>
        have hact : Thread.consumer = l.actor := hact
        rw [hact] at hunlock
        rw [hstep.of_waitUnlock hunlock] at hfollow
        obtain rfl := ProgPc.follow_waitReturn hfollow
        refine Or.inr (Or.inl ?_)
        rw [hact]
        simp
      | _ => exact Or.inr (Or.inr (Or.inl hunlock))
    · rcases (h.pc_of_ne hu).2 with heq | ⟨hsleep, -⟩
      · exact Or.inr (Or.inr (Or.inl (heq.trans hunlock)))
      · rw [hsleep] at hunlock
        cases hunlock
  · cases h with
    | gSem hstep hfollow =>
      rcases hstep.keeps_unit hpos with hpos | ⟨hin, hpc⟩
      · exact Or.inr (Or.inr (Or.inr hpos))
      · rw [consumer_of_inside hlinked hplaced hin] at hpc
        exact Or.inr (Or.inr (Or.inl hpc))
    | _ => exact Or.inr (Or.inr (Or.inr hpos))

/-- At no place of `main` is there a step on `g_lock` or a test of `g_done`. -/
theorem Placed.main (hplaced : Placed s) (hact : .main = t) :
    (s.pc t).locked = none ∧ (s.pc t).unlocked = none ∧ (∀ done, (s.pc t).tested done = none) ∧
      ∀ pc, s.pc t ≠ .loop pc := by
  subst hact
  have hmain := hplaced .main
  cases hold : s.pc .main with
  | top | check | loop =>
    rw [hold] at hmain
    cases hmain
  | _ => simp [ProgPc.locked, ProgPc.unlocked, ProgPc.tested]

/-- Unless `Signalled` holds, `main` is waiting for a key, about to call
`pthread_sem_signal`, or in that call. -/
theorem Program.before_signal (hplaced : Placed s) (hs : ¬ s.Signalled) :
    s.pc .main = .input ∨ s.pc .main = .call false ∨ s.pc .main = .inCall false := by
  have hmain := hplaced .main
  rcases hold : s.pc .main with _ | _ | _ | _ | (_ | _) | (_ | _) | _ | _
  case top | loop | check => rw [hold] at hmain; cases hmain
  all_goals simp_all [Program.Signalled]

/-- **The first signal of `main`.**  A step after which `Signalled` holds for the first time
is a step of the semaphore that ends the section of a signal. -/
theorem ProgramStep.signalled (h : ProgramStep cap s l s') (hplaced : Placed s)
    (hs : ¬ s.Signalled) (hs' : s'.Signalled) : ∃ l' result, Step s.gSem l' s'.gSem ∧
      s'.gSem.pc l'.actor = .signalUnlock result := by
  rcases eq_or_ne .main l.actor with hact | hu
  · obtain ⟨hlocked, hunlocked, htested, hloop⟩ := hplaced.main hact
    cases h with
    | lock _ hgo => cases hlocked.symm.trans hgo
    | unlock hgo => cases hunlocked.symm.trans hgo
    | test hgo => cases (htested _).symm.trans hgo
    | produce hpc | full hpc | consume hpc => exact absurd hpc (hloop _)
    | quit => simp [Program.Signalled] at hs'
    | join hpc => exact absurd (Or.inr (Or.inl ⟨_, hpc⟩)) hs
    | @gSem l sys pc hstep hfollow =>
      have hact : Thread.main = l.actor := hact
      have hbefore := Program.before_signal hplaced hs
      rw [hact] at hbefore
      rcases hs' with ⟨-, result, hunlock⟩ | hlater
      · rw [hact] at hunlock
        exact ⟨l, result, hstep, hunlock⟩
      · -- `main` returns from its first signal, so that the section is over already
        rw [hact, Program.goto_pc] at hlater
        rcases hbefore with hold | hold | hold <;> rw [hold] at hfollow
        · cases l <;> cases hfollow <;> simp at hlater
        · cases l <;> cases hfollow <;> simp at hlater
        · rw [← hact] at hold
          cases hstep with
          | @signalReturn t result hpc =>
            exact absurd (Or.inl ⟨hold, result, hact ▸ hpc⟩) hs
          | _ => cases hfollow <;> simp at hlater
  · obtain ⟨hpc, hsem⟩ := h.pc_of_ne hu
    refine absurd ?_ hs
    rcases hs' with ⟨hcall, result, hunlock⟩ | hlater
    · rcases hsem with heq | ⟨-, hwoken⟩
      · exact Or.inl ⟨hpc ▸ hcall, result, heq ▸ hunlock⟩
      · rw [hwoken] at hunlock
        cases hunlock
    · rw [hpc] at hlater
      exact Or.inr hlater

/-- **In every run, once `main` has left the section of its first signal, `Served` holds.** -/
theorem ProgramRun.served (hmax : 0 < cap)
    (h : Run (ProgramStep cap) (Program.initial ⟨0, cap⟩) ls s) : s.Signalled → s.Served := by
  induction h with
  | nil => simp [Program.Signalled, Program.initial]
  | @snoc ls m m' l hrun hs ih =>
    intro hsignalled
    have hplaced : Placed m := ProgramRun.placed hrun
    have hsem := ProgramRun.gSem hrun
    by_cases hbefore : m.Signalled
    · -- `main` has set `g_done` before
      have hdone : m.gDone = true := by
        have hmain := hplaced .main
        rcases hbefore with ⟨hpc, -⟩ | ⟨t, hpc⟩ | hpc | hpc | hpc <;> rw [hpc] at hmain <;>
          simp_all [Thread.mayBeAt]
      exact hs.served (ProgramRun.linked hrun) hplaced hdone (ih hbefore)
    · obtain ⟨l', result, hstep, hunlock⟩ := hs.signalled hplaced hbefore hsignalled
      have hlow := (Run.bounds hsem le_rfl (Int.natCast_nonneg cap)).1
      have hvm : m.gSem.sem.valueMax = cap := Run.valueMax hsem
      have hpos : 0 < m.gSem.sem.valueMax := by rw [hvm]; exact_mod_cast hmax
      exact Or.inr (Or.inr (Or.inr (hstep.makes_unit hlow hpos hunlock)))

/-! ## Coming to rest -/

/-- Every step from `s` is a wakeup for no reason. -/
def Program.AtRest (cap : ℕ) (s : Program) : Prop :=
  ∀ l s', ProgramStep cap s l s' → l.isWake = true

/-- For a step of the semaphore that is neither a call nor a wakeup for no reason there is
a place in the program to go on from. -/
theorem Program.Linked.follow (hlinked : s.Linked) {l : Label Thread} {sys : Sys Thread}
    (hstep : Step s.gSem l sys) (hinside : l.outside = false) :
    ∃ pc, (s.pc l.actor).follow l = some pc := by
  have hlink := hlinked l.actor
  cases hstep with
  | @waitReturn t hpc =>
    simp only [Label.actor, hpc] at hlink ⊢
    cases hold : s.pc t with
    | loop pc =>
      rw [hold] at hlink
      obtain rfl := LoopPc.eq_waiting hlink.symm
      exact ⟨_, rfl⟩
    | _ => simp [hold, Pc.inside, ProgPc.inside] at hlink
  | @signalReturn t result hpc =>
    simp only [Label.actor, hpc] at hlink ⊢
    cases hold : s.pc t with
    | loop pc =>
      rw [hold] at hlink
      obtain rfl := LoopPc.eq_signalling hlink.symm
      exact ⟨_, rfl⟩
    | inCall again => cases again <;> exact ⟨_, rfl⟩
    | _ => simp [hold, Pc.inside, ProgPc.inside] at hlink
  | callWait | callSignal => cases hinside
  | _ => exact ⟨_, rfl⟩

/-- If the program is at rest, the semaphore is at rest. -/
theorem Program.AtRest.gSem (hrest : s.AtRest cap) (hlinked : s.Linked) :
    Semaphore.AtRest s.gSem := by
  intro l sys hstep
  by_contra hinside
  rw [Bool.not_eq_true] at hinside
  obtain ⟨pc, hfollow⟩ := hlinked.follow hstep hinside
  have hwake := hrest _ _ (.gSem hstep hfollow)
  cases l <;> cases hwake
  cases hinside

/-- At rest `g_lock` is free. -/
theorem Program.AtRest.gLock (hrest : s.AtRest cap) (hguarded : s.Guarded) : s.gLock = none := by
  refine hguarded.free_iff.2 fun t hholds => ?_
  cases hold : s.pc t with
  | loop pc =>
    cases pc with
    | produceTest =>
      by_cases hfull : s.gCounter = BitVec.ofNat 32 cap
      · cases hrest _ _ (.full hold hfull)
      · cases hrest _ _ (.produce hold hfull)
    | produceUnlock produced =>
      cases produced <;> cases hrest _ _ (.unlock (t := t) (by rw [hold]; rfl))
    | consumeTake => cases hrest _ _ (.consume hold)
    | consumeUnlock => cases hrest _ _ (.unlock (t := t) (by rw [hold]; rfl))
    | _ => simp [hold, ProgPc.holds, LoopPc.holds] at hholds
  | _ => simp [hold, ProgPc.holds] at hholds

theorem Program.Linked.idle (hlinked : s.Linked) (h : (s.pc t).inside = none) :
    s.gSem.pc t = .idle := by
  have hlink := hlinked t
  rw [h] at hlink
  cases hpc : s.gSem.pc t <;> rw [hpc] at hlink <;> first | rfl | cases hlink

/-- **At rest a thread has returned**, or is asleep in `pthread_sem_wait`, or is joining
another thread. -/
theorem Program.AtRest.places (hrest : s.AtRest cap) (hlinked : s.Linked) (hplaced : Placed s)
    (hguarded : s.Guarded) (hsem : Semaphore.Guarded s.gSem) (t : Thread) :
    s.pc t = .finished ∨ s.pc t = .loop .waiting ∧ s.gSem.pc t = .waitSleep ∨
      ∃ u, s.pc t = .join u := by
  have hfree : s.gLock = none := hrest.gLock hguarded
  have hout : (s.pc t).holds = false := by simpa using hguarded.free_iff.1 hfree t
  obtain ⟨-, hsleep⟩ := (hrest.gSem hlinked).idle_or_asleep hsem
  have hnosignal : (s.pc t).inside ≠ some .signal := by
    rw [← hlinked t]
    rcases hsleep t with hpc | hpc <;> simp [hpc, Pc.inside]
  cases hold : s.pc t with
  | top | check => cases hrest _ _ (.test (t := t) (by rw [hold]; rfl))
  | finished => exact Or.inl rfl
  | join u => exact Or.inr (Or.inr ⟨u, rfl⟩)
  | inCall again => simp [hold, ProgPc.inside] at hnosignal
  | call again =>
    have hidle : s.gSem.pc t = .idle := hlinked.idle (by rw [hold]; rfl)
    cases hrest _ _ (.gSem (.callSignal hidle) (by rw [Label.actor, hold]; rfl))
  | input =>
    have hmain := hplaced t
    rw [hold] at hmain
    cases t with
    | main => cases hrest _ _ (.quit hold)
    | consumer | producer => cases hmain
  | loop pc =>
    cases pc with
    | produceLock | consumeLock =>
      cases hrest _ _ (.lock (t := t) hfree (by rw [hold]; rfl))
    | produceTest | produceUnlock | consumeTake | consumeUnlock =>
      simp [hold, ProgPc.holds, LoopPc.holds] at hout
    | signalling => simp [hold, ProgPc.inside, LoopPc.inside] at hnosignal
    | produceSignal =>
      have hidle : s.gSem.pc t = .idle := hlinked.idle (by rw [hold]; rfl)
      cases hrest _ _ (.gSem (.callSignal hidle) (by rw [Label.actor, hold]; rfl))
    | consumeWait =>
      have hidle : s.gSem.pc t = .idle := hlinked.idle (by rw [hold]; rfl)
      cases hrest _ _ (.gSem (.callWait hidle) (by rw [Label.actor, hold]; rfl))
    | waiting =>
      have hin : (s.gSem.pc t).inside = some .wait := by rw [hlinked t, hold]; rfl
      rcases hsleep t with hpc | hpc
      · simp [hpc, Pc.inside] at hin
      · exact Or.inr (Or.inl ⟨rfl, hpc⟩)

/-- At rest `main` has returned or is joining a thread. -/
theorem Program.AtRest.main (hrest : s.AtRest cap)
    (h : Run (ProgramStep cap) (Program.initial ⟨0, cap⟩) ls s) :
    s.pc .main = .finished ∨ ∃ u, s.pc .main = .join u := by
  have hmain := ProgramRun.placed h .main
  rcases hrest.places (ProgramRun.linked h) (ProgramRun.placed h) (ProgramRun.guarded h)
    (Run.guarded (ProgramRun.gSem h)) .main with hpc | ⟨hpc, -⟩ | hpc
  · exact Or.inl hpc
  · rw [hpc] at hmain
    cases hmain
  · exact Or.inr hpc

/-- At rest the consumer and the producers have returned. -/
theorem Program.AtRest.created (hmax : 0 < cap) (hrest : s.AtRest cap)
    (h : Run (ProgramStep cap) (Program.initial ⟨0, cap⟩) ls s) (ht : t ≠ .main) :
    s.pc t = .finished := by
  have hlinked : s.Linked := ProgramRun.linked h
  have hsem := ProgramRun.gSem h
  have hguarded : Semaphore.Guarded s.gSem := Run.guarded hsem
  have hown := ProgramRun.placed h t
  rcases hrest.places hlinked (ProgramRun.placed h) (ProgramRun.guarded h) hguarded t
    with hpc | ⟨hpc, hasleep⟩ | ⟨u, hpc⟩
  · exact hpc
  · rw [hpc] at hown
    cases t with
    | main | producer => cases hown
    | consumer =>
      -- asleep there is no unit for it, but `main` has left one
      have hlow := (Run.bounds hsem le_rfl (Int.natCast_nonneg cap)).1
      have hzero := (hrest.gSem hlinked).value_eq_zero hguarded (Run.covered hsem) hlow hasleep
      have hsignalled : s.Signalled := by
        rcases hrest.main h with hmain | hmain
        · exact Or.inr (Or.inr (Or.inr (Or.inr hmain)))
        · exact Or.inr (Or.inl hmain)
      rcases ProgramRun.served hmax h hsignalled with hserved | hserved | hserved | hserved
      · exact hserved
      · rw [hpc] at hserved
        cases hserved
      · rw [hasleep] at hserved
        cases hserved
      · omega
  · rw [hpc] at hown
    cases t with
    | main => exact absurd rfl ht
    | consumer | producer => cases hown

/-- **At rest all four threads have returned.** -/
theorem Program.AtRest.finished (hmax : 0 < cap) (hrest : s.AtRest cap)
    (h : Run (ProgramStep cap) (Program.initial ⟨0, cap⟩) ls s) (t : Thread) :
    s.pc t = .finished := by
  rcases eq_or_ne t .main with rfl | ht
  · rcases hrest.main h with hpc | ⟨u, hpc⟩
    · exact hpc
    · have hown := ProgramRun.placed h .main
      simp only [hpc, Thread.mayBeAt, Bool.and_eq_true, decide_eq_true_eq] at hown
      obtain ⟨pc, hjoined⟩ : ∃ pc, ProgPc.joined u = some pc := by
        rcases u with _ | _ | (_ | _) <;> first | exact ⟨_, rfl⟩ | exact absurd rfl hown.2
      cases hrest _ _ (.join hpc (hrest.created hmax h hown.2) hjoined)
  · exact hrest.created hmax h ht

/-! ## The result -/

/-- **The program ends.**  Once `g_done` is set, at most 83 steps are left, and four more
for every time the consumer wakes up for no reason.  From every state reached, the steps
that are left can be taken, and they lead to the end of all four threads; nothing else is
a state in which nothing more can happen. -/
theorem program_shuts_down {pSem : Option PthreadSem} {mutexInit condInit : Int}
    (hinit : pthreadSemInit pSem 0 cap mutexInit condInit = (0, some sem))
    (h : Run (ProgramStep cap) (Program.initial sem) ls s) :
    (s.gDone = true → ∀ ms s', Run (ProgramStep cap) s ms s' →
      ms.length ≤ 83 + 4 * ms.countP ProgLabel.isWake) ∧
    (s.gDone = true → ∃ ms s', Run (ProgramStep cap) s ms s' ∧
      (∀ l ∈ ms, l.isWake = false) ∧ ∀ t, s'.pc t = .finished) ∧
    (s.AtRest cap → ∀ t, s.pc t = .finished) := by
  obtain ⟨-, hne, -, -, -, rfl⟩ := pthreadSemInit_eq_zero.1 hinit
  have hmax : 0 < cap := Nat.pos_of_ne_zero (by exact_mod_cast hne)
  refine ⟨fun hdone ms s' hrun => ?_, fun hdone => ?_, fun hrest t => hrest.finished hmax h t⟩
  · have hlength := program_paid.length_le hdone hrun
    have hcost := Program.cost_le (ProgramRun.linked h) (ProgramRun.placed h) hdone
    rw [sum_prog_budget] at hlength
    omega
  · have hpaid : Paid (ProgramStep cap) _ _ _ := program_paid
    obtain ⟨ms, s', hrun, hfree, hsettled⟩ := hpaid.exists_settled hdone
    have hnowake : ∀ l : ProgLabel, l.budget = 0 ↔ l.isWake = false := by
      intro l
      rw [l.budget_eq]
      split_ifs with hwake <;> simp [hwake]
    refine ⟨ms, s', hrun, fun l hl => (hnowake l).1 (hfree l hl), fun t => ?_⟩
    have hrest : s'.AtRest cap := by
      intro l s'' hstep
      have hbudget := hsettled l s'' hstep
      rwa [Ne, hnowake, Bool.not_eq_false] at hbudget
    exact hrest.finished hmax (h.append hrun) t

/-- A key is pressed while the consumer sleeps and nothing has been produced. -/
theorem program_shuts_down_asleep : ∃ (ls : List ProgLabel) (s : Program),
    Run (ProgramStep 1000) (Program.initial ⟨0, 1000⟩) ls s ∧ s.gDone = true ∧
      s.gSem.pc .consumer = .waitSleep ∧
      ∃ ms s', Run (ProgramStep 1000) s ms s' ∧ ∀ t, s'.pc t = .finished := by
  have hinit : pthreadSemInit (some ⟨0, 0⟩) 0 (1000 : ℕ) 0 0 = (0, some ⟨0, 1000⟩) := rfl
  have hcall : Run (ProgramStep 1000) (Program.initial ⟨0, 1000⟩)
      [.gSem (.callWait .consumer)] _ := Run.single (.gSem (.callWait rfl) rfl)
  have hlock := hcall.snoc (.gSem (.lock (t := .consumer) rfl rfl) rfl)
  have hsleep := hlock.snoc (.gSem (.sleep (t := .consumer) rfl rfl) rfl)
  have hquit := hsleep.snoc (.quit rfl)
  obtain ⟨-, hends, -⟩ := program_shuts_down hinit hquit
  obtain ⟨ms, s', hrun, -, hfinished⟩ := hends rfl
  exact ⟨_, _, hquit, rfl, rfl, ms, s', hrun, hfinished⟩

end Refcode.Semaphore
