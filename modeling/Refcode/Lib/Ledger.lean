import Mathlib.Data.List.Count
import Mathlib.Data.List.Induction
import Mathlib.Data.List.Nodup

/-!
# Ledgers of handed-out resources

Some owner hands out resources under names `κ` and takes them back; names may be
used again later.  A log of `Entry`s says which name every call brought along,
whether the call ended the use of that name, and which name it handed out.

* `outstanding` — the names in use after a log.
* `Sound` — no call ever brought a name that was not in use: no double return,
  and no name the owner never gave.
* `Sound.balance` — in a sound log a name has been handed out as often as it has
  been returned, and once more if it is in use.
* `Tracks` — a state says which names are in use, and the log agrees; the rules for
  calls that use names, hand one out or return one.
-/

namespace Refcode.Lib

variable {κ : Type*}

/-- One call to the owner. -/
structure Entry (κ : Type*) where
  /-- The name the call brought along. -/
  handed : Option κ
  /-- Whether the call ended the use of that name. -/
  final : Bool
  /-- The name the call was answered with. -/
  issued : Option κ

/-- The name a call returned for good. -/
def Entry.retired (e : Entry κ) : Option κ := if e.final then e.handed else none

/-- Only a name the call brought along is returned. -/
theorem Entry.handed_of_retired {e : Entry κ} {k : κ} (h : e.retired = some k) :
    e.handed = some k := by
  unfold Entry.retired at h
  split at h
  · exact h
  · cases h

variable [DecidableEq κ]

/-- The names in use after a call. -/
def Entry.post (L : List κ) (e : Entry κ) : List κ :=
  e.issued.toList ++ L.diff e.retired.toList

/-- The names in use after a log. -/
def outstanding (log : List (Entry κ)) : List κ := log.foldl Entry.post []

/-- Every name a call brought along was in use at that moment. -/
def Sound (log : List (Entry κ)) : Prop :=
  ∀ pre e post, log = pre ++ e :: post → ∀ k, e.handed = some k → k ∈ outstanding pre

/-- How often the name `k` was handed out. -/
def issues (k : κ) (log : List (Entry κ)) : ℕ := log.countP fun e => e.issued = some k

/-- How often the name `k` was returned for good. -/
def retirements (k : κ) (log : List (Entry κ)) : ℕ := log.countP fun e => e.retired = some k

variable {log : List (Entry κ)} {e : Entry κ} {k : κ} {L : List κ}

@[simp] theorem outstanding_nil : outstanding ([] : List (Entry κ)) = [] := rfl

@[simp] theorem outstanding_snoc : outstanding (log ++ [e]) = Entry.post (outstanding log) e := by
  simp [outstanding]

theorem Sound.nil : Sound ([] : List (Entry κ)) := by
  intro pre e post h
  simp at h

/-- A sound log stays sound with a call that brings a name in use. -/
theorem Sound.snoc (h : Sound log) (he : ∀ k, e.handed = some k → k ∈ outstanding log) :
    Sound (log ++ [e]) := by
  intro pre c post hsplit k hk
  rcases List.eq_nil_or_concat post with rfl | ⟨post, d, rfl⟩
  · obtain ⟨rfl, hce⟩ := List.append_inj' hsplit rfl
    simp only [List.cons.injEq, and_true] at hce
    subst hce
    exact he k hk
  · rw [List.concat_eq_append, ← List.cons_append, ← List.append_assoc] at hsplit
    exact h pre c post (List.append_inj' hsplit rfl).1 k hk

/-- Part of a sound log is sound. -/
theorem Sound.of_append {log' : List (Entry κ)} (h : Sound (log ++ log')) : Sound log := by
  intro pre c post hsplit k hk
  refine h pre c (post ++ log') ?_ k hk
  rw [hsplit, List.append_assoc, List.cons_append]

/-- The last call of a sound log brought a name in use. -/
theorem Sound.last (h : Sound (log ++ [e])) (hk : e.handed = some k) : k ∈ outstanding log :=
  h log e [] rfl k hk

/-- How often a name is in use grows by one if the call hands it out, and falls by one if the
call returns it. -/
theorem Entry.count_post (h : ∀ k, e.retired = some k → k ∈ L) :
    (Entry.post L e).count k + (if e.retired = some k then 1 else 0)
      = L.count k + (if e.issued = some k then 1 else 0) := by
  have hissued : e.issued.toList.count k = if e.issued = some k then 1 else 0 := by
    cases e.issued with
    | none => simp
    | some i => simp [List.count_singleton]
  have hretired : (L.diff e.retired.toList).count k + (if e.retired = some k then 1 else 0)
      = L.count k := by
    cases hr : e.retired with
    | none => simp
    | some r =>
      have hmem := h r hr
      by_cases hrk : r = k
      · subst hrk
        have hpos := List.count_pos_iff.2 hmem
        simp [List.diff_cons, List.count_erase_self]
        omega
      · have hkr : k ≠ r := fun h => hrk h.symm
        simp [List.diff_cons, List.count_erase_of_ne hkr, hrk]
  rw [Entry.post, List.count_append, hissued]
  omega

/-- **The balance of a name.** -/
theorem Sound.balance (h : Sound log) (k : κ) :
    issues k log = retirements k log + (outstanding log).count k := by
  induction log using List.reverseRecOn with
  | nil => rfl
  | append_singleton log e ih =>
    have hret : ∀ r, e.retired = some r → r ∈ outstanding log := fun r hr =>
      h.last (Entry.handed_of_retired hr)
    have hpost := Entry.count_post (k := k) hret
    have hprev := ih h.of_append
    unfold issues retirements at *
    rw [outstanding_snoc, List.countP_append, List.countP_append, List.countP_singleton,
      List.countP_singleton]
    simp only [decide_eq_true_eq]
    omega

/-- No name is in use twice if none is handed out while it is in use. -/
theorem Entry.nodup_post (hL : L.Nodup)
    (hfresh : ∀ i, e.issued = some i → i ∉ L.diff e.retired.toList) : (Entry.post L e).Nodup := by
  have hdiff : (L.diff e.retired.toList).Nodup := hL.diff
  unfold Entry.post
  cases hi : e.issued with
  | none => simpa using hdiff
  | some i => simpa using ⟨hfresh i hi, hdiff⟩

/-- The names in use after a call, one by one. -/
theorem Entry.mem_post (hL : L.Nodup) :
    k ∈ Entry.post L e ↔ e.issued = some k ∨ k ∈ L ∧ e.retired ≠ some k := by
  unfold Entry.post
  rw [List.mem_append, Option.mem_toList, hL.mem_sdiff_iff, Option.mem_toList]

/-! ## Logs and states -/

/-- A call that uses a name. -/
def Entry.use (k : κ) : Entry κ := ⟨some k, false, none⟩

/-- A call that hands out a name. -/
def Entry.issue (k : κ) : Entry κ := ⟨none, false, some k⟩

/-- A call that returns a name. -/
def Entry.retire (k : κ) : Entry κ := ⟨some k, true, none⟩

@[simp] theorem Entry.post_use : Entry.post L (.use k) = L := by simp [post, use, retired]

@[simp] theorem Entry.post_issue : Entry.post L (.issue k) = k :: L := by
  simp [post, issue, retired]

@[simp] theorem Entry.post_retire : Entry.post L (.retire k) = L.erase k := by
  simp [post, retire, retired]

/-- The log is in order, and the names in use after it are those of `live`. -/
structure Tracks (log : List (Entry κ)) (live : κ → Bool) : Prop where
  sound : Sound log
  nodup : (outstanding log).Nodup
  mem_iff : ∀ k, k ∈ outstanding log ↔ live k = true

namespace Tracks

variable {live : κ → Bool}

theorem nil (h : ∀ k, live k = false) : Tracks ([] : List (Entry κ)) live :=
  ⟨.nil, by simp, fun k => by simp [h]⟩

/-- **Use.** -/
theorem use {es : List (Entry κ)} (h : Tracks log live)
    (hes : ∀ e ∈ es, ∃ k, live k = true ∧ e = .use k) : Tracks (log ++ es) live := by
  induction es generalizing log with
  | nil => simpa using h
  | cons e es ih =>
    obtain ⟨⟨k, hlive, rfl⟩, hrest⟩ := List.forall_mem_cons.mp hes
    have hone : Tracks (log ++ [.use k]) live := by
      refine ⟨h.sound.snoc fun i hi => ?_, by simpa using h.nodup, by simpa using h.mem_iff⟩
      obtain rfl : k = i := by simpa [Entry.use] using hi
      exact (h.mem_iff k).mpr hlive
    simpa using ih hone hrest

/-- **Handing out** a name that is not in use. -/
theorem issue (h : Tracks log live) (hk : live k = false) :
    Tracks (log ++ [.issue k]) (Function.update live k true) := by
  refine ⟨h.sound.snoc fun i hi => ?_, ?_, fun i => ?_⟩
  · simp [Entry.issue] at hi
  · have hnew : k ∉ outstanding log := by simp [h.mem_iff, hk]
    simpa using ⟨hnew, h.nodup⟩
  · rcases eq_or_ne i k with rfl | hi
    · simp
    · simp [hi, h.mem_iff]

/-- **Returning** a name that is in use. -/
theorem retire (h : Tracks log live) (hk : live k = true) :
    Tracks (log ++ [.retire k]) (Function.update live k false) := by
  refine ⟨h.sound.snoc fun i hi => ?_, ?_, fun i => ?_⟩
  · obtain rfl : k = i := by simpa [Entry.retire] using hi
    exact (h.mem_iff k).mpr hk
  · simpa using h.nodup.erase k
  · rcases eq_or_ne i k with rfl | hi
    · simp [h.nodup.mem_erase_iff]
    · simp [hi, h.nodup.mem_erase_iff, h.mem_iff]

/-- A name that is not in use has been returned as often as it was handed out. -/
theorem balance (h : Tracks log live) (hk : live k = false) : issues k log = retirements k log := by
  have hnone : k ∉ outstanding log := by simp [h.mem_iff, hk]
  rw [h.sound.balance k, List.count_eq_zero.mpr hnone, Nat.add_zero]

end Tracks

end Refcode.Lib
