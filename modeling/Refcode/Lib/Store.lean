import Mathlib.Logic.Function.Basic
import Mathlib.Data.List.Basic

/-!
# An abstract store of independent arrays

What a heap is for, with no addresses in it: a map from handles to arrays, and
four requests on it.  Fresh cells may hold anything, so `StoreStep` is a relation.

* `StoreStep` — the requests with their outcomes (`true` for success).
* `ClearStep` — the same, with a request for an array of zeros.
* `StoreStep.frame` — a request never touches a handle it does not name.
-/

namespace Refcode.Lib

variable {ι β : Type*} [DecidableEq ι]

/-- The live handles and what their arrays hold. -/
abbrev Store (ι β : Type*) := ι → Option (List β)

/-- A request of the client. -/
inductive Request (ι β : Type*) where
  /-- Make an array of `n` cells. -/
  | alloc (h : ι) (n : ℕ)
  /-- Change the length of an array to `n`; a dead handle is allocated. -/
  | resize (h : ι) (n : ℕ)
  /-- Drop an array. -/
  | release (h : ι)
  /-- Overwrite cell `i`. -/
  | write (h : ι) (i : ℕ) (b : β)

/-- The handle a request names. -/
def Request.handle : Request ι β → ι
  | .alloc h _ | .resize h _ | .release h | .write h _ _ => h

/-- One request and its outcome.  A refused request leaves the store alone, and a
resized array keeps its first cells. -/
inductive StoreStep : Store ι β → Request ι β × Bool → Store ι β → Prop
  | alloc {S : Store ι β} {h : ι} {n : ℕ} {bs : List β} :
      S h = none → bs.length = n →
      StoreStep S (.alloc h n, true) (Function.update S h (some bs))
  | resize {S : Store ι β} {h : ι} {n : ℕ} {old bs : List β} :
      S h = some old → bs.length = n →
      bs.take (min old.length n) = old.take (min old.length n) →
      StoreStep S (.resize h n, true) (Function.update S h (some bs))
  | resizeDead {S : Store ι β} {h : ι} {n : ℕ} {bs : List β} :
      S h = none → bs.length = n →
      StoreStep S (.resize h n, true) (Function.update S h (some bs))
  | allocFail {S : Store ι β} {h : ι} {n : ℕ} : StoreStep S (.alloc h n, false) S
  | resizeFail {S : Store ι β} {h : ι} {n : ℕ} : StoreStep S (.resize h n, false) S
  | release {S : Store ι β} {h : ι} : StoreStep S (.release h, true) (Function.update S h none)
  | write {S : Store ι β} {h : ι} {bs : List β} {i : ℕ} {b : β} :
      S h = some bs → i < bs.length →
      StoreStep S (.write h i b, true) (Function.update S h (some (bs.set i b)))

/-- **No request touches a handle it does not name.** -/
theorem StoreStep.frame {S S' : Store ι β} {r : Request ι β} {ok : Bool} {h : ι}
    (hs : StoreStep S (r, ok) S') (hne : h ≠ r.handle) : S' h = S h := by
  cases hs <;> first | rfl | exact Function.update_of_ne hne _ _

/-- Requests, and whether they are for an array that holds `zero` everywhere. -/
inductive ClearStep (zero : β) : Store ι β → (Request ι β × Bool) × Bool → Store ι β → Prop
  | request {S S' : Store ι β} {r : Request ι β} {ok : Bool} :
      StoreStep S (r, ok) S' → ClearStep zero S ((r, false), ok) S'
  | clear {S : Store ι β} {h : ι} {n : ℕ} : S h = none →
      ClearStep zero S ((.alloc h n, true), true)
        (Function.update S h (some (List.replicate n zero)))
  | clearFail {S : Store ι β} {h : ι} {n : ℕ} : ClearStep zero S ((.alloc h n, true), false) S

theorem ClearStep.frame {zero : β} {S S' : Store ι β} {l : (Request ι β × Bool) × Bool} {h : ι}
    (hs : ClearStep zero S l S') (hne : h ≠ l.1.1.handle) : S' h = S h := by
  cases hs with
  | request hs => exact hs.frame hne
  | clear => exact Function.update_of_ne hne _ _
  | clearFail => rfl

end Refcode.Lib
