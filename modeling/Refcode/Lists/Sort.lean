import Refcode.Lib.Word
import Refcode.Lists.Element

/-!
# The sort

`ns_sort` of `sort.c`, byte by byte.  The counters of its three loops never pass
`count` and `stride`, so they are numbers; addresses are words.  The arguments are
gathered in a `SortArgs`; what changes is the memory and the state of the callback.

* `nsSort`, with `sortLoop`, `insertLoop` and `swapBytes` — the function and its three loops.
* `swapBytes_spec` — the innermost loop exchanges two runs of bytes, and changes nothing
  else.
-/

namespace Refcode.Lists

open Refcode.Lib

variable {w : ℕ} {σ : Type*}

/-! ## The function -/

/-- The arguments of the sort. -/
structure SortArgs (w : ℕ) (σ : Type*) where
  pBase : BitVec w
  count : BitVec w
  stride : BitVec w
  compareProc : CompareProc w σ
  pUserData : BitVec w

/-- The memory and the state of the callback, with the pairs of elements compared
so far and the bytes exchanged so far. -/
structure SortState (w : ℕ) (σ : Type*) where
  mem : Mem w
  user : σ
  compared : List (BitVec w × BitVec w)
  swapped : List (BitVec w × BitVec w)

/-- `char temp = *a; *a++ = *b; *b++ = temp;`, without the increments. -/
def SortState.swapByte (s : SortState w σ) (a b : BitVec w) : SortState w σ :=
  { s with
    mem := (s.mem.store a (s.mem b)).store b (s.mem a)
    swapped := s.swapped ++ [(a, b)] }

/-- `for (k = 0; k < stride; k += 1)`, with the rounds that are left. -/
def swapBytes : ℕ → BitVec w → BitVec w → SortState w σ → SortState w σ
  | 0, _, _, s => s
  | k + 1, a, b, s => swapBytes k (a + 1) (b + 1) (s.swapByte a b)

/-- The address of the element at an index. -/
def SortArgs.element (A : SortArgs w σ) (i : ℕ) : BitVec w :=
  Lists.element A.pBase A.stride (BitVec.ofNat w i)

/-- The call of the callback for two elements. -/
def SortArgs.compare (A : SortArgs w σ) (pA pB : BitVec w) (s : SortState w σ) :
    Int × SortState w σ :=
  let r := A.compareProc A.pUserData pA pB s.mem s.user
  (r.1, { s with user := r.2, compared := s.compared ++ [(pA, pB)] })

/-- `for (j = i; j > 0; j -= 1)`; the element at `j + 1` is compared with the one
at `j`. -/
def insertLoop (A : SortArgs w σ) : ℕ → SortState w σ → SortState w σ
  | 0, s => s
  | j + 1, s =>
    let pA := A.element j
    let pB := A.element (j + 1)
    let r := A.compare pA pB s
    if r.1 ≤ 0 then r.2 else insertLoop A j (swapBytes A.stride.toNat pA pB r.2)

/-- `for (i = 1; i < count; i += 1)`, with the rounds that are left. -/
def sortLoop (A : SortArgs w σ) : ℕ → ℕ → SortState w σ → SortState w σ
  | 0, _, s => s
  | n + 1, i, s => sortLoop A n (i + 1) (insertLoop A i s)

def nsSort (A : SortArgs w σ) (s : SortState w σ) : SortState w σ :=
  sortLoop A (A.count.toNat - 1) 1 s

/-! ## Exchanging bytes -/

section Swap

variable {a b : BitVec w} {k : ℕ} {s : SortState w σ}

/-- The last round of the loop. -/
theorem swapBytes_succ : swapBytes (k + 1) a b s
    = (swapBytes k a b s).swapByte (a + BitVec.ofNat w k) (b + BitVec.ofNat w k) := by
  induction k generalizing a b s with
  | zero => simp [swapBytes]
  | succ k ih =>
    have hone : ∀ p : BitVec w, p + 1 + BitVec.ofNat w k = p + BitVec.ofNat w (k + 1) := fun p => by
      rw [Nat.add_comm, ← offset_add]
      rfl
    rw [swapBytes, ih, hone, hone]
    rfl

/-- **The loop exchanges the two runs of bytes.** -/
theorem swapBytes_spec (hab : a.toNat + k ≤ b.toNat) (hb : b.toNat + k ≤ 2 ^ w) :
    (∀ i < k, (swapBytes k a b s).mem (a + BitVec.ofNat w i) = s.mem (b + BitVec.ofNat w i) ∧
      (swapBytes k a b s).mem (b + BitVec.ofNat w i) = s.mem (a + BitVec.ofNat w i)) ∧
    ∀ x, ¬ InRange a k x → ¬ InRange b k x → (swapBytes k a b s).mem x = s.mem x := by
  induction k with
  | zero => exact ⟨fun i hi => absurd hi (Nat.not_lt_zero i), fun _ _ _ => rfl⟩
  | succ k ih =>
    obtain ⟨hin, hout⟩ := ih (by omega) (by omega)
    have hA : ∀ i ≤ k, (a + BitVec.ofNat w i).toNat = a.toNat + i := fun i hi =>
      toNat_offset (by omega)
    have hB : ∀ i ≤ k, (b + BitVec.ofNat w i).toNat = b.toNat + i := fun i hi =>
      toNat_offset (by omega)
    have hne : ∀ {x y : BitVec w}, x.toNat ≠ y.toNat → x ≠ y := fun h e => h (by rw [e])
    set aₖ := a + BitVec.ofNat w k with haₖ
    set bₖ := b + BitVec.ofNat w k with hbₖ
    have hrange : ∀ {p x : BitVec w}, p.toNat + k ≤ 2 ^ w → p.toNat + k ≤ x.toNat ∨
        x.toNat < p.toNat → ¬ InRange p k x := fun {p x} hp hx h => by
      rw [inRange_iff hp] at h
      omega
    have hlastA : (swapBytes k a b s).mem aₖ = s.mem aₖ := by
      refine hout _ (hrange (by omega) (Or.inl ?_)) (hrange (by omega) (Or.inr ?_))
      · rw [hA k le_rfl]
      · rw [hA k le_rfl]
        omega
    have hlastB : (swapBytes k a b s).mem bₖ = s.mem bₖ := by
      refine hout _ (hrange (by omega) (Or.inl ?_)) (hrange (by omega) (Or.inl ?_))
      · rw [hB k le_rfl]
        omega
      · rw [hB k le_rfl]
    have hmem : (swapBytes (k + 1) a b s).mem
        = ((swapBytes k a b s).mem.store aₖ (s.mem bₖ)).store bₖ (s.mem aₖ) := by
      rw [swapBytes_succ, ← hlastA, ← hlastB]
      rfl
    rw [hmem]
    refine ⟨fun i hi => ?_, fun x hxa hxb => ?_⟩
    · rcases Nat.lt_succ_iff_lt_or_eq.1 hi with hlt | rfl
      · have h1 := hA i hlt.le
        have h2 := hB i hlt.le
        have h3 : aₖ.toNat = a.toNat + k := hA k le_rfl
        have h4 : bₖ.toNat = b.toNat + k := hB k le_rfl
        rw [Mem.store_of_ne (hne (by omega)), Mem.store_of_ne (hne (by omega)),
          Mem.store_of_ne (hne (by omega)), Mem.store_of_ne (hne (by omega))]
        exact hin i hlt
      · rw [Mem.store_of_ne (hne (by rw [hA i le_rfl, hB i le_rfl]; omega))]
        exact ⟨Mem.store_self, Mem.store_self⟩
    · have hmono : ∀ {p : BitVec w}, ¬ InRange p (k + 1) x → ¬ InRange p k x := fun h hx =>
        h (hx.mono (Nat.le_succ k))
      rw [Mem.store_of_ne, Mem.store_of_ne, hout x (hmono hxa) (hmono hxb)]
      · rintro rfl
        exact hxa (inRange_offset (Nat.lt_succ_self k) (by omega))
      · rintro rfl
        exact hxb (inRange_offset (Nat.lt_succ_self k) (by omega))

end Swap

end Refcode.Lists
