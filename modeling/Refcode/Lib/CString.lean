import Mathlib
import Refcode.Lib.Memory

/-!
# C strings

A C string is the characters from an address on, up to the first that is zero.  Strings
are ordered like lists of numbers, the characters taken as unsigned.

* `CString.unique`, `CString.length_lt` — there is one at most, and it ends.
* `IsStrcmp` — what is promised of `strcmp`.
* `isStrcmp_strcmpBytes` — going through both strings byte by byte keeps the promise.
-/

namespace Refcode.Lib

/-! ## The side of an element -/

section Side

variable {α : Type*} [LinearOrder α] {a b k : α}

/-- The sign of a comparison: below zero if the first element is smaller. -/
def side (a b : α) : SignType := if a < b then -1 else if a = b then 0 else 1

theorem side_eq_zero_iff : side a b = 0 ↔ a = b := by
  unfold side
  rcases lt_trichotomy a b with h | h | h
  · simp [h, h.ne]
  · simp [h]
  · simp [h.not_gt, h.ne']

theorem side_eq_neg_one_iff : side a b = -1 ↔ a < b := by
  unfold side
  rcases lt_trichotomy a b with h | h | h
  · simp [h]
  · simp [h]
  · simp [h.not_gt, h.ne']

/-- Compared with a greater element the sign is lower. -/
theorem side_le (h : a ≤ b) : side k b ≤ side k a := by
  rcases lt_trichotomy k a with hlt | rfl | hgt
  · rw [side_eq_neg_one_iff.mpr (hlt.trans_le h)]
    exact SignType.neg_one_le _
  · rcases h.lt_or_eq with hlt | rfl
    · rw [side_eq_neg_one_iff.mpr hlt]
      exact SignType.neg_one_le _
    · exact le_rfl
  · rw [show side k a = 1 by simp [side, hgt.not_gt, hgt.ne']]
    exact SignType.le_one _

end Side

/-! ## Strings in memory -/

variable {w : ℕ} {m : Mem w} {p q : BitVec w} {s t : List ℕ} {fuel : ℕ}

/-- The string at an address, as the codes of its characters. -/
inductive CString (m : Mem w) : BitVec w → List ℕ → Prop
  | nul {p : BitVec w} : m p = 0 → CString m p []
  | char {p : BitVec w} {s : List ℕ} :
      m p ≠ 0 → CString m (p + 1) s → CString m p ((m p).toNat :: s)

/-- Read the string at an address, of less than `fuel` characters. -/
def readString (m : Mem w) : ℕ → BitVec w → Option (List ℕ)
  | 0, _ => none
  | fuel + 1, p =>
    if m p = 0 then some [] else (readString m fuel (p + 1)).map ((m p).toNat :: ·)

theorem readString_sound (h : readString m fuel p = some s) : CString m p s := by
  induction fuel generalizing p s with
  | zero => simp [readString] at h
  | succ fuel ih =>
    rw [readString] at h
    by_cases hnul : m p = 0
    · simp only [hnul, if_true, Option.some.injEq] at h
      rw [← h]
      exact .nul hnul
    · simp only [hnul, if_false, Option.map_eq_some_iff] at h
      obtain ⟨rest, hrest, rfl⟩ := h
      exact .char hnul (ih hrest)

/-- **There is one string at an address, at most.** -/
theorem CString.unique (hs : CString m p s) (ht : CString m p t) : s = t := by
  induction hs generalizing t with
  | nul hnul =>
    cases ht with
    | nul _ => rfl
    | char hchar _ => exact absurd hnul hchar
  | char hchar _ ih =>
    cases ht with
    | nul hnul => exact absurd hnul hchar
    | char _ hrest => rw [ih hrest]

/-- A character that is not zero is positive. -/
theorem toNat_pos_of_ne_zero {b : Byte} (h : b ≠ 0) : 0 < b.toNat :=
  Nat.pos_of_ne_zero fun h0 => h (BitVec.eq_of_toNat_eq h0)

/-- The rest of a string is a string. -/
theorem CString.drop (hs : CString m p s) {i : ℕ} (hi : i ≤ s.length) :
    CString m (p + BitVec.ofNat w i) (s.drop i) := by
  induction hs generalizing i with
  | nul hnul =>
    obtain rfl : i = 0 := by simpa using hi
    simpa using CString.nul hnul
  | @char p s hchar hrest ih =>
    cases i with
    | zero => simpa using CString.char hchar hrest
    | succ i =>
      have hnext := ih (i := i) (by simpa using hi)
      rw [BitVec.add_assoc, show (1 : BitVec w) = BitVec.ofNat w 1 from rfl, ← BitVec.ofNat_add,
        Nat.add_comm 1 i] at hnext
      simpa using hnext

/-- **A string ends before it comes back to its first character.** -/
theorem CString.length_lt (hs : CString m p s) : s.length < 2 ^ w := by
  by_contra hlong
  have hround := hs.drop (i := 2 ^ w) (by omega)
  have hwrap : p + BitVec.ofNat w (2 ^ w) = p := by
    apply BitVec.eq_of_toNat_eq
    rw [BitVec.toNat_add, BitVec.toNat_ofNat, Nat.mod_self, Nat.add_zero,
      Nat.mod_eq_of_lt p.isLt]
  rw [hwrap] at hround
  have hlen := congrArg List.length (hs.unique hround)
  have hpos : 0 < 2 ^ w := by positivity
  rw [List.length_drop] at hlen
  omega

/-! ## Comparing -/

/-- What is promised of `strcmp`: the sign of its answer. -/
def IsStrcmp (strcmp : Mem w → BitVec w → BitVec w → ℤ) : Prop :=
  ∀ m p q s t, CString m p s → CString m q t → SignType.sign (strcmp m p q) = side s t

/-- Compare byte by byte, up to the first difference or to the end of both. -/
def strcmpFrom (m : Mem w) : ℕ → BitVec w → BitVec w → ℤ
  | 0, _, _ => 0
  | fuel + 1, p, q =>
    if m p ≠ m q then (m p).toNat - (m q).toNat
    else if m p = 0 then 0
    else strcmpFrom m fuel (p + 1) (q + 1)

def strcmpBytes (m : Mem w) (p q : BitVec w) : ℤ := strcmpFrom m (2 ^ w) p q

@[simp] theorem side_nil_nil : side ([] : List ℕ) [] = 0 := by simp [side]

@[simp] theorem side_nil_cons {a : ℕ} : side [] (a :: t) = -1 := by simp [side]

@[simp] theorem side_cons_nil {a : ℕ} : side (a :: s) [] = 1 := by simp [side]

theorem side_cons_cons {a b : ℕ} :
    side (a :: s) (b :: t) = if a = b then side s t else SignType.sign ((a : ℤ) - b) := by
  rcases lt_trichotomy a b with h | rfl | h
  · have hneg : (a : ℤ) - b < 0 := by omega
    simp [side, List.cons_lt_cons_iff, h, h.ne, sign_neg hneg]
  · rw [if_pos rfl]
    rcases lt_trichotomy s t with hs | rfl | hs
    · simp [side, hs]
    · simp [side]
    · simp [side, hs.not_gt, hs.ne']
  · have hpos : 0 < (a : ℤ) - b := by omega
    simp [side, List.cons_lt_cons_iff, h.not_gt, h.ne', sign_pos hpos]

theorem strcmpFrom_sign (hs : CString m p s) (ht : CString m q t) (hfuel : s.length < fuel) :
    SignType.sign (strcmpFrom m fuel p q) = side s t := by
  induction hs generalizing q t fuel with
  | @nul p hp =>
    obtain ⟨fuel, rfl⟩ := Nat.exists_eq_succ_of_ne_zero (Nat.ne_zero_of_lt hfuel)
    cases ht with
    | nul hq => simp [strcmpFrom, hp, hq]
    | char hq _ =>
      have hpos : 0 < (m q).toNat := toNat_pos_of_ne_zero hq
      have hne : m p ≠ m q := fun heq => hq (heq.symm.trans hp)
      rw [strcmpFrom, if_pos hne, side_nil_cons, sign_eq_neg_one_iff, hp]
      simpa using hpos
  | @char p s hp _ ih =>
    obtain ⟨fuel, rfl⟩ := Nat.exists_eq_succ_of_ne_zero (Nat.ne_zero_of_lt hfuel)
    cases ht with
    | nul hq =>
      have hpos : 0 < (m p).toNat := toNat_pos_of_ne_zero hp
      have hne : m p ≠ m q := fun heq => hp (heq.trans hq)
      rw [strcmpFrom, if_pos hne, side_cons_nil, sign_eq_one_iff, hq]
      simpa using hpos
    | char hq hrest =>
      rw [side_cons_cons]
      by_cases heq : m p = m q
      · rw [strcmpFrom, if_neg (not_not.mpr heq), if_neg hp, if_pos (congrArg BitVec.toNat heq)]
        exact ih hrest (by simpa using hfuel)
      · have hne : (m p).toNat ≠ (m q).toNat := fun h => heq (BitVec.eq_of_toNat_eq h)
        rw [strcmpFrom, if_pos heq, if_neg hne]

/-- **Comparing byte by byte** answers as `strcmp` has to. -/
theorem isStrcmp_strcmpBytes : IsStrcmp (strcmpBytes (w := w)) := by
  intro m p q s t hs ht
  exact strcmpFrom_sign hs ht hs.length_lt

end Refcode.Lib
