import Refcode.Lib.Word

/-!
# Power-of-two alignment by masking

For a power of two `a`, the test `a & (a - 1) = 0` recognises it and the mask
`x & ~(a - 1)` rounds `x` down to a multiple of it.  Both are stated for words of
any width: `and_sub_one_eq_zero_iff` and `toNat_and_not_sub_one`.  Applied to
`y + (a - 1)` the mask rounds `y` up (`isLeast_and_not_sub_one`).
-/

namespace Refcode.Lib

variable {w k : ℕ} {a x : BitVec w}

/-- `a & (a - 1)` vanishes exactly for powers of two. -/
theorem and_sub_one_eq_zero_iff (h : a ≠ 0) :
    a &&& (a - 1) = 0 ↔ ∃ k, a.toNat = 2 ^ k := by
  rw [BitVec.toNat_eq, BitVec.toNat_and, toNat_sub_one h]
  exact Nat.and_sub_one_eq_zero_iff_isPowerOfTwo (toNat_ne_zero h)

/-- **Masking rounds down.**  Clearing the bits below a power of two leaves the
greatest multiple of it that does not exceed `x`. -/
theorem toNat_and_not_sub_one (h : a.toNat = 2 ^ k) :
    (x &&& ~~~(a - 1)).toNat = x.toNat / 2 ^ k * 2 ^ k := by
  have hne : a ≠ 0 := by
    rintro rfl
    have hpos : 0 < 2 ^ k := Nat.two_pow_pos k
    rw [← h] at hpos
    simp at hpos
  have hsplit : x &&& (a - 1) ||| x &&& ~~~(a - 1) = x := by
    ext i hi
    simp only [BitVec.getElem_or, BitVec.getElem_and, BitVec.getElem_not]
    cases x[i] <;> cases (a - 1)[i] <;> rfl
  have hdisj : x &&& (a - 1) &&& (x &&& ~~~(a - 1)) = 0#w := by
    ext i hi
    simp only [BitVec.getElem_and, BitVec.getElem_not, BitVec.getElem_zero]
    cases x[i] <;> cases (a - 1)[i] <;> rfl
  have hlow : (x &&& (a - 1)).toNat = x.toNat % 2 ^ k := by
    rw [BitVec.toNat_and, toNat_sub_one hne, h, Nat.and_two_pow_sub_one_eq_mod]
  have hsum : x.toNat = (x &&& (a - 1)).toNat + (x &&& ~~~(a - 1)).toNat := by
    rw [← BitVec.toNat_add_of_and_eq_zero hdisj, BitVec.add_eq_or_of_and_eq_zero _ _ hdisj, hsplit]
  have := Nat.div_add_mod x.toNat (2 ^ k)
  rw [mul_comm]
  omega

section Bounds

variable (h : a.toNat = 2 ^ k)
include h

theorem dvd_toNat_and_not_sub_one : a.toNat ∣ (x &&& ~~~(a - 1)).toNat := by
  rw [toNat_and_not_sub_one h, h]
  exact Dvd.intro_left _ rfl

theorem toNat_and_not_sub_one_le : (x &&& ~~~(a - 1)).toNat ≤ x.toNat := by
  rw [toNat_and_not_sub_one h]
  exact Nat.div_mul_le_self _ _

/-- Rounding down loses less than one alignment unit. -/
theorem lt_toNat_and_not_sub_one_add : x.toNat < (x &&& ~~~(a - 1)).toNat + a.toNat := by
  have := Nat.div_add_mod x.toNat (2 ^ k)
  have := Nat.mod_lt x.toNat (Nat.two_pow_pos k)
  rw [toNat_and_not_sub_one h, h, mul_comm]
  omega

/-- **Masking rounds up** what has been raised by one less than an alignment unit. -/
theorem isLeast_and_not_sub_one {y : ℕ} (hx : x.toNat = y + (a.toNat - 1)) :
    IsLeast {m | a.toNat ∣ m ∧ y ≤ m} (x &&& ~~~(a - 1)).toNat := by
  have hdvd := dvd_toNat_and_not_sub_one (x := x) h
  have hle := toNat_and_not_sub_one_le (x := x) h
  have hlt := lt_toNat_and_not_sub_one_add (x := x) h
  constructor
  · exact ⟨hdvd, by omega⟩
  · rintro m ⟨hm, hym⟩
    by_contra hsmall
    -- the next multiple after `m` is past `x`
    have hgap := Nat.le_of_dvd (by omega) (Nat.dvd_sub hdvd hm)
    omega

end Bounds

/-- Two multiples of `d` are equal if they are less than `d` apart. -/
theorem eq_of_dvd_of_lt_add {d m n : ℕ} (hm : d ∣ m) (hn : d ∣ n) (hle : m ≤ n)
    (hlt : n < m + d) : n = m := by
  have hzero : n - m = 0 := Nat.eq_zero_of_dvd_of_lt (Nat.dvd_sub hn hm) (by omega)
  omega

end Refcode.Lib
