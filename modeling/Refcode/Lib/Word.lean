import Mathlib

/-!
# Arithmetic on machine words

When a computation modulo `2^w` is the one on numbers: counting up below a bound,
counting down above zero, and the middle of two bounds.
-/

namespace Refcode.Lib

variable {w : ℕ} {a b : BitVec w}

theorem toNat_ne_zero (h : a ≠ 0) : a.toNat ≠ 0 :=
  fun h0 => h (BitVec.eq_of_toNat_eq (by simpa using h0))

theorem toNat_small {n : ℕ} (h : n < 2 ^ w) : (BitVec.ofNat w n).toNat = n := by
  rw [BitVec.toNat_ofNat, Nat.mod_eq_of_lt h]

/-- A literal of `k` bits is the number it says in every type that is as wide. -/
theorem toNat_literal {n k : ℕ} (h : n < 2 ^ k) (hk : k ≤ w) : (BitVec.ofNat w n).toNat = n :=
  toNat_small (h.trans_le (Nat.pow_le_pow_right (by norm_num) hk))

/-- A number that is small enough survives a change of width. -/
theorem toNat_setWidth_of_le {v n : ℕ} (h : a.toNat ≤ n) (hn : n < 2 ^ v) :
    (a.setWidth v).toNat = a.toNat := by
  rw [BitVec.toNat_setWidth, Nat.mod_eq_of_lt (by omega)]

theorem ne_zero_of_lt_toNat {n : ℕ} (h : n < a.toNat) : a ≠ 0 := by
  rintro rfl
  simp at h

theorem toNat_sub_one (h : a ≠ 0) : (a - 1).toNat = a.toNat - 1 := by
  have ha := toNat_ne_zero h
  have hw : w ≠ 0 := by rintro rfl; exact h (Subsingleton.elim _ _)
  have h1 : (1 : BitVec w).toNat = 1 := toNat_small (Nat.one_lt_two_pow hw)
  rw [BitVec.toNat_sub_of_le (by rw [BitVec.le_def, h1]; omega), h1]

theorem toNat_sub_one_add_one (h : a ≠ 0) : (a - 1).toNat + 1 = a.toNat := by
  have ha := toNat_ne_zero h
  rw [toNat_sub_one h]
  omega

/-- A word below another one can be counted up. -/
theorem toNat_add_one (h : a < b) : (a + 1).toNat = a.toNat + 1 := by
  rw [BitVec.lt_def] at h
  have hb := b.isLt
  have hw : w ≠ 0 := by rintro rfl; omega
  have h1 : (1 : BitVec w).toNat = 1 := toNat_small (Nat.one_lt_two_pow hw)
  rw [BitVec.toNat_add_of_lt (by rw [h1]; omega), h1]

/-- Subtracting from a literal. -/
theorem toNat_literal_sub {n : ℕ} {c : BitVec w} (hn : n < 2 ^ w) (h : c.toNat ≤ n) :
    (BitVec.ofNat w n - c).toNat = n - c.toNat := by
  rw [BitVec.toNat_sub_of_le (by rwa [BitVec.le_def, toNat_small hn]), toNat_small hn]

/-- Subtracting in a wider type loses nothing. -/
theorem toNat_sub_narrow {v : ℕ} {c : BitVec v} (hv : w ≤ v) (h : c.toNat ≤ a.toNat) :
    ((a.setWidth v - c).setWidth w).toNat = a.toNat - c.toNat := by
  have ha := a.isLt
  have hpow : 2 ^ w ≤ 2 ^ v := Nat.pow_le_pow_right (by norm_num) hv
  have hwide : (a.setWidth v).toNat = a.toNat := toNat_setWidth_of_le le_rfl (ha.trans_le hpow)
  rw [BitVec.toNat_setWidth, BitVec.toNat_sub_of_le (by rw [BitVec.le_def, hwide]; exact h), hwide,
    Nat.mod_eq_of_lt (by omega)]

/-- The middle of two bounds, computed from the lower one. -/
theorem toNat_mid (hw : 2 ≤ w) (h : a ≤ b) :
    (a + (b - a) / 2).toNat = a.toNat + (b.toNat - a.toNat) / 2 := by
  have h2 : (2 : BitVec w).toNat = 2 := toNat_literal (by norm_num) hw
  have hhalf : ((b - a) / 2).toNat = (b.toNat - a.toNat) / 2 := by
    rw [BitVec.toNat_udiv, BitVec.toNat_sub_of_le h, h2]
  have hb := b.isLt
  rw [BitVec.le_def] at h
  rw [BitVec.toNat_add_of_lt (by rw [hhalf]; omega), hhalf]

end Refcode.Lib
