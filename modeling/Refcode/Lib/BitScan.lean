import Mathlib

/-!
# Lowest and highest set bit

The lowest set bit of a word is where its trailing zeros end, the highest one where
its leading zeros end.  Both are followed through what a program does to find them:
shifting zeros out, widening or truncating the word, and isolating the lowest bit
with `x &&& -x`.
-/

namespace Refcode.Lib

variable {w v : ℕ} {x : BitVec w} {k n : ℕ}

/-- Bit `k` is set and no lower one. -/
structure LowestBit (x : BitVec w) (k : ℕ) : Prop where
  set : x.getLsbD k = true
  below : ∀ i < k, x.getLsbD i = false

/-- Bit `k` is set and no higher one. -/
structure HighestBit (x : BitVec w) (k : ℕ) : Prop where
  set : x.getLsbD k = true
  above : ∀ i, k < i → x.getLsbD i = false

/-! ## The counts -/

theorem natCast_self_toNat : ((w : BitVec w)).toNat = w := by
  rw [BitVec.natCast_eq_ofNat, BitVec.toNat_ofNat, Nat.mod_eq_of_lt Nat.lt_two_pow_self]

theorem clz_lt (hx : x ≠ 0#w) : x.clz.toNat < w := by
  have h := BitVec.clz_lt_iff_ne_zero.mpr hx
  rwa [BitVec.lt_def, natCast_self_toNat] at h

theorem ctz_lt (hx : x ≠ 0#w) : x.ctz.toNat < w := by
  have h := BitVec.ctz_lt_iff_ne_zero.mpr hx
  rwa [BitVec.lt_def, natCast_self_toNat] at h

@[simp] theorem clz_zero : (0#w).clz.toNat = w := by
  rw [BitVec.clz_eq_iff_eq_zero.mpr rfl, natCast_self_toNat]

@[simp] theorem ctz_zero : (0#w).ctz.toNat = w := by
  rw [BitVec.ctz_eq_reverse_clz, BitVec.reverse_eq_zero_iff.mpr rfl, clz_zero]

/-- Where the trailing zeros of a nonzero word end. -/
theorem lowestBit_ctz (hx : x ≠ 0#w) : LowestBit x x.ctz.toNat :=
  ⟨BitVec.getLsbD_true_ctz_of_ne_zero hx, fun _ hi => BitVec.getLsbD_false_of_lt_ctz hi⟩

/-- Where the leading zeros of a nonzero word end. -/
theorem highestBit_clz (hx : x ≠ 0#w) : HighestBit x (w - 1 - x.clz.toNat) := by
  have hlt := clz_lt hx
  constructor
  · exact BitVec.getLsbD_true_clz_of_ne_zero (by omega) hx
  · intro i hi
    have hbound := BitVec.toNat_lt_two_pow_sub_clz (x := x)
    apply Nat.testBit_lt_two_pow
    exact hbound.trans_le (Nat.pow_le_pow_right (by norm_num) (by omega))

namespace LowestBit

theorem ne_zero (h : LowestBit x k) : x ≠ 0#w := by
  rintro rfl
  simpa using h.set

theorem lt (h : LowestBit x k) : k < w := BitVec.lt_of_getLsbD h.set

/-- A word has one lowest bit. -/
theorem unique (h : LowestBit x k) (h' : LowestBit x n) : k = n := by
  rcases Nat.lt_trichotomy k n with hlt | heq | hlt
  · exact absurd h.set (by simp [h'.below k hlt])
  · exact heq
  · exact absurd h'.set (by simp [h.below n hlt])

theorem ctz (h : LowestBit x k) : x.ctz.toNat = k := (lowestBit_ctz h.ne_zero).unique h

/-- Another type keeps the lowest bit if it has that bit. -/
theorem setWidth (h : LowestBit x k) (hv : k < v) : LowestBit (x.setWidth v) k := by
  constructor
  · rw [BitVec.getLsbD_setWidth, h.set, decide_eq_true hv, Bool.and_true]
  · intro i hi
    rw [BitVec.getLsbD_setWidth, h.below i hi, Bool.and_false]

/-- Shifting out `n` zeros moves the lowest bit down by `n`. -/
theorem shift (h : LowestBit x k) (hn : n ≤ k) : LowestBit (x >>> n) (k - n) := by
  constructor
  · rw [BitVec.getLsbD_ushiftRight, Nat.add_sub_cancel' hn, h.set]
  · intro i hi
    rw [BitVec.getLsbD_ushiftRight, h.below (n + i) (by omega)]

/-- **Isolation.**  `x & -x` keeps exactly the lowest bit. -/
theorem isolate (h : LowestBit x k) : x &&& -x = BitVec.twoPow w k := by
  apply BitVec.eq_of_getLsbD_eq
  intro i hi
  rw [BitVec.getLsbD_and, BitVec.getLsbD_neg, BitVec.getLsbD_twoPow]
  rcases Nat.lt_trichotomy i k with hlt | rfl | hlt
  · simp [h.below i hlt, Nat.ne_of_gt hlt]
  · have hnone : ¬∃ j < i, x.getLsbD j = true := by
      rintro ⟨j, hj, hset⟩
      simp [h.below j hj] at hset
    simp [h.set, hnone, hi]
  · have hsome : ∃ j < i, x.getLsbD j = true := ⟨k, hlt, h.set⟩
    simp [hsome, hi, Nat.ne_of_lt hlt]

end LowestBit

namespace HighestBit

theorem ne_zero (h : HighestBit x k) : x ≠ 0#w := by
  rintro rfl
  simpa using h.set

theorem lt (h : HighestBit x k) : k < w := BitVec.lt_of_getLsbD h.set

/-- A word has one highest bit. -/
theorem unique (h : HighestBit x k) (h' : HighestBit x n) : k = n := by
  rcases Nat.lt_trichotomy k n with hlt | heq | hlt
  · exact absurd h'.set (by simp [h.above n hlt])
  · exact heq
  · exact absurd h.set (by simp [h'.above k hlt])

theorem clz (h : HighestBit x k) : x.clz.toNat = w - 1 - k := by
  have hc := clz_lt h.ne_zero
  have hk := (highestBit_clz h.ne_zero).unique h
  omega

/-- Another type keeps the highest bit if it has that bit. -/
theorem setWidth (h : HighestBit x k) (hv : k < v) : HighestBit (x.setWidth v) k := by
  constructor
  · rw [BitVec.getLsbD_setWidth, h.set, decide_eq_true hv, Bool.and_true]
  · intro i hi
    rw [BitVec.getLsbD_setWidth, h.above i hi, Bool.and_false]

/-- Dropping `n` lower bits moves the highest bit down by `n`. -/
theorem drop (h : HighestBit x k) (hn : n ≤ k) : HighestBit (x >>> n) (k - n) := by
  constructor
  · rw [BitVec.getLsbD_ushiftRight, Nat.add_sub_cancel' hn, h.set]
  · intro i hi
    rw [BitVec.getLsbD_ushiftRight, h.above (n + i) (by omega)]

/-- Shifting out `n` zeros moves the highest bit up by `n`. -/
theorem shift (h : HighestBit x k) (hn : k + n < w) : HighestBit (x <<< n) (k + n) := by
  constructor
  · rw [BitVec.getLsbD_shiftLeft, Nat.add_sub_cancel, h.set]
    simp [hn]
  · intro i hi
    rw [BitVec.getLsbD_shiftLeft, h.above (i - n) (by omega), Bool.and_false]

end HighestBit

/-! ## Powers of two -/

/-- The powers of two that divide a nonzero word. -/
theorem two_pow_dvd_iff (hx : x ≠ 0#w) : 2 ^ k ∣ x.toNat ↔ k ≤ x.ctz.toNat := by
  have hlow := lowestBit_ctz hx
  constructor
  · rintro ⟨q, hq⟩
    by_contra hlt
    have hset := hlow.set
    rw [BitVec.getLsbD, hq, Nat.testBit_two_pow_mul] at hset
    simp [hlt] at hset
  · intro hk
    apply Nat.dvd_of_mod_eq_zero
    apply Nat.eq_of_testBit_eq
    intro i
    rw [Nat.testBit_mod_two_pow, Nat.zero_testBit]
    rcases Nat.lt_or_ge i k with hi | hi
    · rw [← BitVec.getLsbD, hlow.below i (by omega), Bool.and_false]
    · simp [Nat.not_lt.mpr hi]

theorem twoPow_lowestBit (hk : k < w) : LowestBit (BitVec.twoPow w k) k := by
  constructor
  · simp [hk]
  · intro i hi
    simp [Nat.ne_of_gt hi]

theorem twoPow_highestBit (hk : k < w) : HighestBit (BitVec.twoPow w k) k := by
  constructor
  · simp [hk]
  · intro i hi
    simp [Nat.ne_of_lt hi]

/-- The lowest bit is the highest one exactly in the powers of two. -/
theorem LowestBit.eq_highest_iff (h : LowestBit x k) (h' : HighestBit x n) :
    k = n ↔ ∃ j < w, x = BitVec.twoPow w j := by
  constructor
  · rintro rfl
    refine ⟨k, h.lt, BitVec.eq_of_getLsbD_eq fun i hi => ?_⟩
    rw [BitVec.getLsbD_twoPow]
    rcases Nat.lt_trichotomy i k with hlt | rfl | hlt
    · simp [h.below i hlt, Nat.ne_of_gt hlt]
    · simp [h.set, hi]
    · simp [h'.above i hlt, Nat.ne_of_lt hlt]
  · rintro ⟨j, hj, rfl⟩
    rw [h.unique (twoPow_lowestBit hj), h'.unique (twoPow_highestBit hj)]

/-- The position from the leading zeros is that from the trailing zeros exactly in the
powers of two. -/
theorem highest_eq_ctz_iff (hx : x ≠ 0#w) :
    w - 1 - x.clz.toNat = x.ctz.toNat ↔ ∃ j < w, x = BitVec.twoPow w j := by
  rw [eq_comm]
  exact (lowestBit_ctz hx).eq_highest_iff (highestBit_clz hx)

/-- With the lowest bit isolated, the leading zeros give the position of that bit. -/
theorem clz_isolate (hx : x ≠ 0#w) : w - 1 - (x &&& -x).clz.toNat = x.ctz.toNat := by
  have hk := ctz_lt hx
  rw [(lowestBit_ctz hx).isolate, (twoPow_highestBit hk).clz]
  omega

/-! ## A narrow type on the way -/

/-- A word that starts with `k` zeros is a small one. -/
theorem le_clz_iff (hk : k ≤ w) : k ≤ x.clz.toNat ↔ x.toNat < 2 ^ (w - k) := by
  constructor
  · intro hle
    exact BitVec.toNat_lt_two_pow_sub_clz.trans_le (Nat.pow_le_pow_right (by norm_num) (by omega))
  · intro hlt
    by_cases hx : x = 0#w
    · rw [hx, clz_zero]
      exact hk
    · have hw := clz_lt hx
      have hge := BitVec.two_pow_sub_clz_le_toNat_of_ne_zero (by omega) hx
      have hexp := (Nat.pow_lt_pow_iff_right (by norm_num)).mp (hge.trans_lt hlt)
      omega

theorem toNat_narrow (hv : v ≤ w) : ((x.setWidth v).setWidth w).toNat = x.toNat % 2 ^ v := by
  have hlt : x.toNat % 2 ^ v < 2 ^ w :=
    (Nat.mod_lt _ (by positivity)).trans_le (Nat.pow_le_pow_right (by norm_num) hv)
  rw [BitVec.toNat_setWidth, BitVec.toNat_setWidth, Nat.mod_eq_of_lt hlt]

/-- The trailing zeros survive a narrow type if it has the lowest bit, or there is
none. -/
theorem ctz_narrow_iff (hv : v ≤ w) :
    ((x.setWidth v).setWidth w).ctz.toNat = x.ctz.toNat ↔ x.setWidth v ≠ 0#v ∨ x = 0#w := by
  by_cases hx : x = 0#w
  · simp [hx]
  · by_cases hzero : x.setWidth v = 0#v
    · have hlt := ctz_lt hx
      rw [hzero, BitVec.setWidth_zero, ctz_zero]
      simp only [ne_eq, not_true_eq_false, hx, or_self, iff_false]
      omega
    · have hnarrow := lowestBit_ctz hzero
      have hlow : LowestBit x (x.setWidth v).ctz.toNat := by
        constructor
        · have hset := hnarrow.set
          rw [BitVec.getLsbD_setWidth, Bool.and_eq_true] at hset
          exact hset.2
        · intro i hi
          have hbelow := hnarrow.below i hi
          rw [BitVec.getLsbD_setWidth, decide_eq_true (hi.trans hnarrow.lt),
            Bool.true_and] at hbelow
          exact hbelow
      rw [(hnarrow.setWidth (hnarrow.lt.trans_le hv)).ctz, hlow.ctz]
      simp [hzero]

/-- The leading zeros survive it only if the whole word does. -/
theorem clz_narrow_iff (hv : v ≤ w) :
    ((x.setWidth v).setWidth w).clz.toNat = x.clz.toNat ↔ x.toNat < 2 ^ v := by
  have hnarrow := toNat_narrow (x := x) hv
  constructor
  · intro heq
    have hsmall : ((x.setWidth v).setWidth w).toNat < 2 ^ (w - (w - v)) := by
      rw [hnarrow, Nat.sub_sub_self hv]
      exact Nat.mod_lt _ (by positivity)
    have hle := (le_clz_iff (Nat.sub_le w v)).mpr hsmall
    rw [heq] at hle
    have hlt := (le_clz_iff (Nat.sub_le w v)).mp hle
    rwa [Nat.sub_sub_self hv] at hlt
  · intro hlt
    have hself : (x.setWidth v).setWidth w = x := by
      apply BitVec.eq_of_toNat_eq
      rw [hnarrow, Nat.mod_eq_of_lt hlt]
    rw [hself]

end Refcode.Lib
