import Mathlib

/-!
# Flat byte memories with machine-word addresses

A memory is a map from `w`-bit addresses to bytes.  Address arithmetic wraps
modulo `2^w`, so an interval of addresses is given by its first address and its
length (`InRange`); when it does not pass the top of the address space it is the
ordinary interval of numbers (`inRange_iff`).

* `Mem.store`, `Mem.fill`, `Mem.move` — a single byte store, the same byte many times
  (`memset`), and a block move that reads all of its source before it writes (`memmove`).
* `Mem.storeWord`, `Mem.loadWord` — a machine word of `q` bytes, little-endian,
  with its two laws: a load sees the last store to the same place
  (`loadWord_storeWord`) and only depends on the bytes it covers
  (`loadWord_congr`).
* `Mem.read` — the list of bytes in a range, for stating what a memory holds.
-/

namespace Refcode.Lib

/-- One byte. -/
abbrev Byte := BitVec 8

/-- A byte memory over `w`-bit addresses. -/
abbrev Mem (w : ℕ) := BitVec w → Byte

/-! ## Intervals of addresses -/

section Range

variable {w : ℕ} {p a : BitVec w} {n i j : ℕ}

/-- `a` is one of the `n` addresses from `p` on, counted modulo `2^w`. -/
def InRange (p : BitVec w) (n : ℕ) (a : BitVec w) : Prop := (a - p).toNat < n

instance (p : BitVec w) (n : ℕ) (a : BitVec w) : Decidable (InRange p n a) :=
  inferInstanceAs (Decidable ((a - p).toNat < n))

/-- An interval that ends at or below the top is an interval of numbers. -/
theorem inRange_iff (h : p.toNat + n ≤ 2 ^ w) :
    InRange p n a ↔ p.toNat ≤ a.toNat ∧ a.toNat < p.toNat + n := by
  unfold InRange
  by_cases hle : p ≤ a
  · rw [BitVec.toNat_sub_of_le hle]
    rw [BitVec.le_def] at hle
    omega
  · have hlt : a < p := BitVec.not_le.1 hle
    rw [BitVec.toNat_sub_of_lt hlt]
    rw [BitVec.lt_def] at hlt
    omega

/-- An offset below `2^w` is recovered from the address it leads to. -/
theorem toNat_offset_sub (h : i < 2 ^ w) : (p + BitVec.ofNat w i - p).toNat = i := by
  rw [BitVec.add_comm, BitVec.add_sub_cancel, BitVec.toNat_ofNat, Nat.mod_eq_of_lt h]

theorem inRange_offset (h : i < n) (hn : n ≤ 2 ^ w) : InRange p n (p + BitVec.ofNat w i) := by
  unfold InRange
  rwa [toNat_offset_sub (by omega)]

/-- Every address of an interval is its base plus an offset below its length. -/
theorem InRange.exists_offset (h : InRange p n a) : ∃ i < n, a = p + BitVec.ofNat w i := by
  refine ⟨(a - p).toNat, h, ?_⟩
  rw [BitVec.ofNat_toNat, BitVec.setWidth_eq, BitVec.add_comm, BitVec.sub_add_cancel]

theorem InRange.mono {m : ℕ} (h : InRange p n a) (hnm : n ≤ m) : InRange p m a :=
  Nat.lt_of_lt_of_le h hnm

/-- The address at an offset that does not pass the top. -/
theorem toNat_offset (h : p.toNat + i < 2 ^ w) : (p + BitVec.ofNat w i).toNat = p.toNat + i := by
  have hi : (BitVec.ofNat w i).toNat = i := by
    rw [BitVec.toNat_ofNat, Nat.mod_eq_of_lt (by omega)]
  rw [BitVec.toNat_add_of_lt (by omega), hi]

theorem offset_add : p + BitVec.ofNat w i + BitVec.ofNat w j = p + BitVec.ofNat w (i + j) := by
  rw [BitVec.add_assoc, ← BitVec.ofNat_add]

end Range

/-! ## Bytes -/

namespace Mem

variable {w : ℕ} {m m' : Mem w} {p dst src a : BitVec w} {n i : ℕ} {b : Byte}

/-- Store one byte. -/
def store (m : Mem w) (p : BitVec w) (b : Byte) : Mem w := fun a => if a = p then b else m a

@[simp] theorem store_self : m.store p b p = b := if_pos rfl

theorem store_of_ne (h : a ≠ p) : m.store p b a = m a := if_neg h

/-- Move `n` bytes from `src` to `dst`; the ranges may overlap. -/
def move (m : Mem w) (dst src : BitVec w) (n : ℕ) : Mem w :=
  fun a => if InRange dst n a then m (src + (a - dst)) else m a

theorem move_of_not_inRange (h : ¬ InRange dst n a) : m.move dst src n a = m a := if_neg h

theorem move_offset (hi : i < n) (hn : n ≤ 2 ^ w) :
    m.move dst src n (dst + BitVec.ofNat w i) = m (src + BitVec.ofNat w i) := by
  rw [move, if_pos (inRange_offset hi hn), BitVec.add_comm dst, BitVec.add_sub_cancel]

/-- Set `n` bytes to `b`. -/
def fill (m : Mem w) (p : BitVec w) (b : Byte) (n : ℕ) : Mem w :=
  fun a => if InRange p n a then b else m a

theorem fill_of_not_inRange (h : ¬ InRange p n a) : m.fill p b n a = m a := if_neg h

/-- The `n` bytes from `p` on. -/
def read (m : Mem w) (p : BitVec w) (n : ℕ) : List Byte :=
  (List.range n).map fun i => m (p + BitVec.ofNat w i)

@[simp] theorem length_read : (m.read p n).length = n := by simp [read]

theorem read_getElem? (hi : i < n) : (m.read p n)[i]? = some (m (p + BitVec.ofNat w i)) := by
  simp [read, hi]

/-- Two ranges hold the same bytes if they agree at every offset. -/
theorem read_congr {q : BitVec w}
    (h : ∀ i < n, m (p + BitVec.ofNat w i) = m' (q + BitVec.ofNat w i)) :
    m.read p n = m'.read q n :=
  List.map_congr_left fun i hi => h i (List.mem_range.1 hi)

/-- The first bytes of a range. -/
theorem take_read {k : ℕ} (h : k ≤ n) : (m.read p n).take k = m.read p k := by
  rw [read, read, ← List.map_take, List.take_range, min_eq_left h]

/-- A range that has been filled. -/
theorem read_fill (hn : n ≤ 2 ^ w) : (m.fill p b n).read p n = List.replicate n b := by
  refine List.eq_replicate_iff.2 ⟨length_read, fun x hx => ?_⟩
  obtain ⟨i, hi, rfl⟩ := List.mem_map.1 hx
  exact if_pos (inRange_offset (List.mem_range.1 hi) hn)

/-- Storing inside a range replaces one byte of what it holds. -/
theorem read_store (hi : i < n) (hn : n ≤ 2 ^ w) :
    (m.store (p + BitVec.ofNat w i) b).read p n = (m.read p n).set i b := by
  refine List.ext_getElem? fun j => ?_
  rw [List.getElem?_set]
  by_cases hj : j < n
  · rw [read_getElem? hj, length_read]
    by_cases hij : i = j
    · subst hij
      simp [hi]
    · have hne : p + BitVec.ofNat w j ≠ p + BitVec.ofNat w i := by
        intro h
        have h' := congrArg (fun x => (x - p).toNat) h
        simp only [toNat_offset_sub (show j < 2 ^ w by omega),
          toNat_offset_sub (show i < 2 ^ w by omega)] at h'
        exact hij h'.symm
      rw [store_of_ne hne, if_neg hij, read_getElem? hj]
  · rw [List.getElem?_eq_none (by simpa using hj), length_read,
      if_neg (show i ≠ j by omega), List.getElem?_eq_none (by simpa using hj)]

end Mem

/-! ## Machine words -/

section Word

variable {q : ℕ}

/-- Byte `i` of a word, the least significant first. -/
def wordByte (v : BitVec (8 * q)) (i : ℕ) : Byte := v.extractLsb' (8 * i) 8

/-- The word made of the bytes `f 0, …, f (q - 1)`. -/
def wordOfBytes (q : ℕ) (f : ℕ → Byte) : BitVec (8 * q) :=
  BitVec.ofFnLE fun j => (f (j / 8)).getLsbD (j % 8)

theorem wordOfBytes_congr {f g : ℕ → Byte} (h : ∀ i < q, f i = g i) :
    wordOfBytes q f = wordOfBytes q g := by
  unfold wordOfBytes
  congr 1
  funext j
  rw [h (j / 8) (by omega)]

/-- A word is made of its bytes. -/
@[simp] theorem wordOfBytes_wordByte (v : BitVec (8 * q)) : wordOfBytes q (wordByte v) = v := by
  refine BitVec.eq_of_getLsbD_eq fun j hj => ?_
  rw [wordOfBytes, BitVec.getLsbD_ofFnLE, dif_pos hj, wordByte, BitVec.getLsbD_extractLsb',
    decide_eq_true (Nat.mod_lt j (by norm_num)), Bool.true_and, Nat.div_add_mod]

/-- The bytes of a word fit the address space many times over. -/
theorem mul_lt_two_pow (k : ℕ) (hq : 0 < q) (hk : k < 128) : k * q < 2 ^ (8 * q) := by
  have h1 : q < 2 ^ q := Nat.lt_two_pow_self
  have h2 : 2 ^ (8 * q) = 2 ^ (7 * q) * 2 ^ q := by rw [← pow_add]; congr 1; omega
  have h3 : 2 ^ 7 ≤ 2 ^ (7 * q) := Nat.pow_le_pow_right (by norm_num) (by omega)
  calc k * q < 2 ^ 7 * 2 ^ q := Nat.mul_lt_mul'' (by omega) h1
    _ ≤ 2 ^ (8 * q) := h2 ▸ Nat.mul_le_mul_right _ h3

theorem le_two_pow : q ≤ 2 ^ (8 * q) := by
  rcases Nat.eq_zero_or_pos q with rfl | hq
  · exact Nat.zero_le _
  · have := mul_lt_two_pow 1 hq (by norm_num)
    omega

namespace Mem

variable {m m' : Mem (8 * q)} {p v a : BitVec (8 * q)}

/-- Store a word of `q` bytes. -/
def storeWord (m : Mem (8 * q)) (p v : BitVec (8 * q)) : Mem (8 * q) :=
  fun a => if InRange p q a then wordByte v (a - p).toNat else m a

/-- Load a word of `q` bytes. -/
def loadWord (m : Mem (8 * q)) (p : BitVec (8 * q)) : BitVec (8 * q) :=
  wordOfBytes q fun i => m (p + BitVec.ofNat _ i)

theorem storeWord_of_not_inRange (h : ¬ InRange p q a) : m.storeWord p v a = m a := if_neg h

/-- A load depends on the bytes it covers and on nothing else. -/
theorem loadWord_congr (h : ∀ a, InRange p q a → m a = m' a) : m.loadWord p = m'.loadWord p :=
  wordOfBytes_congr fun _ hi => h _ (inRange_offset hi le_two_pow)

/-- **A load sees the last store to the same place.** -/
@[simp] theorem loadWord_storeWord : (m.storeWord p v).loadWord p = v := by
  rw [loadWord, ← wordOfBytes_wordByte v]
  refine wordOfBytes_congr fun i hi => ?_
  rw [storeWord, if_pos (inRange_offset hi le_two_pow),
    toNat_offset_sub (Nat.lt_of_lt_of_le hi le_two_pow), wordOfBytes_wordByte]

end Mem

end Word

end Refcode.Lib
