import Refcode.Lib.Alignment
import Refcode.Alloc.Callbacks

/-!
# The layout of an aligned block

The arithmetic both aligned entry points share: what their guards let through,
where the aligned pointer lands inside the block they ask for, and how the header
in front of it is written and read back.

* `accepted_iff` — the guards accept exactly the powers of two whose padded
  request is an address-space size (`Accepted`).
* `placed_pAligned` — the masked pointer leaves room for the header below it and
  for the payload above it (`Placed`).
* `loadHeader_storeHeader`, `loadHeader_congr` — the header is what was last
  stored there, and depends on its own bytes only.
-/

namespace Refcode.Alloc

open Refcode.Lib

variable {q : ℕ}

/-! ## What the guards accept -/

theorem headerBytes_lt : headerBytes q < 2 ^ (8 * q) := by
  rcases Nat.eq_zero_or_pos q with rfl | hq
  · simp [headerBytes]
  · exact mul_lt_two_pow 3 hq (by norm_num)

@[simp] theorem toNat_sizeofHeader : (sizeofHeader q).toNat = headerBytes q := by
  rw [sizeofHeader, BitVec.toNat_ofNat, Nat.mod_eq_of_lt headerBytes_lt]

/-- `(size_t)-1 - x`, as a number. -/
theorem toNat_neg_one_sub (x : Word q) : (-1 - x).toNat = 2 ^ (8 * q) - 1 - x.toNat := by
  have hall : (-1 : Word q) = BitVec.allOnes (8 * q) := by
    rw [← BitVec.neg_one_eq_allOnes]
    simp
  have hle : x ≤ BitVec.allOnes (8 * q) := by
    rw [BitVec.le_def, BitVec.toNat_allOnes]
    have := x.isLt
    omega
  rw [hall, BitVec.toNat_sub_of_le hle, BitVec.toNat_allOnes]

/-- The padding the code adds to every request. -/
def extraBytes (alignment : Word q) : Word q := alignment - 1 + sizeofHeader q

/-- A request the aligned functions pass on to the backing allocator: the
alignment is a power of two and the padded size is still a `size_t`. -/
structure Accepted (sz alignment : Word q) : Prop where
  pow : ∃ k, alignment.toNat = 2 ^ k
  fits : sz.toNat + (alignment.toNat - 1 + headerBytes q) < 2 ^ (8 * q)

/-- A power of two is one of the alignments the opening test lets through. -/
theorem not_badAlignment_iff {alignment : Word q} :
    ¬ badAlignment alignment ↔ ∃ k, alignment.toNat = 2 ^ k := by
  unfold badAlignment
  constructor
  · intro h
    simp only [not_or, not_not] at h
    exact (and_sub_one_eq_zero_iff h.1).1 h.2
  · rintro ⟨k, hk⟩
    have hne : alignment ≠ 0 := by
      rintro rfl
      have hpos : 0 < 2 ^ k := Nat.two_pow_pos k
      rw [← hk] at hpos
      simp at hpos
    simp only [not_or, not_not]
    exact ⟨hne, (and_sub_one_eq_zero_iff hne).2 ⟨k, hk⟩⟩

theorem ne_zero_of_pow {alignment : Word q} (h : ∃ k, alignment.toNat = 2 ^ k) :
    alignment ≠ 0 := fun h0 => not_badAlignment_iff.2 h (Or.inl h0)

/-- The padding, as a number, if it is one. -/
theorem toNat_extraBytes_of_lt {alignment : Word q} (hpow : ∃ k, alignment.toNat = 2 ^ k)
    (hlt : alignment.toNat - 1 + headerBytes q < 2 ^ (8 * q)) :
    (extraBytes alignment).toNat = alignment.toNat - 1 + headerBytes q := by
  have hsub := toNat_sub_one (ne_zero_of_pow hpow)
  rw [extraBytes, BitVec.toNat_add_of_lt] <;> rw [hsub, toNat_sizeofHeader]
  exact hlt

/-- **The guards, exactly.**  The three tests that precede the backing call pass
together on the accepted requests and on no others. -/
theorem accepted_iff {sz alignment : Word q} :
    (¬ badAlignment alignment ∧ ¬ alignment - 1 > -1 - sizeofHeader q ∧
      ¬ sz > -1 - extraBytes alignment) ↔ Accepted sz alignment := by
  rw [not_badAlignment_iff]
  have hsz := sz.isLt
  have hal := alignment.isLt
  have hhdr : headerBytes q < 2 ^ (8 * q) := headerBytes_lt
  constructor
  · rintro ⟨hpow, hguard, hsize⟩
    have hsub := toNat_sub_one (ne_zero_of_pow hpow)
    rw [gt_iff_lt, BitVec.lt_def, toNat_neg_one_sub, toNat_sizeofHeader, hsub] at hguard
    have hextra := toNat_extraBytes_of_lt hpow (by omega)
    rw [gt_iff_lt, BitVec.lt_def, toNat_neg_one_sub, hextra] at hsize
    exact ⟨hpow, by omega⟩
  · rintro ⟨hpow, hfits⟩
    have hsub := toNat_sub_one (ne_zero_of_pow hpow)
    have hextra := toNat_extraBytes_of_lt hpow (by omega)
    refine ⟨hpow, ?_, ?_⟩
    · rw [gt_iff_lt, BitVec.lt_def, toNat_neg_one_sub, toNat_sizeofHeader, hsub]
      omega
    · rw [gt_iff_lt, BitVec.lt_def, toNat_neg_one_sub, hextra]
      omega

instance (sz alignment : Word q) : Decidable (Accepted sz alignment) :=
  decidable_of_iff _ accepted_iff

namespace Accepted

variable {sz alignment : Word q} (h : Accepted sz alignment)
include h

/-- The padding does not wrap. -/
theorem toNat_extraBytes :
    (extraBytes alignment).toNat = alignment.toNat - 1 + headerBytes q := by
  have hfits := h.fits
  exact toNat_extraBytes_of_lt h.pow (by omega)

/-- Nor does the padded size. -/
theorem toNat_request :
    (sz + extraBytes alignment).toNat = sz.toNat + (alignment.toNat - 1 + headerBytes q) := by
  have := h.fits
  rw [BitVec.toNat_add_of_lt (by rw [h.toNat_extraBytes]; exact this), h.toNat_extraBytes]

theorem one_le_alignment : 1 ≤ alignment.toNat := by
  obtain ⟨k, hk⟩ := h.pow
  rw [hk]
  exact Nat.two_pow_pos k

/-- Nothing is accepted on a machine with no addresses. -/
theorem word_pos : 0 < q := by
  rcases Nat.eq_zero_or_pos q with rfl | hq
  · have h1 := h.one_le_alignment
    have h2 := alignment.isLt
    simp at h2
    omega
  · exact hq

/-- The size that is asked of the backing allocator is not zero. -/
theorem request_ne_zero : sz + extraBytes alignment ≠ 0 := by
  intro h0
  have hr := h.toNat_request
  have hq := h.word_pos
  rw [h0] at hr
  simp [headerBytes] at hr
  omega

end Accepted

/-! ## Where the aligned pointer lands -/

/-- The aligned pointer the code computes from the base of a block. -/
def pAligned (base alignment : Word q) : Word q :=
  (base + extraBytes alignment) &&& ~~~(alignment - 1)

/-- `p` is an aligned pointer into the block at `base` that was asked for with
`sz` and `alignment`: the header fits below it and the payload above it. -/
structure Placed (base p sz alignment : Word q) : Prop where
  accepted : Accepted sz alignment
  base_ne : base ≠ 0
  dvd : alignment.toNat ∣ p.toNat
  base_le : base.toNat + headerBytes q ≤ p.toNat
  le_base : p.toNat ≤ base.toNat + (alignment.toNat - 1 + headerBytes q)
  block_fits : base.toNat + (sz.toNat + (alignment.toNat - 1 + headerBytes q)) < 2 ^ (8 * q)

/-- **The masked pointer is well placed** in every block that ends inside the
address space. -/
theorem placed_pAligned {base sz alignment : Word q} (h : Accepted sz alignment)
    (hbase : base ≠ 0) (hfits : base.toNat + (sz + extraBytes alignment).toNat < 2 ^ (8 * q)) :
    Placed base (pAligned base alignment) sz alignment := by
  rw [h.toNat_request] at hfits
  obtain ⟨k, hk⟩ := h.pow
  have hextra := h.toNat_extraBytes
  have hsum : (base + extraBytes alignment).toNat
      = base.toNat + (alignment.toNat - 1 + headerBytes q) := by
    rw [BitVec.toNat_add_of_lt (by rw [hextra]; omega), hextra]
  have hle : (pAligned base alignment).toNat ≤ _ := toNat_and_not_sub_one_le hk
  have hlt : _ < (pAligned base alignment).toNat + _ := lt_toNat_and_not_sub_one_add hk
  have hdvd : _ ∣ (pAligned base alignment).toNat := dvd_toNat_and_not_sub_one hk
  rw [hsum] at hle hlt
  have := h.one_le_alignment
  exact ⟨h, hbase, hdvd, by omega, hle, hfits⟩

namespace Placed

variable {base p sz alignment : Word q} (h : Placed base p sz alignment)
include h

/-- The header starts inside the block. -/
theorem toNat_header : (p - sizeofHeader q).toNat = p.toNat - headerBytes q := by
  have := h.base_le
  rw [BitVec.toNat_sub_of_le (by rw [BitVec.le_def, toNat_sizeofHeader]; omega),
    toNat_sizeofHeader]

/-- The distance from the base to the aligned pointer. -/
theorem toNat_offset_base : (p - base).toNat = p.toNat - base.toNat := by
  have := h.base_le
  rw [BitVec.toNat_sub_of_le (by rw [BitVec.le_def]; omega)]

/-- The header lies in the block. -/
theorem header_subset {a : Word q} (ha : InRange (p - sizeofHeader q) (headerBytes q) a) :
    InRange base (sz + extraBytes alignment).toNat a := by
  have h1 := h.base_le
  have h2 := h.le_base
  have h3 := h.block_fits
  rw [inRange_iff (by rw [h.toNat_header]; omega), h.toNat_header] at ha
  rw [h.accepted.toNat_request, inRange_iff (by omega)]
  omega

/-- The payload lies in the block. -/
theorem payload_subset {a : Word q} (ha : InRange p sz.toNat a) :
    InRange base (sz + extraBytes alignment).toNat a := by
  have h1 := h.base_le
  have h2 := h.le_base
  have h3 := h.block_fits
  rw [inRange_iff (by omega)] at ha
  rw [h.accepted.toNat_request, inRange_iff (by omega)]
  omega

/-- The header and the payload do not meet. -/
theorem header_apart_payload {a : Word q}
    (ha : InRange (p - sizeofHeader q) (headerBytes q) a) : ¬ InRange p sz.toNat a := by
  have h1 := h.base_le
  have h2 := h.le_base
  have h3 := h.block_fits
  rw [inRange_iff (by rw [h.toNat_header]; omega), h.toNat_header] at ha
  rw [inRange_iff (by omega)]
  omega

end Placed

/-! ## The header in memory -/

section Header

variable {m m' : Mem (8 * q)} {p a : Word q} {hdr : NsAlignedAllocationHeader q}

/-- The three fields of a header lie one after the other. -/
theorem field_subset {k : ℕ} (hk : k < 3) (ha : InRange (p + BitVec.ofNat _ (k * q)) q a) :
    InRange p (headerBytes q) a := by
  obtain ⟨i, hi, rfl⟩ := ha.exists_offset
  rw [offset_add]
  refine inRange_offset ?_ headerBytes_lt.le
  have : k * q ≤ 2 * q := Nat.mul_le_mul_right q (by omega)
  unfold headerBytes
  omega

/-- No byte belongs to two different fields. -/
theorem field_apart {k l : ℕ} (hk : k < 3) (hl : l < 3) (hkl : k ≠ l)
    (ha : InRange (p + BitVec.ofNat _ (k * q)) q a) :
    ¬ InRange (p + BitVec.ofNat _ (l * q)) q a := by
  intro hb
  obtain ⟨i, hi, rfl⟩ := ha.exists_offset
  obtain ⟨j, hj, hij⟩ := hb.exists_offset
  rw [offset_add, offset_add] at hij
  have hlt : headerBytes q < 2 ^ (8 * q) := headerBytes_lt
  have hk2 : k * q ≤ 2 * q := Nat.mul_le_mul_right q (by omega)
  have hl2 : l * q ≤ 2 * q := Nat.mul_le_mul_right q (by omega)
  have heq := congrArg (fun x => (x - p).toNat) hij
  unfold headerBytes at hlt
  simp only [toNat_offset_sub (show k * q + i < 2 ^ (8 * q) by omega),
    toNat_offset_sub (show l * q + j < 2 ^ (8 * q) by omega)] at heq
  -- both offsets have quotient `k` resp. `l` by `q`
  rcases Nat.lt_or_gt_of_ne hkl with h | h
  · have : (k + 1) * q ≤ l * q := Nat.mul_le_mul_right q h
    rw [Nat.add_mul] at this
    omega
  · have : (l + 1) * q ≤ k * q := Nat.mul_le_mul_right q h
    rw [Nat.add_mul] at this
    omega

theorem storeHeader_of_not_inRange (h : ¬ InRange p (headerBytes q) a) :
    storeHeader m p hdr a = m a := by
  have h0 : ¬ InRange p q a := fun ha => h (field_subset (by norm_num : 0 < 3) (by simpa using ha))
  have h1 : ¬ InRange (p + BitVec.ofNat _ q) q a := fun ha =>
    h (field_subset (by norm_num : 1 < 3) (by simpa using ha))
  have h2 : ¬ InRange (p + BitVec.ofNat _ (2 * q)) q a := fun ha =>
    h (field_subset (by norm_num : 2 < 3) ha)
  rw [storeHeader, Mem.storeWord_of_not_inRange h2, Mem.storeWord_of_not_inRange h1,
    Mem.storeWord_of_not_inRange h0]

/-- A header depends on its own bytes only. -/
theorem loadHeader_congr (h : ∀ a, InRange p (headerBytes q) a → m a = m' a) :
    loadHeader m p = loadHeader m' p := by
  have h0 : m.loadWord p = m'.loadWord p := Mem.loadWord_congr fun a ha =>
    h a (field_subset (by norm_num : 0 < 3) (by simpa using ha))
  have h1 : m.loadWord (p + BitVec.ofNat _ q) = m'.loadWord (p + BitVec.ofNat _ q) :=
    Mem.loadWord_congr fun a ha => h a (field_subset (by norm_num : 1 < 3) (by simpa using ha))
  have h2 : m.loadWord (p + BitVec.ofNat _ (2 * q)) = m'.loadWord (p + BitVec.ofNat _ (2 * q)) :=
    Mem.loadWord_congr fun a ha => h a (field_subset (by norm_num : 2 < 3) ha)
  rw [loadHeader, loadHeader, h0, h1, h2]

/-- **The header reads back as it was written.** -/
@[simp] theorem loadHeader_storeHeader : loadHeader (storeHeader m p hdr) p = hdr := by
  -- the later stores are outside the earlier fields
  have h0 : (storeHeader m p hdr).loadWord p = hdr.pUnaligned := by
    have hsame : (storeHeader m p hdr).loadWord p = (m.storeWord p hdr.pUnaligned).loadWord p := by
      refine Mem.loadWord_congr fun a ha => ?_
      have ha0 : InRange (p + BitVec.ofNat _ (0 * q)) q a := by simpa using ha
      have ha1 : ¬ InRange (p + BitVec.ofNat _ q) q a := by
        simpa using field_apart (by norm_num) (by norm_num : 1 < 3) (by norm_num) ha0
      have ha2 := field_apart (by norm_num) (by norm_num : 2 < 3) (by norm_num) ha0
      rw [storeHeader, Mem.storeWord_of_not_inRange ha2, Mem.storeWord_of_not_inRange ha1]
    rw [hsame, Mem.loadWord_storeWord]
  have h1 : (storeHeader m p hdr).loadWord (p + BitVec.ofNat _ q) = hdr.size := by
    have hsame : (storeHeader m p hdr).loadWord (p + BitVec.ofNat _ q) =
        ((m.storeWord p hdr.pUnaligned).storeWord (p + BitVec.ofNat _ q) hdr.size).loadWord
          (p + BitVec.ofNat _ q) := by
      refine Mem.loadWord_congr fun a ha => ?_
      have ha1 : InRange (p + BitVec.ofNat _ (1 * q)) q a := by simpa using ha
      have ha2 := field_apart (by norm_num) (by norm_num : 2 < 3) (by norm_num) ha1
      rw [storeHeader, Mem.storeWord_of_not_inRange ha2]
    rw [hsame, Mem.loadWord_storeWord]
  have h2 : (storeHeader m p hdr).loadWord (p + BitVec.ofNat _ (2 * q)) = hdr.alignment :=
    Mem.loadWord_storeWord
  rw [loadHeader, h0, h1, h2]

end Header

end Refcode.Alloc
