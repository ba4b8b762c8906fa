import Refcode.Alloc.Contract

/-!
# One call of the aligned allocator

What `ns_aligned_malloc`, `ns_aligned_realloc` and `ns_aligned_free` do over a
backing allocator that keeps its contract, stated once per function.  A refused
request changes nothing the client can see (`Refused`); a granted one installs a
padded block with its header (`Installed`), and a granted `ns_aligned_realloc`
also brings the payload along, wherever the new block is.
-/

namespace Refcode.Alloc

open Refcode.Lib

variable {q : ℕ} {σ : Type*}

/-! ## The functions, path by path -/

section Paths

variable {dflt : Backing q σ} {cb : Option (NsAllocationCallbacks q σ)} {W : World q σ}
  {p base sz oldSize alignment oldAlignment : Word q}

theorem nsAlignedMalloc_of_not_accepted (h : ¬ Accepted sz alignment) :
    nsAlignedMalloc dflt sz alignment cb W = (0, W) := by
  rw [← accepted_iff] at h
  unfold nsAlignedMalloc
  simp only []
  split_ifs with h1 h2 h3
  · rfl
  · rfl
  · rfl
  · exact absurd ⟨h1, h2, h3⟩ h
  · exact absurd ⟨h1, h2, h3⟩ h

/-- Where an accepted request ends up: the header in front of the aligned pointer
of whatever the backing allocator returned. -/
theorem nsAlignedMalloc_of_accepted (h : Accepted sz alignment) :
    nsAlignedMalloc dflt sz alignment cb W =
      if (nsMalloc dflt (sz + extraBytes alignment) cb W).1 = 0 then
        (0, (nsMalloc dflt (sz + extraBytes alignment) cb W).2)
      else
        let r := nsMalloc dflt (sz + extraBytes alignment) cb W
        (pAligned r.1 alignment,
          { r.2 with
            mem := storeHeader r.2.mem (pAligned r.1 alignment - sizeofHeader q)
              ⟨r.1, sz, alignment⟩ }) := by
  obtain ⟨h1, h2, h3⟩ := accepted_iff.2 h
  unfold nsAlignedMalloc
  rw [if_neg h1, if_neg h2]
  simp only []
  rw [if_neg (show ¬ sz > -1 - (alignment - 1 + sizeofHeader q) from h3)]
  rfl

/-- Moving a payload onto itself is no move, so the test the code makes before it
moves can be dropped. -/
theorem move_self (m : Mem (8 * q)) (p : Word q) (n : ℕ) : m.move p p n = m := by
  funext a
  unfold Mem.move
  split
  · rw [BitVec.add_comm, BitVec.sub_add_cancel]
  · rfl

/-- `ns_aligned_realloc` of `NULL` is `ns_aligned_malloc`. -/
theorem nsAlignedRealloc_null :
    nsAlignedRealloc dflt 0 sz alignment cb W = nsAlignedMalloc dflt sz alignment cb W := by
  unfold nsAlignedRealloc
  rw [if_pos rfl]
  by_cases hbad : badAlignment alignment
  · rw [if_pos hbad, nsAlignedMalloc, if_pos hbad]
  · rw [if_neg hbad]

/-- The guard on the move does not matter, and the smaller size is moved. -/
theorem move_guarded {m : Mem (8 * q)} {a b old new : Word q} :
    (if a ≠ b then m.move a b (if old < new then old else new).toNat else m)
      = m.move a b (min old.toNat new.toNat) := by
  have hmin : (if old < new then old else new).toNat = min old.toNat new.toNat := by
    split_ifs with hlt <;> rw [BitVec.lt_def] at hlt <;> omega
  by_cases hab : a = b
  · subst hab
    rw [if_neg (not_not.2 rfl), move_self]
  · rw [if_pos hab, hmin]

/-- A request that fails a guard changes nothing. -/
theorem nsAlignedRealloc_refused (hp : p ≠ 0)
    (hhdr : loadHeader W.mem (p - sizeofHeader q) = ⟨base, oldSize, oldAlignment⟩)
    (hacc : ¬ (alignment = oldAlignment ∧ Accepted sz alignment)) :
    nsAlignedRealloc dflt p sz alignment cb W = (0, W) := by
  unfold nsAlignedRealloc
  simp only [hhdr]
  by_cases hbad : badAlignment alignment
  · rw [if_pos hbad]
  rw [if_neg hbad, if_neg hp]
  by_cases heq : alignment = oldAlignment
  · have hna : ¬ Accepted sz alignment := fun ha => hacc ⟨heq, ha⟩
    rw [← accepted_iff] at hna
    rw [if_neg (not_not.2 heq)]
    by_cases hextra : alignment - 1 > -1 - sizeofHeader q
    · rw [if_pos hextra]
    · have hsz : sz > -1 - (alignment - 1 + sizeofHeader q) :=
        not_not.1 fun hsz => hna ⟨hbad, hextra, hsz⟩
      rw [if_neg hextra, if_pos hsz]
      exact ite_self _
  · rw [if_pos heq]

/-- `ns_aligned_realloc` past its guards: the backing call, the move of the payload and
the new header. -/
theorem nsAlignedRealloc_of_guards (hp : p ≠ 0) (hacc : Accepted sz alignment)
    (hhdr : loadHeader W.mem (p - sizeofHeader q) = ⟨base, oldSize, alignment⟩)
    (hoff : ¬ p - base > extraBytes alignment) :
    nsAlignedRealloc dflt p sz alignment cb W =
      let r := nsRealloc dflt base (sz + extraBytes alignment) cb W
      if r.1 = 0 then (0, r.2)
      else
        (pAligned r.1 alignment,
          { r.2 with
            mem := storeHeader
              (r.2.mem.move (pAligned r.1 alignment) (r.1 + (p - base))
                (min oldSize.toNat sz.toNat))
              (pAligned r.1 alignment - sizeofHeader q) ⟨r.1, sz, alignment⟩ }) := by
  obtain ⟨hbad, hextra, hsz⟩ := accepted_iff.2 hacc
  unfold extraBytes at hoff hsz
  unfold nsAlignedRealloc
  simp only [hhdr]
  rw [if_neg hbad, if_neg hp, if_neg (not_not.2 rfl), if_neg hextra, if_neg hoff, if_neg hsz]
  simp only [move_guarded]
  rfl

/-- `ns_aligned_realloc` on a block whose header is intact: the guard on the old offset
never fires. -/
theorem nsAlignedRealloc_of_placed (hp : p ≠ 0) (hplaced : Placed base p oldSize oldAlignment)
    (hhdr : loadHeader W.mem (p - sizeofHeader q) = ⟨base, oldSize, oldAlignment⟩) :
    nsAlignedRealloc dflt p sz alignment cb W =
      if alignment = oldAlignment ∧ Accepted sz alignment then
        let r := nsRealloc dflt base (sz + extraBytes alignment) cb W
        if r.1 = 0 then (0, r.2)
        else
          (pAligned r.1 alignment,
            { r.2 with
              mem := storeHeader
                (r.2.mem.move (pAligned r.1 alignment) (r.1 + (p - base))
                  (min oldSize.toNat sz.toNat))
                (pAligned r.1 alignment - sizeofHeader q) ⟨r.1, sz, alignment⟩ })
      else (0, W) := by
  by_cases hacc : alignment = oldAlignment ∧ Accepted sz alignment
  · rw [if_pos hacc]
    obtain ⟨rfl, hacc⟩ := hacc
    have hoff : ¬ p - base > extraBytes alignment := by
      have := hplaced.le_base
      rw [gt_iff_lt, BitVec.lt_def, hplaced.toNat_offset_base, hacc.toNat_extraBytes]
      omega
    exact nsAlignedRealloc_of_guards hp hacc hhdr hoff
  · rw [if_neg hacc]
    exact nsAlignedRealloc_refused hp hhdr hacc

end Paths

/-! ## The functions over a lawful backing allocator -/

/-- The block of the backing allocator behind an aligned allocation. -/
def paddedBlock (base sz alignment : Word q) : Block q := ⟨base, sz + extraBytes alignment⟩

@[simp] theorem paddedBlock_base (base sz alignment : Word q) :
    (paddedBlock base sz alignment).base = base := rfl

@[simp] theorem paddedBlock_size (base sz alignment : Word q) :
    (paddedBlock base sz alignment).size = sz + extraBytes alignment := rfl

variable {B : Backing q σ}

/-- The client sees no difference between `W` and `W'`. -/
structure Refused (K : Contract B) (W W' : World q σ) : Prop where
  ok : K.ok W'
  live : K.live W'.priv = K.live W.priv
  kept : Kept (K.live W.priv) W.mem W'.mem

/-- A call that does nothing changes nothing. -/
theorem Refused.refl {K : Contract B} {W : World q σ} (hok : K.ok W) : Refused K W W :=
  ⟨hok, rfl, fun _ _ _ _ => rfl⟩

/-- `p` is a new aligned allocation beside the blocks `rest`, whose bytes are as
in `m`. -/
structure Installed (K : Contract B) (rest : Set (Block q)) (m : Mem (8 * q)) (W' : World q σ)
    (base p sz alignment : Word q) : Prop where
  ok : K.ok W'
  live : K.live W'.priv = insert (paddedBlock base sz alignment) rest
  apart : ∀ b ∈ rest, (paddedBlock base sz alignment).Apart b
  kept : Kept rest m W'.mem
  header : loadHeader W'.mem (p - sizeofHeader q) = ⟨base, sz, alignment⟩
  placed : Placed base p sz alignment
  ne_null : p ≠ 0

section Specs

variable {dflt : Backing q σ} {cb : Option (NsAllocationCallbacks q σ)} {W W₁ : World q σ}
  {p base sz oldSize alignment oldAlignment : Word q} {rest : Set (Block q)}
  {m m' : Mem (8 * q)}

theorem Placed.ne_null (h : Placed base p sz alignment) : p ≠ 0 := by
  rintro rfl
  have h1 := h.base_le
  have h2 := h.accepted.word_pos
  simp [headerBytes] at h1
  omega

/-- The end both successful paths share: the backing allocator has answered with
`base`, the code has touched the new block only, and it stores the header. -/
theorem installed_storeHeader (K : Contract B) (hacc : Accepted sz alignment) (hok : K.ok W₁)
    (hbase : base ≠ 0)
    (hlive : K.live W₁.priv = insert (paddedBlock base sz alignment) rest)
    (hfits : base.toNat + (sz + extraBytes alignment).toNat < 2 ^ (8 * q))
    (hapart : ∀ b ∈ rest, (paddedBlock base sz alignment).Apart b) (hkept : Kept rest m W₁.mem)
    (hm : ∀ a, ¬ (paddedBlock base sz alignment).Has a → m' a = W₁.mem a) :
    Installed K rest m
      { W₁ with
        mem := storeHeader m' (pAligned base alignment - sizeofHeader q) ⟨base, sz, alignment⟩ }
      base (pAligned base alignment) sz alignment := by
  have hplaced := placed_pAligned hacc hbase hfits
  have hout : ∀ a, ¬ (paddedBlock base sz alignment).Has a →
      storeHeader m' (pAligned base alignment - sizeofHeader q) ⟨base, sz, alignment⟩ a
        = W₁.mem a := by
    intro a ha
    rw [storeHeader_of_not_inRange fun hr => ha (hplaced.header_subset hr)]
    exact hm a ha
  refine ⟨K.frame hok fun a ha => hout a (ha _ ?_), hlive, hapart, ?_, loadHeader_storeHeader,
    hplaced, hplaced.ne_null⟩
  · rw [hlive]
    exact Set.mem_insert _ _
  · intro b hb a ha
    exact (hout a fun hnew => hapart b hb a hnew ha).trans (hkept b hb a ha)

/-- What is left of the old payload in the resized block `base'` is at the old offset
`p - base`, and goes to the new place of the payload. -/
theorem payload_moved {base' : Word q} {i : ℕ} (hold : Placed base p oldSize alignment)
    (hnew : Placed base' (pAligned base' alignment) sz alignment)
    (hcopied : ∀ k < min (paddedBlock base oldSize alignment).size.toNat
        (sz + extraBytes alignment).toNat,
      m' (base' + BitVec.ofNat _ k)
        = m ((paddedBlock base oldSize alignment).base + BitVec.ofNat _ k))
    (hi : i < min oldSize.toNat sz.toNat) :
    storeHeader
        (m'.move (pAligned base' alignment) (base' + (p - base)) (min oldSize.toNat sz.toNat))
        (pAligned base' alignment - sizeofHeader q) ⟨base', sz, alignment⟩
        (pAligned base' alignment + BitVec.ofNat _ i)
      = m (p + BitVec.ofNat _ i) := by
  have hi2 : i < sz.toNat := by omega
  have hsz := sz.isLt
  have hpay : ¬ InRange (pAligned base' alignment - sizeofHeader q) (headerBytes q)
      (pAligned base' alignment + BitVec.ofNat _ i) := fun hin =>
    hnew.header_apart_payload hin (inRange_offset hi2 hsz.le)
  rw [storeHeader_of_not_inRange hpay, Mem.move_offset hi (by omega)]
  -- the source offset is below what the backing allocator has to copy
  have hoff := hold.toNat_offset_base
  have h1 := hold.base_le
  have h2 := hold.le_base
  have hcopy := hcopied (p.toNat - base.toNat + i) (by
    rw [paddedBlock_size, hold.accepted.toNat_request, hnew.accepted.toNat_request]
    omega)
  have hpb : BitVec.ofNat (8 * q) (p.toNat - base.toNat) = p - base := by
    rw [← hoff, BitVec.ofNat_toNat, BitVec.setWidth_eq]
  have hbase : base + (p - base) = p := by
    rw [BitVec.add_comm, BitVec.sub_add_cancel]
  rwa [← offset_add, ← offset_add, hpb, paddedBlock_base, hbase] at hcopy

/-- **`ns_aligned_malloc`.** -/
theorem nsAlignedMalloc_spec (K : Contract B) (hB : backingOf dflt cb = some B) (hok : K.ok W) :
    ((nsAlignedMalloc dflt sz alignment cb W).1 = 0 ∧
        Refused K W (nsAlignedMalloc dflt sz alignment cb W).2) ∨
      ∃ base, Installed K (K.live W.priv) W.mem (nsAlignedMalloc dflt sz alignment cb W).2 base
        (nsAlignedMalloc dflt sz alignment cb W).1 sz alignment := by
  by_cases hacc : Accepted sz alignment
  · obtain ⟨hok₁, hgr⟩ := K.malloc hok hacc.request_ne_zero
    rw [nsAlignedMalloc_of_accepted hacc, nsMalloc_eq hB]
    by_cases hnull : (B.malloc (sz + extraBytes alignment) W).1 = 0
    · rw [if_pos hnull]
      exact Or.inl ⟨rfl, hok₁, hgr.refused hnull, hgr.kept⟩
    · rw [if_neg hnull]
      exact Or.inr ⟨_, installed_storeHeader K hacc hok₁ hnull (hgr.granted hnull) (hgr.fits hnull)
        (hgr.apart hnull) hgr.kept fun _ _ => rfl⟩
  · rw [nsAlignedMalloc_of_not_accepted hacc]
    exact Or.inl ⟨rfl, .refl hok⟩

/-- **`ns_aligned_realloc`** on a live allocation.  When it succeeds, the first
bytes of the payload have moved with it. -/
theorem nsAlignedRealloc_spec (K : Contract B) (hB : backingOf dflt cb = some B) (hok : K.ok W)
    (hplaced : Placed base p oldSize oldAlignment)
    (hhdr : loadHeader W.mem (p - sizeofHeader q) = ⟨base, oldSize, oldAlignment⟩)
    (hlive : paddedBlock base oldSize oldAlignment ∈ K.live W.priv) :
    ((nsAlignedRealloc dflt p sz alignment cb W).1 = 0 ∧
        Refused K W (nsAlignedRealloc dflt p sz alignment cb W).2) ∨
      ∃ base', Installed K (K.live W.priv \ {paddedBlock base oldSize oldAlignment}) W.mem
          (nsAlignedRealloc dflt p sz alignment cb W).2 base'
          (nsAlignedRealloc dflt p sz alignment cb W).1 sz alignment ∧
        ∀ i < min oldSize.toNat sz.toNat,
          (nsAlignedRealloc dflt p sz alignment cb W).2.mem
              ((nsAlignedRealloc dflt p sz alignment cb W).1 + BitVec.ofNat _ i)
            = W.mem (p + BitVec.ofNat _ i) := by
  rw [nsAlignedRealloc_of_placed hplaced.ne_null hplaced hhdr]
  by_cases hacc : alignment = oldAlignment ∧ Accepted sz alignment
  · rw [if_pos hacc]
    obtain ⟨rfl, hacc⟩ := hacc
    obtain ⟨hok₁, hre⟩ := K.realloc hok hacc.request_ne_zero hlive
    simp only [paddedBlock_base] at hok₁ hre
    simp only [nsRealloc_eq hB]
    set r := B.realloc base (sz + extraBytes alignment) W with hr
    by_cases hnull : r.1 = 0
    · rw [if_pos hnull]
      obtain ⟨hsame, hkept⟩ := hre.refused hnull
      exact Or.inl ⟨rfl, hok₁, hsame, hkept⟩
    · rw [if_neg hnull]
      have hfits := hre.fits hnull
      have hnew := placed_pAligned hacc hnull hfits
      have hle := Nat.min_le_right oldSize.toNat sz.toNat
      refine Or.inr ⟨r.1, installed_storeHeader K hacc hok₁ hnull (hre.granted hnull) hfits
        (hre.apart hnull) hre.kept ?_, ?_⟩
      · intro a ha
        exact Mem.move_of_not_inRange fun hin => ha (hnew.payload_subset (hin.mono hle))
      · intro i hi
        exact payload_moved hplaced hnew (hre.copied hnull) hi
  · rw [if_neg hacc]
    exact Or.inl ⟨rfl, .refl hok⟩

/-- **`ns_aligned_free`** on a live allocation. -/
theorem nsAlignedFree_spec (K : Contract B) (hB : backingOf dflt cb = some B) (hok : K.ok W)
    (hplaced : Placed base p sz alignment)
    (hhdr : loadHeader W.mem (p - sizeofHeader q) = ⟨base, sz, alignment⟩)
    (hlive : paddedBlock base sz alignment ∈ K.live W.priv) :
    K.ok (nsAlignedFree dflt p cb W) ∧
      Released (paddedBlock base sz alignment) (K.live W.priv)
        (K.live (nsAlignedFree dflt p cb W).priv) W.mem (nsAlignedFree dflt p cb W).mem := by
  have hfree : nsAlignedFree dflt p cb W = B.free base W := by
    rw [nsAlignedFree, if_neg hplaced.ne_null, hhdr, nsFree_eq hB hplaced.base_ne]
  rw [hfree]
  exact K.free hok hlive

end Specs

end Refcode.Alloc
