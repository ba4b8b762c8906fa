import Refcode.Alloc.Arena

/-!
# The bytes that `ns_aligned_realloc` touches

`ns_aligned_realloc` reads the header in front of the old payload, moves a payload
inside the block the backing allocator answers with, and writes a header there.
The old payload lies at any offset from `sizeof(header)` to `extraBytes`, the new
one at any other, and the block may end below the end of the old payload.

* `Ranges` — what has to hold of the addresses for all of that to be in bounds.
* `Placed.ranges` — it holds whenever the old payload and the new one are well
  placed, each in its own block.
* `alignedRealloc_ranges` — for every live allocation of every reachable state and
  every answer the backing allocator may give.
-/

namespace Refcode.Alloc

open Refcode.Lib

variable {q : ℕ} {σ ι : Type*}

/-! ## The addresses of one call -/

/-- The addresses `ns_aligned_realloc` computes and the bytes behind them, for a
payload `p` of `oldSize` bytes in the block at `base` that is resized to `sz` bytes
and answered with `newBase`. -/
structure Ranges (base p oldSize sz alignment newBase : Word q) : Prop where
  /-- `oldAlignmentOffset > extraBytes` is false. -/
  guard : ¬ p - base > extraBytes alignment
  /-- `alignment-1 + sizeof(header)` does not wrap, nor does `sz + extraBytes`. -/
  extra_exact : (extraBytes alignment).toNat = alignment.toNat - 1 + headerBytes q
  request_exact : (sz + extraBytes alignment).toNat = sz.toNat + (extraBytes alignment).toNat
  /-- `p - sizeof(header)` and `p - pOldUnaligned` do not wrap. -/
  oldHeader_exact : (p - sizeofHeader q).toNat + headerBytes q = p.toNat
  oldOffset_exact : base.toNat + (p - base).toNat = p.toNat
  /-- Neither do `pNewUnaligned + extraBytes`, `pNewUnaligned + oldAlignmentOffset`
  and `pNewAligned - sizeof(header)`. -/
  padded_exact : (newBase + extraBytes alignment).toNat
    = newBase.toNat + (extraBytes alignment).toNat
  source_exact : (newBase + (p - base)).toNat = newBase.toNat + (p - base).toNat
  newHeader_exact : (pAligned newBase alignment - sizeofHeader q).toNat + headerBytes q
    = (pAligned newBase alignment).toNat
  /-- The ends of the move's source, of its destination and of the new payload are
  addresses. -/
  source_end : (newBase + (p - base)).toNat + min oldSize.toNat sz.toNat < 2 ^ (8 * q)
  destination_end : (pAligned newBase alignment).toNat + min oldSize.toNat sz.toNat < 2 ^ (8 * q)
  payload_end : (pAligned newBase alignment).toNat + sz.toNat < 2 ^ (8 * q)
  /-- The header that is read lies in the old block. -/
  oldHeader : ∀ x, InRange (p - sizeofHeader q) (headerBytes q) x →
    (paddedBlock base oldSize alignment).Has x
  /-- The backing allocator has to keep the first `min(oldSize, sz) + extraBytes`
  bytes, and the source of the move lies in them. -/
  prefix_kept : min oldSize.toNat sz.toNat + (extraBytes alignment).toNat
    = min (paddedBlock base oldSize alignment).size.toNat
        (paddedBlock newBase sz alignment).size.toNat
  source : ∀ x, InRange (newBase + (p - base)) (min oldSize.toNat sz.toNat) x →
    InRange newBase (min oldSize.toNat sz.toNat + (extraBytes alignment).toNat) x
  /-- The destination, the new payload and the new header lie in the new block. -/
  destination : ∀ x, InRange (pAligned newBase alignment) (min oldSize.toNat sz.toNat) x →
    (paddedBlock newBase sz alignment).Has x
  payload : ∀ x, InRange (pAligned newBase alignment) sz.toNat x →
    (paddedBlock newBase sz alignment).Has x
  header : ∀ x, InRange (pAligned newBase alignment - sizeofHeader q) (headerBytes q) x →
    (paddedBlock newBase sz alignment).Has x
  /-- The header and the new payload share no byte. -/
  header_apart : ∀ x, InRange (pAligned newBase alignment - sizeofHeader q) (headerBytes q) x →
    ¬ InRange (pAligned newBase alignment) sz.toNat x

section Placed

variable {base p oldSize sz alignment newBase : Word q}

/-- The old offset, counted from the new base, is an address of the new block: it is
at most `extraBytes`. -/
theorem Placed.toNat_source (hold : Placed base p oldSize alignment)
    (hnew : Placed newBase (pAligned newBase alignment) sz alignment) :
    (newBase + (p - base)).toNat = newBase.toNat + (p.toNat - base.toNat) := by
  have hle := hold.le_base
  have hfits := hnew.block_fits
  have hoff := hold.toNat_offset_base
  rw [BitVec.toNat_add_of_lt (by rw [hoff]; omega), hoff]

/-- Old offset plus moved length is at most `extraBytes` plus the smaller size. -/
theorem Placed.source_subset (hold : Placed base p oldSize alignment)
    (hnew : Placed newBase (pAligned newBase alignment) sz alignment) {x : Word q}
    (hx : InRange (newBase + (p - base)) (min oldSize.toNat sz.toNat) x) :
    InRange newBase (min oldSize.toNat sz.toNat + (extraBytes alignment).toNat) x := by
  have hle := hold.le_base
  have hfits := hnew.block_fits
  have hsrc := hold.toNat_source hnew
  rw [inRange_iff (by rw [hsrc]; omega), hsrc] at hx
  rw [hold.accepted.toNat_extraBytes, inRange_iff (by omega)]
  omega

/-- **All ranges are in bounds** as soon as the old payload and the new one are well
placed in their blocks. -/
theorem Placed.ranges (hold : Placed base p oldSize alignment)
    (hnew : Placed newBase (pAligned newBase alignment) sz alignment) :
    Ranges base p oldSize sz alignment newBase := by
  have hextra := hold.accepted.toNat_extraBytes
  have hoff := hold.toNat_offset_base
  have hsrc := hold.toNat_source hnew
  have hold_base := hold.base_le
  have hold_le := hold.le_base
  have hnew_base := hnew.base_le
  have hnew_le := hnew.le_base
  have hfits := hnew.block_fits
  constructor
  case guard =>
    rw [gt_iff_lt, BitVec.lt_def, hoff, hextra]
    omega
  case extra_exact => exact hextra
  case request_exact => rw [hnew.accepted.toNat_request, hextra]
  case oldHeader_exact =>
    rw [hold.toNat_header]
    omega
  case oldOffset_exact =>
    rw [hoff]
    omega
  case padded_exact => rw [BitVec.toNat_add_of_lt (by rw [hextra]; omega)]
  case source_exact => rw [hsrc, hoff]
  case newHeader_exact =>
    rw [hnew.toNat_header]
    omega
  case source_end =>
    rw [hsrc]
    omega
  case destination_end => omega
  case payload_end => omega
  case oldHeader =>
    intro x hx
    exact hold.header_subset hx
  case prefix_kept =>
    rw [paddedBlock_size, paddedBlock_size, hold.accepted.toNat_request,
      hnew.accepted.toNat_request, hextra]
    omega
  case source =>
    intro x hx
    exact hold.source_subset hnew hx
  case destination =>
    intro x hx
    exact hnew.payload_subset (hx.mono (Nat.min_le_right _ _))
  case payload =>
    intro x hx
    exact hnew.payload_subset hx
  case header =>
    intro x hx
    exact hnew.header_subset hx
  case header_apart =>
    intro x hx
    exact hnew.header_apart_payload hx

end Placed

/-! ## The call on a live allocation -/

variable [DecidableEq ι] {B : Backing q σ} {dflt : Backing q σ}
  {cb : Option (NsAllocationCallbacks q σ)} {W : World q σ} {s : State q σ ι}
  {tr : List (Op q ι × Bool)} {h : ι} {a : Allocation q} {sz newBase : Word q}
  {live' : Set (Block q)} {m' : Mem (8 * q)}

/-- **Every byte range is valid.**  Let `a` be a live allocation of a reachable state
and `sz` a size that passes the guards.  For every `newBase` the backing allocator
may answer with, be it the old base or another one of any residue, all addresses are
exact and all ranges in bounds; and if it does answer so, the call does what the
ranges describe: it moves the payload from source to destination, stores the header,
and writes nothing else. -/
theorem alignedRealloc_ranges (hB : backingOf dflt cb = some B) (K : Contract B) (hok : K.ok W)
    (hnone : K.live W.priv = ∅) (hrun : Run (Step dflt cb) (State.initial W) tr s)
    (ha : s.live h = some a) (hacc : Accepted sz a.alignment) (hne : newBase ≠ 0)
    (hre : Resized (blockOf s.world.mem a) (sz + extraBytes a.alignment) newBase
      (K.live s.world.priv) live' s.world.mem m') :
    headerOf s.world.mem a = ⟨(headerOf s.world.mem a).pUnaligned, a.size, a.alignment⟩ ∧
    Ranges (headerOf s.world.mem a).pUnaligned a.ptr a.size sz a.alignment newBase ∧
    ((nsRealloc dflt (headerOf s.world.mem a).pUnaligned (sz + extraBytes a.alignment) cb
        s.world).1 = newBase →
      nsAlignedRealloc dflt a.ptr sz a.alignment cb s.world =
        let W' := (nsRealloc dflt (headerOf s.world.mem a).pUnaligned
          (sz + extraBytes a.alignment) cb s.world).2
        (pAligned newBase a.alignment,
          { W' with
            mem := storeHeader
              (W'.mem.move (pAligned newBase a.alignment)
                (newBase + (a.ptr - (headerOf s.world.mem a).pUnaligned))
                (min a.size.toNat sz.toNat))
              (pAligned newBase a.alignment - sizeofHeader q) ⟨newBase, sz, a.alignment⟩ })) := by
  have inv : HeapInv K s := Run.heapInv hB (heapInv_initial hok hnone) hrun
  have hold := inv.placed ha
  have hnew := placed_pAligned hacc hne (hre.fits hne)
  refine ⟨inv.header ha, hold.ranges hnew, ?_⟩
  rintro rfl
  rw [nsAlignedRealloc_of_placed hold.ne_null hold (inv.header ha), if_pos ⟨rfl, hacc⟩]
  exact if_neg hne

/-- A payload at offset `6` goes to offset `3` of a larger block. -/
theorem alignedRealloc_ranges_sample : Ranges (14 : Word 1) 20 5 9 4 25 ∧
    (nsAlignedRealloc (movingArena 1) 20 9 4 none sample.world).1 = 28 := by
  have hlive : sample.live true = some ⟨20, 5, 4⟩ := rfl
  have hblock : blockOf sample.world.mem ⟨20, 5, 4⟩ = ⟨14, 11⟩ := by decide +kernel
  have hanswer : ((movingArena 1).realloc 14 15 sample.world).1 = 25 := by decide +kernel
  have inv : HeapInv movingArena_contract sample := Run.heapInv rfl
    (heapInv_initial (Arena.fresh_ok Nat.one_pos) Arena.fresh_live) sample_run
  -- what the arena promises of its own answer
  have hre := (movingArena_contract.realloc inv.ok (by decide : (9 : Word 1) + extraBytes 4 ≠ 0)
    (inv.block_mem hlive)).2
  have hbase : (headerOf sample.world.mem ⟨20, 5, 4⟩).pUnaligned = 14 := by decide +kernel
  have hcalled : ((movingArena 1).realloc (blockOf sample.world.mem ⟨20, 5, 4⟩).base
      ((9 : Word 1) + extraBytes 4) sample.world).1 = 25 := by
    rw [hblock]
    exact hanswer
  rw [hcalled] at hre
  obtain ⟨-, hranges, hcall⟩ := alignedRealloc_ranges rfl movingArena_contract
    (Arena.fresh_ok Nat.one_pos) Arena.fresh_live sample_run hlive
    (by decide : Accepted (9 : Word 1) 4) (by decide) hre
  rw [hbase] at hranges
  exact ⟨hranges, congrArg Prod.fst (hcall hcalled)⟩

end Refcode.Alloc
