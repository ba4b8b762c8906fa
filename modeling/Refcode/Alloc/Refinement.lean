import Refcode.Lib.Store
import Refcode.Alloc.Arena

/-!
# The aligned allocator is a store of independent byte arrays

The two results about the heap as a whole, over any backing allocator that keeps
its contract and for every sequence of client operations.

* `alignedHeap_layout` — where everything is: each live allocation is aligned,
  sits with its header inside a live block of the backing allocator, and shares
  no byte with any other.
* `alignedHeap_refines_store` — what it is for: reading the payloads gives exactly
  what an abstract store of byte arrays holds (`payloads`), and no operation
  changes a payload it does not name.
-/

namespace Refcode.Alloc

open Refcode.Lib

variable {q : ℕ} {σ ι : Type*}

/-! ## The abstract view -/

/-- What the live allocations hold. -/
def payloads (s : State q σ ι) : Store ι Byte :=
  fun h => (s.live h).map fun a => s.world.mem.read a.ptr a.size.toNat

/-- The request to the abstract store that an operation makes. -/
def Op.request : Op q ι → Request ι Byte
  | .malloc h sz _ => .alloc h sz.toNat
  | .realloc h sz _ => .resize h sz.toNat
  | .free h => .release h
  | .write h i b => .write h i b

theorem payloads_of_live {s : State q σ ι} {h : ι} {a : Allocation q} (ha : s.live h = some a) :
    payloads s h = some (s.world.mem.read a.ptr a.size.toNat) := by rw [payloads, ha]; rfl

theorem payloads_of_dead {s : State q σ ι} {h : ι} (hdead : s.live h = none) :
    payloads s h = none := by rw [payloads, hdead]; rfl

variable {B : Backing q σ} {K : Contract B} {s s' : State q σ ι} {h h' : ι}

/-- A payload is kept with its block. -/
theorem read_kept {m m' : Mem (8 * q)} {a : Allocation q}
    (hp : Placed (headerOf m a).pUnaligned a.ptr a.size a.alignment)
    (hkept : ∀ x, (blockOf m a).Has x → m' x = m x) :
    m'.read a.ptr a.size.toNat = m.read a.ptr a.size.toNat :=
  Mem.read_congr fun _ hi =>
    hkept _ (hp.payload_subset (inRange_offset hi a.size.isLt.le))

/-- A variable whose allocation and whose bytes stay keeps its payload. -/
theorem payloads_congr (hlive : s'.live h = s.live h)
    (hread : ∀ a, s.live h = some a →
      s'.world.mem.read a.ptr a.size.toNat = s.world.mem.read a.ptr a.size.toNat) :
    payloads s' h = payloads s h := by
  cases ha : s.live h with
  | none => rw [payloads_of_dead ha, payloads_of_dead (hlive.trans ha)]
  | some a => rw [payloads_of_live ha, payloads_of_live (hlive.trans ha), hread a ha]

variable [DecidableEq ι]

/-- If only variable `h` changed, the abstract store changed there and nowhere
else. -/
theorem payloads_update (inv : HeapInv K s) {W : World q σ} {o : Option (Allocation q)}
    (hkept : Kept (otherBlocks s h) s.world.mem W.mem) :
    payloads ⟨W, Function.update s.live h o⟩
      = Function.update (payloads s) h (o.map fun a => W.mem.read a.ptr a.size.toNat) := by
  funext h'
  by_cases hh : h' = h
  · subst hh
    rw [Function.update_self]
    show Option.map _ (Function.update s.live h' o h') = _
    rw [Function.update_self]
  · rw [Function.update_of_ne hh]
    refine payloads_congr (Function.update_of_ne hh _ _) fun a ha => ?_
    exact read_kept (inv.placed ha) (hkept _ ⟨h', a, hh, ha, rfl⟩)

/-- **Every effect is a step of the abstract store.** -/
theorem Effect.storeStep {l : Op q ι × Bool} (inv : HeapInv K s) (he : Effect K s l s') :
    StoreStep (payloads s) (l.1.request, l.2) (payloads s') := by
  cases he with
  | @refused op h sz alignment W hop href =>
    have hsame : payloads { s with world := W } = payloads s := by
      funext h'
      refine payloads_congr rfl fun a ha => ?_
      exact read_kept (inv.placed ha) (href.kept _ (inv.block_mem ha))
    rw [hsame]
    rcases hop with rfl | rfl
    · exact .allocFail
    · exact .resizeFail
  | @installed op h base p sz alignment W hop hins hpay =>
    rw [payloads_update inv hins.kept]
    rcases hop with ⟨rfl, hdead⟩ | rfl
    · exact .alloc (payloads_of_dead hdead) Mem.length_read
    · cases ha : s.live h with
      | none => exact .resizeDead (payloads_of_dead ha) Mem.length_read
      | some a =>
        refine .resize (payloads_of_live ha) Mem.length_read ?_
        rw [Mem.length_read, Mem.take_read (Nat.min_le_right _ _),
          Mem.take_read (Nat.min_le_left _ _)]
        exact Mem.read_congr (hpay a ha)
  | released _ _ hkept =>
    rw [payloads_update inv hkept]
    exact .release
  | @written h a i b ha hi =>
    -- only the payload of `h` has the byte that was written
    have hkept : Kept (otherBlocks s h) s.world.mem
        (s.world.mem.store (a.ptr + BitVec.ofNat _ i) b) := by
      rintro _ ⟨h', a', hne, ha', rfl⟩ x hx
      refine Mem.store_of_ne ?_
      rintro rfl
      exact inv.apart ha' ha hne _ hx
        ((inv.placed ha).payload_subset (inRange_offset hi a.size.isLt.le))
    have hupd : Function.update s.live h (some a) = s.live := by rw [← ha, Function.update_eq_self]
    set W : World q σ := { s.world with mem := s.world.mem.store (a.ptr + BitVec.ofNat _ i) b }
      with hW
    have hview : payloads ⟨W, Function.update s.live h (some a)⟩ = _ :=
      payloads_update inv hkept
    rw [hupd, Option.map_some, hW, Mem.read_store hi a.size.isLt.le] at hview
    rw [hview]
    exact .write (payloads_of_live ha) (by rwa [Mem.length_read])

/-! ## The results -/

variable {dflt : Backing q σ} {cb : Option (NsAllocationCallbacks q σ)} {W : World q σ}
  {tr : List (Op q ι × Bool)}

/-- **Heap layout.**  In every reachable state, every live aligned allocation `a`
has a power-of-two alignment that divides its pointer; the header bytes below the
pointer hold the base of a live block of the backing allocator, the size and the
alignment; header and payload lie inside that block; and the header and payload
bytes of different allocations are disjoint. -/
theorem alignedHeap_layout (hB : backingOf dflt cb = some B) (K : Contract B) (hok : K.ok W)
    (hnone : K.live W.priv = ∅) (hrun : Run (Step dflt cb) (State.initial W) tr s) :
    (∀ h a, s.live h = some a → ∃ base : Word q,
      (∃ k, a.alignment.toNat = 2 ^ k) ∧ a.alignment.toNat ∣ a.ptr.toNat ∧
      loadHeader s.world.mem (a.ptr - sizeofHeader q) = ⟨base, a.size, a.alignment⟩ ∧
      (⟨base, a.size + extraBytes a.alignment⟩ : Block q) ∈ K.live s.world.priv ∧
      base.toNat + headerBytes q ≤ a.ptr.toNat ∧
      a.ptr.toNat + a.size.toNat
        ≤ base.toNat + (a.size.toNat + (a.alignment.toNat - 1 + headerBytes q)) ∧
      base.toNat + (a.size.toNat + (a.alignment.toNat - 1 + headerBytes q))
        = base.toNat + (a.size + extraBytes a.alignment).toNat) ∧
    ∀ h h' a a', s.live h = some a → s.live h' = some a' → h ≠ h' → ∀ x,
      (InRange (a.ptr - sizeofHeader q) (headerBytes q) x ∨ InRange a.ptr a.size.toNat x) →
      ¬ (InRange (a'.ptr - sizeofHeader q) (headerBytes q) x ∨
        InRange a'.ptr a'.size.toNat x) := by
  have inv : HeapInv K s := Run.heapInv hB (heapInv_initial hok hnone) hrun
  constructor
  · intro h a ha
    have hp := inv.placed ha
    have hle := hp.le_base
    refine ⟨_, hp.accepted.pow, hp.dvd, inv.header ha, inv.block_mem ha, hp.base_le, by omega, ?_⟩
    rw [hp.accepted.toNat_request]
  · intro h h' a a' ha ha' hne x hx hx'
    have hsub : ∀ {h a}, s.live h = some a →
        (InRange (a.ptr - sizeofHeader q) (headerBytes q) x ∨ InRange a.ptr a.size.toNat x) →
        (blockOf s.world.mem a).Has x := fun {h a} ha hx =>
      hx.elim (inv.placed ha).header_subset (inv.placed ha).payload_subset
    exact inv.apart ha ha' hne x (hsub ha hx) (hsub ha' hx')

theorem alignedHeap_layout_sample : ∃ base : Word 1,
    loadHeader sample.world.mem (sample.ptr true - sizeofHeader 1) = ⟨base, 5, 4⟩ ∧
      4 ∣ (sample.ptr true).toNat ∧ (⟨base, 11⟩ : Block 1) ∈ sample.world.priv.blocks := by
  obtain ⟨base, -, hdvd, hhdr, hmem, -⟩ := (alignedHeap_layout rfl movingArena_contract
    (Arena.fresh_ok Nat.one_pos) Arena.fresh_live sample_run).1 true ⟨20, 5, 4⟩ rfl
  exact ⟨base, hhdr, hdvd, hmem⟩

/-- **Refinement.**  The client calls the aligned functions in any order; it allocates
into variables that hold nothing, and writes inside the requested bytes of a live
allocation.  However the backing allocator places, moves or refuses its blocks, the
payloads of the live allocations run exactly like an abstract store of byte arrays
that starts empty; and an operation of the client changes no payload but the one it
names. -/
theorem alignedHeap_refines_store (hB : backingOf dflt cb = some B) (K : Contract B)
    (hok : K.ok W) (hnone : K.live W.priv = ∅)
    (hrun : Run (Step dflt cb) (State.initial W) tr s) :
    Run StoreStep (fun _ => none) (tr.map fun l => (l.1.request, l.2)) (payloads s) ∧
    ∀ l s', Step dflt cb s l s' → ∀ h, h ≠ l.1.request.handle → payloads s' h = payloads s h := by
  have hinit : HeapInv K (State.initial W : State q σ ι) := heapInv_initial hok hnone
  constructor
  · let R : State q σ ι → Store ι Byte → Prop := fun s S => HeapInv K s ∧ payloads s = S
    have hR : R (State.initial W) (fun _ => none) := ⟨hinit, rfl⟩
    obtain ⟨S, hS, -, rfl⟩ := hrun.simulates hR fun {x S l y} hx hs => by
      obtain ⟨inv, rfl⟩ := hx
      have he := step_effect hB inv hs
      exact ⟨_, he.storeStep inv, he.heapInv inv, rfl⟩
    exact hS
  · intro l s' hs h hne
    have inv : HeapInv K s := Run.heapInv hB hinit hrun
    exact ((step_effect hB inv hs).storeStep inv).frame hne

theorem alignedHeap_refines_store_sample : Run StoreStep (fun _ => none)
    [(.alloc true 2, true), (.write true 1 7, true), (.alloc false 1, true),
      (.resize true 5, true), (.release false, true)] (payloads sample) :=
  (alignedHeap_refines_store rfl movingArena_contract (Arena.fresh_ok Nat.one_pos)
    Arena.fresh_live sample_run).1

end Refcode.Alloc
