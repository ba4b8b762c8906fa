import Refcode.Lib.Transition
import Refcode.Alloc.Spec

/-!
# The heap of a client of the aligned allocator

A client owns variables `ι`, each of them `NULL` or a live aligned pointer, and
calls `ns_aligned_malloc`, `ns_aligned_realloc` and `ns_aligned_free` on them, or
writes inside the bytes it asked for.  `step` runs one such operation of the
client; it is `none` where the client would break its own side of the bargain.

* `Step.of_malloc`, `Step.of_realloc`, `Step.of_free`, `Step.of_write` — what a step
  of each kind says of the functions it calls.
* `Effect` — everything one operation can do, in terms of the backing allocator's
  blocks; `step_effect` proves that nothing else happens.
* `HeapInv` — the layout invariant: every live allocation sits in a block of its
  own, behind an intact header, and there are no other blocks.
* `Intact` — the same without the last part, for clients that lose blocks.
* `Effect.heapInv` — the invariant is kept by every effect.
-/

namespace Refcode.Alloc

open Refcode.Lib

variable {q : ℕ} {σ ι : Type*}

/-! ## The client -/

/-- What the client knows of a live aligned allocation: its pointer, and the size
and the alignment it asked for. -/
structure Allocation (q : ℕ) where
  ptr : Word q
  size : Word q
  alignment : Word q

/-- The world and the client's variables. -/
structure State (q : ℕ) (σ ι : Type*) where
  world : World q σ
  live : ι → Option (Allocation q)

/-- The pointer in a variable; a variable with no allocation is `NULL`. -/
def State.ptr (s : State q σ ι) (h : ι) : Word q :=
  match s.live h with
  | some a => a.ptr
  | none => 0

theorem State.ptr_of_live {s : State q σ ι} {h : ι} {a : Allocation q}
    (ha : s.live h = some a) : s.ptr h = a.ptr := by rw [State.ptr, ha]

theorem State.ptr_of_dead {s : State q σ ι} {h : ι} (hdead : s.live h = none) : s.ptr h = 0 := by
  rw [State.ptr, hdead]

/-- An operation of the client. -/
inductive Op (q : ℕ) (ι : Type*) where
  | malloc (h : ι) (sz alignment : Word q)
  | realloc (h : ι) (sz alignment : Word q)
  | free (h : ι)
  | write (h : ι) (i : ℕ) (b : Byte)
  deriving DecidableEq

section Client

variable [DecidableEq ι]

/-- Book the answer of an allocating call: `NULL` leaves the variable alone. -/
def State.book (s : State q σ ι) (h : ι) (sz alignment : Word q) (r : Word q × World q σ) :
    State q σ ι × Bool :=
  if r.1 = 0 then ({ s with world := r.2 }, false)
  else (⟨r.2, Function.update s.live h (some ⟨r.1, sz, alignment⟩)⟩, true)

/-- One operation and whether it succeeded.  A variable that holds an allocation
is not overwritten by a new one, and writes stay inside the requested bytes. -/
def step (dflt : Backing q σ) (cb : Option (NsAllocationCallbacks q σ)) (s : State q σ ι) :
    Op q ι → Option (State q σ ι × Bool)
  | .malloc h sz alignment =>
    if (s.live h).isNone then
      some (s.book h sz alignment (nsAlignedMalloc dflt sz alignment cb s.world))
    else none
  | .realloc h sz alignment =>
    some (s.book h sz alignment (nsAlignedRealloc dflt (s.ptr h) sz alignment cb s.world))
  | .free h =>
    some (⟨nsAlignedFree dflt (s.ptr h) cb s.world, Function.update s.live h none⟩, true)
  | .write h i b =>
    match s.live h with
    | some a =>
      if i < a.size.toNat then
        some ({ s with
          world := { s.world with mem := s.world.mem.store (a.ptr + BitVec.ofNat _ i) b } }, true)
      else none
    | none => none

/-- The transition system of a client. -/
def Step (dflt : Backing q σ) (cb : Option (NsAllocationCallbacks q σ)) (s : State q σ ι)
    (l : Op q ι × Bool) (s' : State q σ ι) : Prop :=
  step dflt cb s l.1 = some (s', l.2)

/-- Run a list of operations, if the client may make all of them. -/
def perform (dflt : Backing q σ) (cb : Option (NsAllocationCallbacks q σ)) (s : State q σ ι) :
    List (Op q ι) → Option (State q σ ι × List (Op q ι × Bool))
  | [] => some (s, [])
  | op :: ops =>
    (step dflt cb s op).bind fun r =>
      (perform dflt cb r.1 ops).map fun t => (t.1, (op, r.2) :: t.2)

theorem Run.of_perform {dflt : Backing q σ} {cb : Option (NsAllocationCallbacks q σ)}
    {ops : List (Op q ι)} {s t : State q σ ι} {tr : List (Op q ι × Bool)}
    (h : perform dflt cb s ops = some (t, tr)) : Run (Step dflt cb) s tr t := by
  induction ops generalizing s tr with
  | nil =>
    cases h
    exact .nil
  | cons op ops ih =>
    obtain ⟨⟨u, ok⟩, hu, h⟩ := Option.bind_eq_some_iff.1 h
    obtain ⟨⟨t', tr'⟩, ht, heq⟩ := Option.map_eq_some_iff.1 h
    cases heq
    exact (ih ht).cons hu

end Client

/-! ## The layout invariant -/

/-- The header in front of an allocation, as memory has it. -/
def headerOf (m : Mem (8 * q)) (a : Allocation q) : NsAlignedAllocationHeader q :=
  loadHeader m (a.ptr - sizeofHeader q)

/-- The block an allocation lives in, going by its header. -/
def blockOf (m : Mem (8 * q)) (a : Allocation q) : Block q :=
  paddedBlock (headerOf m a).pUnaligned a.size a.alignment

/-- The blocks behind the live allocations. -/
def ownBlocks (s : State q σ ι) : Set (Block q) :=
  {b | ∃ h a, s.live h = some a ∧ blockOf s.world.mem a = b}

/-- The blocks behind the live allocations in variables other than `h`. -/
def otherBlocks (s : State q σ ι) (h : ι) : Set (Block q) :=
  {b | ∃ h' a, h' ≠ h ∧ s.live h' = some a ∧ blockOf s.world.mem a = b}

variable {B : Backing q σ}

/-- **The layout invariant.** -/
structure HeapInv (K : Contract B) (s : State q σ ι) : Prop where
  ok : K.ok s.world
  header : ∀ {h a}, s.live h = some a →
    headerOf s.world.mem a = ⟨(headerOf s.world.mem a).pUnaligned, a.size, a.alignment⟩
  placed : ∀ {h a}, s.live h = some a →
    Placed (headerOf s.world.mem a).pUnaligned a.ptr a.size a.alignment
  own : K.live s.world.priv = ownBlocks s
  apart : ∀ {h h' a a'}, s.live h = some a → s.live h' = some a' → h ≠ h' →
    (blockOf s.world.mem a).Apart (blockOf s.world.mem a')

/-- The layout invariant of a client that may have lost blocks: the backing allocator
holds the block of every live allocation, and perhaps others. -/
structure Intact (K : Contract B) (s : State q σ ι) : Prop where
  ok : K.ok s.world
  header : ∀ {h a}, s.live h = some a →
    headerOf s.world.mem a = ⟨(headerOf s.world.mem a).pUnaligned, a.size, a.alignment⟩
  placed : ∀ {h a}, s.live h = some a →
    Placed (headerOf s.world.mem a).pUnaligned a.ptr a.size a.alignment
  block_mem : ∀ {h a}, s.live h = some a → blockOf s.world.mem a ∈ K.live s.world.priv
  apart : ∀ {h h' a a'}, s.live h = some a → s.live h' = some a' → h ≠ h' →
    (blockOf s.world.mem a).Apart (blockOf s.world.mem a')

/-- A block is never empty. -/
theorem blockOf_size_ne_zero {m : Mem (8 * q)} {a : Allocation q}
    (h : Placed (headerOf m a).pUnaligned a.ptr a.size a.alignment) :
    (blockOf m a).size ≠ 0 := h.accepted.request_ne_zero

/-- An allocation whose block is kept keeps its header. -/
theorem headerOf_kept {m m' : Mem (8 * q)} {a : Allocation q}
    (h : Placed (headerOf m a).pUnaligned a.ptr a.size a.alignment)
    (hkept : ∀ x, (blockOf m a).Has x → m' x = m x) : headerOf m' a = headerOf m a :=
  loadHeader_congr fun x hx => hkept x (h.header_subset hx)

section Blocks

variable {K : Contract B} {s : State q σ ι} {h h' : ι} {a a' : Allocation q}

theorem HeapInv.block_mem (inv : HeapInv K s) (ha : s.live h = some a) :
    blockOf s.world.mem a ∈ K.live s.world.priv := by
  rw [inv.own]
  exact ⟨h, a, ha, rfl⟩

theorem HeapInv.intact (inv : HeapInv K s) : Intact K s :=
  ⟨inv.ok, inv.header, inv.placed, inv.block_mem, inv.apart⟩

/-- If the allocator has no other live blocks than those of the allocations, the layout
invariant holds. -/
theorem Intact.heapInv (inv : Intact K s) (hown : K.live s.world.priv = ownBlocks s) :
    HeapInv K s :=
  ⟨inv.ok, inv.header, inv.placed, hown, inv.apart⟩

/-- Different variables have blocks with different bases. -/
theorem Intact.base_inj (inv : Intact K s) (ha : s.live h = some a) (ha' : s.live h' = some a')
    (heq : (headerOf s.world.mem a).pUnaligned = (headerOf s.world.mem a').pUnaligned) :
    h = h' := by
  by_contra hne
  exact (inv.apart ha ha' hne).base_ne (blockOf_size_ne_zero (inv.placed ha))
    (blockOf_size_ne_zero (inv.placed ha')) heq

theorem HeapInv.base_inj (inv : HeapInv K s) (ha : s.live h = some a) (ha' : s.live h' = some a')
    (heq : (headerOf s.world.mem a).pUnaligned = (headerOf s.world.mem a').pUnaligned) :
    h = h' :=
  inv.intact.base_inj ha ha' heq

/-- The blocks of the others are among those left when the block of `h` goes. -/
theorem Intact.otherBlocks_subset (inv : Intact K s) (ha : s.live h = some a) :
    otherBlocks s h ⊆ K.live s.world.priv \ {blockOf s.world.mem a} := by
  rintro _ ⟨h', a', hne, ha', rfl⟩
  refine ⟨inv.block_mem ha', fun heq => hne (inv.base_inj ha' ha ?_)⟩
  exact congrArg Block.base heq

/-- All of them are among the blocks there are. -/
theorem Intact.otherBlocks_subset_live (inv : Intact K s) :
    otherBlocks s h ⊆ K.live s.world.priv := by
  rintro _ ⟨h', a', -, ha', rfl⟩
  exact inv.block_mem ha'

/-- Without the block of `h`, the blocks of the others are left. -/
theorem HeapInv.otherBlocks_eq (inv : HeapInv K s) (ha : s.live h = some a) :
    otherBlocks s h = K.live s.world.priv \ {blockOf s.world.mem a} := by
  apply (inv.intact.otherBlocks_subset ha).antisymm
  rw [inv.own]
  rintro _ ⟨⟨h', a', ha', rfl⟩, hne⟩
  refine ⟨h', a', ?_, ha', rfl⟩
  rintro rfl
  rw [ha] at ha'
  cases ha'
  exact hne rfl

theorem HeapInv.otherBlocks_eq_of_dead (inv : HeapInv K s) (hdead : s.live h = none) :
    otherBlocks s h = K.live s.world.priv := by
  apply inv.intact.otherBlocks_subset_live.antisymm
  rw [inv.own]
  rintro _ ⟨h', a', ha', rfl⟩
  refine ⟨h', a', ?_, ha', rfl⟩
  rintro rfl
  rw [hdead] at ha'
  cases ha'

end Blocks

/-! ## What an operation can do -/

variable [DecidableEq ι]

section Inversion

variable {dflt : Backing q σ} {cb : Option (NsAllocationCallbacks q σ)} {s s' : State q σ ι}
  {h : ι} {sz alignment : Word q} {i : ℕ} {b : Byte} {ok : Bool}

/-- The client allocates into variables that hold nothing. -/
theorem Step.of_malloc (hs : Step dflt cb s (.malloc h sz alignment, ok) s') :
    s.live h = none ∧
      s.book h sz alignment (nsAlignedMalloc dflt sz alignment cb s.world) = (s', ok) := by
  simp only [Step, step] at hs
  split_ifs at hs with hdead
  exact ⟨Option.isNone_iff_eq_none.1 hdead, Option.some.inj hs⟩

/-- A `realloc` is a `malloc` for a variable that holds nothing. -/
theorem Step.of_realloc (hs : Step dflt cb s (.realloc h sz alignment, ok) s') :
    (s.live h = none ∧
        s.book h sz alignment (nsAlignedMalloc dflt sz alignment cb s.world) = (s', ok)) ∨
      ∃ a, s.live h = some a ∧
        s.book h sz alignment (nsAlignedRealloc dflt a.ptr sz alignment cb s.world) = (s', ok) := by
  have hbook := Option.some.inj hs
  cases ha : s.live h with
  | none =>
    rw [State.ptr_of_dead ha, nsAlignedRealloc_null] at hbook
    exact Or.inl ⟨rfl, hbook⟩
  | some a =>
    rw [State.ptr_of_live ha] at hbook
    exact Or.inr ⟨a, rfl, hbook⟩

theorem Step.of_free (hs : Step dflt cb s (.free h, ok) s') :
    s' = ⟨nsAlignedFree dflt (s.ptr h) cb s.world, Function.update s.live h none⟩ ∧
      ok = true := by
  cases Option.some.inj hs
  exact ⟨rfl, rfl⟩

/-- Writes stay inside the requested bytes. -/
theorem Step.of_write (hs : Step dflt cb s (.write h i b, ok) s') :
    ∃ a, s.live h = some a ∧ i < a.size.toNat ∧
      s' = { s with world :=
        { s.world with mem := s.world.mem.store (a.ptr + BitVec.ofNat _ i) b } } ∧ ok = true := by
  simp only [Step, step] at hs
  cases ha : s.live h with
  | none => simp [ha] at hs
  | some a =>
    simp only [ha] at hs
    split_ifs at hs with hi
    cases Option.some.inj hs
    exact ⟨a, rfl, hi, rfl, rfl⟩

end Inversion

/-- One operation of the client, seen from the backing allocator's blocks. -/
inductive Effect (K : Contract B) (s : State q σ ι) : Op q ι × Bool → State q σ ι → Prop
  | refused {op : Op q ι} {h : ι} {sz alignment : Word q} {W : World q σ} :
      op = .malloc h sz alignment ∨ op = .realloc h sz alignment → Refused K s.world W →
      Effect K s (op, false) { s with world := W }
  | installed {op : Op q ι} {h : ι} {base p sz alignment : Word q} {W : World q σ} :
      op = .malloc h sz alignment ∧ s.live h = none ∨ op = .realloc h sz alignment →
      Installed K (otherBlocks s h) s.world.mem W base p sz alignment →
      (∀ a, s.live h = some a → ∀ i < min a.size.toNat sz.toNat,
        W.mem (p + BitVec.ofNat _ i) = s.world.mem (a.ptr + BitVec.ofNat _ i)) →
      Effect K s (op, true) ⟨W, Function.update s.live h (some ⟨p, sz, alignment⟩)⟩
  | released {h : ι} {W : World q σ} :
      K.ok W → K.live W.priv = otherBlocks s h → Kept (otherBlocks s h) s.world.mem W.mem →
      Effect K s (.free h, true) ⟨W, Function.update s.live h none⟩
  | written {h : ι} {a : Allocation q} {i : ℕ} {b : Byte} :
      s.live h = some a → i < a.size.toNat →
      Effect K s (.write h i b, true)
        { s with world :=
          { s.world with mem := s.world.mem.store (a.ptr + BitVec.ofNat _ i) b } }

section StepEffect

variable {dflt : Backing q σ} {cb : Option (NsAllocationCallbacks q σ)} {K : Contract B}
  {s s' : State q σ ι} {l : Op q ι × Bool}

/-- The answer of `ns_aligned_malloc` into a dead variable, booked. -/
theorem effect_malloc (hB : backingOf dflt cb = some B) (inv : HeapInv K s) {op : Op q ι} {h : ι}
    {sz alignment : Word q} {ok : Bool} (hdead : s.live h = none)
    (hop : op = .malloc h sz alignment ∨ op = .realloc h sz alignment)
    (hs : s.book h sz alignment (nsAlignedMalloc dflt sz alignment cb s.world) = (s', ok)) :
    Effect K s (op, ok) s' := by
  unfold State.book at hs
  rcases nsAlignedMalloc_spec K hB inv.ok with ⟨hnull, href⟩ | ⟨base, hins⟩
  · rw [if_pos hnull] at hs
    cases hs
    exact .refused hop href
  · rw [if_neg hins.ne_null] at hs
    cases hs
    rw [← inv.otherBlocks_eq_of_dead hdead] at hins
    refine .installed (hop.imp_left fun e => ⟨e, hdead⟩) hins fun a ha => ?_
    rw [hdead] at ha
    cases ha

/-- The answer of `ns_aligned_realloc` for a live variable, booked. -/
theorem effect_realloc (hB : backingOf dflt cb = some B) (inv : HeapInv K s) {h : ι}
    {a : Allocation q} {sz alignment : Word q} {ok : Bool} (ha : s.live h = some a)
    (hs : s.book h sz alignment (nsAlignedRealloc dflt a.ptr sz alignment cb s.world) = (s', ok)) :
    Effect K s (.realloc h sz alignment, ok) s' := by
  unfold State.book at hs
  rcases nsAlignedRealloc_spec K hB inv.ok (inv.placed ha) (inv.header ha) (inv.block_mem ha)
    with ⟨hnull, href⟩ | ⟨base, hins, hpay⟩
  · rw [if_pos hnull] at hs
    cases hs
    exact .refused (Or.inr rfl) href
  · rw [if_neg hins.ne_null] at hs
    cases hs
    have hother := inv.otherBlocks_eq ha
    unfold blockOf at hother
    rw [← hother] at hins
    refine .installed (Or.inr rfl) hins fun a' ha' => ?_
    rw [ha] at ha'
    cases ha'
    exact hpay

/-- `ns_aligned_free` of a variable. -/
theorem effect_free (hB : backingOf dflt cb = some B) (inv : HeapInv K s) (h : ι) :
    Effect K s (.free h, true)
      ⟨nsAlignedFree dflt (s.ptr h) cb s.world, Function.update s.live h none⟩ := by
  cases ha : s.live h with
  | none =>
    rw [State.ptr_of_dead ha, nsAlignedFree, if_pos rfl]
    exact .released inv.ok (inv.otherBlocks_eq_of_dead ha).symm fun _ _ _ _ => rfl
  | some a =>
    obtain ⟨hok, hrel⟩ :=
      nsAlignedFree_spec K hB inv.ok (inv.placed ha) (inv.header ha) (inv.block_mem ha)
    have hother := inv.otherBlocks_eq ha
    unfold blockOf at hother
    rw [State.ptr_of_live ha]
    refine .released hok ?_ ?_
    · rw [hother, hrel.released]
    · rw [hother]
      exact hrel.kept

/-- **An operation has one of the effects and no other.** -/
theorem step_effect (hB : backingOf dflt cb = some B) (inv : HeapInv K s)
    (hs : Step dflt cb s l s') : Effect K s l s' := by
  obtain ⟨op, ok⟩ := l
  cases op with
  | malloc h sz alignment =>
    obtain ⟨hdead, hbook⟩ := hs.of_malloc
    exact effect_malloc hB inv hdead (Or.inl rfl) hbook
  | realloc h sz alignment =>
    rcases hs.of_realloc with ⟨hdead, hbook⟩ | ⟨a, ha, hbook⟩
    · exact effect_malloc hB inv hdead (Or.inr rfl) hbook
    · exact effect_realloc hB inv ha hbook
  | free h =>
    obtain ⟨rfl, rfl⟩ := hs.of_free
    exact effect_free hB inv h
  | write h i b =>
    obtain ⟨a, ha, hi, rfl, rfl⟩ := hs.of_write
    exact .written ha hi

end StepEffect

/-! ## The invariant is kept -/

section Preservation

variable {K : Contract B} {s s' : State q σ ι} {l : Op q ι × Bool} {h : ι}

omit [DecidableEq ι] in
/-- A state whose live allocations are some of the old ones, with their headers as
they were and their blocks still live, is intact again. -/
theorem Intact.keep (inv : Intact K s) (hok : K.ok s'.world)
    (hold : ∀ {h a}, s'.live h = some a →
      s.live h = some a ∧ headerOf s'.world.mem a = headerOf s.world.mem a)
    (hmem : ∀ {h a}, s'.live h = some a → blockOf s.world.mem a ∈ K.live s'.world.priv) :
    Intact K s' := by
  have hblock : ∀ {h a}, s'.live h = some a →
      blockOf s'.world.mem a = blockOf s.world.mem a := fun ha => by
    rw [blockOf, (hold ha).2, blockOf]
  refine ⟨hok, fun {h a} ha => ?_, fun {h a} ha => ?_, fun {h a} ha => ?_,
    fun {h h' a a'} ha ha' hne => ?_⟩
  · rw [(hold ha).2]
    exact inv.header (hold ha).1
  · rw [(hold ha).2]
    exact inv.placed (hold ha).1
  · rw [hblock ha]
    exact hmem ha
  · rw [hblock ha, hblock ha']
    exact inv.apart (hold ha).1 (hold ha').1 hne

omit [DecidableEq ι] in
/-- The same for the layout invariant, when no block is left over. -/
theorem HeapInv.keep (inv : HeapInv K s) (hok : K.ok s'.world)
    (hold : ∀ {h a}, s'.live h = some a →
      s.live h = some a ∧ headerOf s'.world.mem a = headerOf s.world.mem a)
    (hown : K.live s'.world.priv = {b | ∃ h a, s'.live h = some a ∧ blockOf s.world.mem a = b}) :
    HeapInv K s' := by
  have hblock : ∀ {h a}, s'.live h = some a →
      blockOf s'.world.mem a = blockOf s.world.mem a := fun ha => by
    rw [blockOf, (hold ha).2, blockOf]
  have hkeep : Intact K s' := inv.intact.keep hok hold fun {h a} ha => by
    rw [hown]
    exact ⟨h, a, ha, rfl⟩
  apply hkeep.heapInv
  rw [hown]
  ext b
  constructor
  · rintro ⟨h, a, ha, rfl⟩
    exact ⟨h, a, ha, hblock ha⟩
  · rintro ⟨h, a, ha, rfl⟩
    exact ⟨h, a, ha, (hblock ha).symm⟩

omit [DecidableEq ι] in
/-- The allocations of the other variables keep their headers when their blocks
are kept. -/
theorem Intact.headerOf_other (inv : Intact K s) {m : Mem (8 * q)}
    (hkept : Kept (otherBlocks s h) s.world.mem m) {h' : ι} {a : Allocation q} (hne : h' ≠ h)
    (ha : s.live h' = some a) : headerOf m a = headerOf s.world.mem a :=
  headerOf_kept (inv.placed ha) (hkept _ ⟨h', a, hne, ha, rfl⟩)

omit [DecidableEq ι] in
/-- The allocations of the other variables keep their blocks when these blocks are kept. -/
theorem Intact.blockOf_other (inv : Intact K s) {m : Mem (8 * q)}
    (hkept : Kept (otherBlocks s h) s.world.mem m) {h' : ι} {a : Allocation q} (hne : h' ≠ h)
    (ha : s.live h' = some a) : blockOf m a = blockOf s.world.mem a := by
  rw [blockOf, inv.headerOf_other hkept hne ha, blockOf]

/-- A variable of the client after one of them has changed. -/
theorem live_update {x : Option (Allocation q)} {h' : ι} {a : Allocation q}
    (ha : Function.update s.live h x h' = some a) :
    h' = h ∧ x = some a ∨ h' ≠ h ∧ s.live h' = some a := by
  by_cases hh : h' = h
  · subst hh
    rw [Function.update_self] at ha
    exact Or.inl ⟨rfl, ha⟩
  · rw [Function.update_of_ne hh] at ha
    exact Or.inr ⟨hh, ha⟩

/-- A variable that is live after `h` has been emptied is one of the others. -/
theorem live_update_none {h' : ι} {a : Allocation q}
    (ha : Function.update s.live h none h' = some a) : h' ≠ h ∧ s.live h' = some a := by
  rcases live_update ha with ⟨-, hx⟩ | hother
  · cases hx
  · exact hother

/-- A variable that is live after `h` has been set is `h` or one of the others. -/
theorem live_update_some {a₀ : Allocation q} {h' : ι} {a : Allocation q}
    (ha : Function.update s.live h (some a₀) h' = some a) :
    h' = h ∧ a = a₀ ∨ h' ≠ h ∧ s.live h' = some a := by
  rcases live_update ha with ⟨hh, hx⟩ | hother
  · exact Or.inl ⟨hh, (Option.some.inj hx).symm⟩
  · exact Or.inr hother

section Installed

variable {W : World q σ} {base p sz alignment : Word q} {rest : Set (Block q)}

/-- The block of an installed allocation. -/
theorem Installed.blockOf_new {m : Mem (8 * q)} (hins : Installed K rest m W base p sz alignment) :
    blockOf W.mem ⟨p, sz, alignment⟩ = paddedBlock base sz alignment := by
  have hnew : headerOf W.mem ⟨p, sz, alignment⟩ = ⟨base, sz, alignment⟩ := hins.header
  rw [blockOf, hnew]

/-- The live allocations are intact after one has been installed in a variable, if the blocks
of the other variables are among those beside it. -/
theorem Intact.installed (inv : Intact K s)
    (hins : Installed K rest s.world.mem W base p sz alignment) (hrest : otherBlocks s h ⊆ rest) :
    Intact K ⟨W, Function.update s.live h (some ⟨p, sz, alignment⟩)⟩ := by
  have hnew : headerOf W.mem ⟨p, sz, alignment⟩ = ⟨base, sz, alignment⟩ := hins.header
  have hkept := hins.kept.mono hrest
  have hblock : ∀ {h' a}, h' ≠ h → s.live h' = some a →
      blockOf W.mem a = blockOf s.world.mem a := fun hne ha => inv.blockOf_other hkept hne ha
  refine ⟨hins.ok, fun {h' a} ha => ?_, fun {h' a} ha => ?_, fun {h' a} ha => ?_,
    fun {h₁ h₂ a₁ a₂} h1 h2 hne => ?_⟩
  · show headerOf W.mem a = ⟨(headerOf W.mem a).pUnaligned, _, _⟩
    rcases live_update_some ha with ⟨-, rfl⟩ | ⟨hne, ha⟩
    · rw [hnew]
    · rw [inv.headerOf_other hkept hne ha]
      exact inv.header ha
  · show Placed (headerOf W.mem a).pUnaligned _ _ _
    rcases live_update_some ha with ⟨-, rfl⟩ | ⟨hne, ha⟩
    · rw [hnew]
      exact hins.placed
    · rw [inv.headerOf_other hkept hne ha]
      exact inv.placed ha
  · show blockOf W.mem a ∈ K.live W.priv
    rw [hins.live]
    rcases live_update_some ha with ⟨-, rfl⟩ | ⟨hne, ha⟩
    · exact Or.inl hins.blockOf_new
    · rw [hblock hne ha]
      exact Or.inr (hrest ⟨h', a, hne, ha, rfl⟩)
  · show (blockOf W.mem a₁).Apart (blockOf W.mem a₂)
    rcases live_update_some h1 with ⟨e1, rfl⟩ | ⟨hne1, k1⟩ <;>
      rcases live_update_some h2 with ⟨e2, rfl⟩ | ⟨hne2, k2⟩
    · exact absurd (e1.trans e2.symm) hne
    · rw [hins.blockOf_new, hblock hne2 k2]
      exact hins.apart _ (hrest ⟨h₂, a₂, hne2, k2, rfl⟩)
    · rw [hins.blockOf_new, hblock hne1 k1]
      exact (hins.apart _ (hrest ⟨h₁, a₁, hne1, k1, rfl⟩)).symm
    · rw [hblock hne1 k1, hblock hne2 k2]
      exact inv.apart k1 k2 hne

/-- The layout invariant holds after an allocation has been installed in a variable. -/
theorem HeapInv.installed (inv : HeapInv K s)
    (hins : Installed K (otherBlocks s h) s.world.mem W base p sz alignment) :
    HeapInv K ⟨W, Function.update s.live h (some ⟨p, sz, alignment⟩)⟩ := by
  apply (inv.intact.installed hins subset_rfl).heapInv
  show K.live W.priv = _
  rw [hins.live]
  ext b
  constructor
  · rintro (rfl | ⟨h', a, hne, ha, rfl⟩)
    · exact ⟨h, _, Function.update_self _ _ _, hins.blockOf_new⟩
    · refine ⟨h', a, ?_, inv.intact.blockOf_other hins.kept hne ha⟩
      show Function.update s.live h _ h' = some a
      rw [Function.update_of_ne hne, ha]
  · rintro ⟨h', a, ha, rfl⟩
    rcases live_update_some ha with ⟨-, rfl⟩ | ⟨hne, ha⟩
    · exact Or.inl hins.blockOf_new
    · exact Or.inr ⟨h', a, hne, ha, (inv.intact.blockOf_other hins.kept hne ha).symm⟩

end Installed

omit [DecidableEq ι] in
/-- A write inside a payload leaves every header alone. -/
theorem Intact.headerOf_store (inv : Intact K s) {h' : ι} {a a' : Allocation q} {i : ℕ}
    {b : Byte} (ha : s.live h = some a) (hi : i < a.size.toNat) (ha' : s.live h' = some a') :
    headerOf (s.world.mem.store (a.ptr + BitVec.ofNat _ i) b) a' = headerOf s.world.mem a' := by
  have hpay : InRange a.ptr a.size.toNat (a.ptr + BitVec.ofNat _ i) :=
    inRange_offset hi a.size.isLt.le
  refine loadHeader_congr fun x hx => Mem.store_of_ne ?_
  rintro rfl
  by_cases hh : h' = h
  · subst hh
    rw [ha] at ha'
    cases ha'
    exact (inv.placed ha).header_apart_payload hx hpay
  · exact inv.apart ha' ha hh _ ((inv.placed ha').header_subset hx)
      ((inv.placed ha).payload_subset hpay)

omit [DecidableEq ι] in
/-- A write inside a payload leaves the state of the backing allocator in order. -/
theorem Intact.ok_store (inv : Intact K s) {a : Allocation q} {i : ℕ} {b : Byte}
    (ha : s.live h = some a) (hi : i < a.size.toNat) :
    K.ok { s.world with mem := s.world.mem.store (a.ptr + BitVec.ofNat _ i) b } := by
  refine K.frame inv.ok fun x hx => Mem.store_of_ne ?_
  rintro rfl
  exact hx _ (inv.block_mem ha)
    ((inv.placed ha).payload_subset (inRange_offset hi a.size.isLt.le))

/-- **Every effect keeps the invariant.** -/
theorem Effect.heapInv (inv : HeapInv K s) (he : Effect K s l s') : HeapInv K s' := by
  cases he with
  | refused _ href =>
    refine inv.keep href.ok (fun ha => ⟨ha, ?_⟩) (href.live.trans inv.own)
    exact headerOf_kept (inv.placed ha) (href.kept _ (inv.block_mem ha))
  | installed _ hins _ => exact inv.installed hins
  | @released h W hok hlive hkept =>
    refine inv.keep hok (fun ha => ⟨(live_update_none ha).2, ?_⟩) ?_
    · exact inv.intact.headerOf_other hkept (live_update_none ha).1 (live_update_none ha).2
    · show K.live W.priv = _
      rw [hlive]
      ext b
      constructor
      · rintro ⟨h', a, hne, ha, rfl⟩
        refine ⟨h', a, ?_, rfl⟩
        show Function.update s.live h none h' = some a
        rw [Function.update_of_ne hne, ha]
      · rintro ⟨h', a, ha, rfl⟩
        exact ⟨h', a, (live_update_none ha).1, (live_update_none ha).2, rfl⟩
  | @written h a i b ha hi =>
    exact inv.keep (inv.intact.ok_store ha hi)
      (fun ha' => ⟨ha', inv.intact.headerOf_store ha hi ha'⟩) inv.own

/-- The client that holds nothing yet. -/
def State.initial (W : World q σ) : State q σ ι := ⟨W, fun _ => none⟩

omit [DecidableEq ι] in
theorem heapInv_initial {W : World q σ} (hok : K.ok W) (hnone : K.live W.priv = ∅) :
    HeapInv K (State.initial W : State q σ ι) := by
  have hdead : ∀ {h a}, (State.initial W : State q σ ι).live h ≠ some a := by
    intro h a ha
    cases ha
  refine ⟨hok, fun {h a} ha => absurd ha hdead, fun {h a} ha => absurd ha hdead, ?_,
    fun {h h' a a'} ha => absurd ha hdead⟩
  show K.live W.priv = _
  rw [hnone]
  ext b
  constructor
  · exact fun hb => absurd hb (Set.notMem_empty b)
  · rintro ⟨h, a, ha, -⟩
    exact absurd ha hdead

/-- **The layout invariant holds in every reachable state.** -/
theorem Run.heapInv {dflt : Backing q σ} {cb : Option (NsAllocationCallbacks q σ)}
    (hB : backingOf dflt cb = some B) {ls : List (Op q ι × Bool)} (inv : HeapInv K s)
    (hrun : Run (Step dflt cb) s ls s') : HeapInv K s' :=
  hrun.preserves inv fun inv hs => (step_effect hB inv hs).heapInv inv

end Preservation

end Refcode.Alloc
