import Refcode.Alloc.Refinement

/-!
# A client of all entry points

A program that uses the plain and the aligned functions of `allocation_callbacks.c` side
by side, and passes its callbacks directly or in a copy that it has made with
`ns_allocation_callbacks_init_copy`.  A variable holds an allocation of either kind, and is
resized and released with the functions of that kind.

* `mixedStep`, `MixedStep` — the client.
* `Tenanted` — the invariant: every allocation has a block of the backing allocator to
  itself, and there are no other blocks.
* `Occupied`, `Tenanted.occupied` — what a call that succeeds, or a write, does to it.
* `mixedHeap_refines_store` — the result.
-/

namespace Refcode.Alloc

open Refcode.Lib

variable {q : ℕ} {σ ι : Type*}

/-! ## Copied callbacks -/

/-- The callbacks a call is made with: the client's own, or a copy of them. -/
def choose (dflt : Backing q σ) (cb : Option (NsAllocationCallbacks q σ)) (copied : Bool) :
    Option (NsAllocationCallbacks q σ) :=
  if copied then some (nsAllocationCallbacksInitCopy dflt cb) else cb

/-- **A copy leads to the same allocator.** -/
theorem backingOf_choose (dflt : Backing q σ) (cb : Option (NsAllocationCallbacks q σ))
    (copied : Bool) : backingOf dflt (choose dflt cb copied) = backingOf dflt cb := by
  cases copied with
  | false => rfl
  | true => cases cb <;> rfl

/-! ## The client -/

/-- An allocation of either kind. -/
inductive Cell (q : ℕ) where
  | plain (b : Block q)
  | aligned (a : Allocation q)

def Cell.ptr : Cell q → Word q
  | .plain b => b.base
  | .aligned a => a.ptr

def Cell.size : Cell q → Word q
  | .plain b => b.size
  | .aligned a => a.size

def Cell.isAligned : Cell q → Bool
  | .plain _ => false
  | .aligned _ => true

/-- The world and the client's variables. -/
structure MixedState (q : ℕ) (σ ι : Type*) where
  world : World q σ
  live : ι → Option (Cell q)

/-- The pointer in a variable; a variable with no allocation is `NULL`. -/
def MixedState.ptr (s : MixedState q σ ι) (h : ι) : Word q :=
  match s.live h with
  | some c => c.ptr
  | none => 0

/-- An operation of the client. -/
inductive MixedOp (q : ℕ) (ι : Type*) where
  | malloc (h : ι) (sz : Word q)
  | calloc (h : ι) (sz : Word q)
  | realloc (h : ι) (sz : Word q)
  | free (h : ι)
  | alignedMalloc (h : ι) (sz alignment : Word q)
  | alignedRealloc (h : ι) (sz alignment : Word q)
  | alignedFree (h : ι)
  | write (h : ι) (i : ℕ) (b : Byte)

section Client

variable [DecidableEq ι]

/-- Book the answer of an allocating call: `NULL` leaves the variable alone. -/
def MixedState.book (s : MixedState q σ ι) (h : ι) (cell : Word q → Cell q)
    (r : Word q × World q σ) : MixedState q σ ι × Bool :=
  if r.1 = 0 then ({ s with world := r.2 }, false)
  else (⟨r.2, Function.update s.live h (some (cell r.1))⟩, true)

/-- One operation and whether it succeeded.  A variable that holds an allocation is not
overwritten by a new one, the functions of one kind are not used on the other, writes stay
inside the requested bytes, and the plain functions are not asked for no bytes. -/
def mixedStep (dflt : Backing q σ) (cb : Option (NsAllocationCallbacks q σ))
    (s : MixedState q σ ι) : MixedOp q ι → Option (MixedState q σ ι × Bool)
  | .malloc h sz =>
    if (s.live h).isNone ∧ sz ≠ 0 then
      some (s.book h (fun p => .plain ⟨p, sz⟩) (nsMalloc dflt sz cb s.world))
    else none
  | .calloc h sz =>
    if (s.live h).isNone ∧ sz ≠ 0 then
      some (s.book h (fun p => .plain ⟨p, sz⟩) (nsCalloc dflt sz cb s.world))
    else none
  | .realloc h sz =>
    if (s.live h).any (!·.isAligned) ∧ sz ≠ 0 then
      some (s.book h (fun p => .plain ⟨p, sz⟩) (nsRealloc dflt (s.ptr h) sz cb s.world))
    else none
  | .free h =>
    if (s.live h).all (!·.isAligned) then
      some (⟨nsFree dflt (s.ptr h) cb s.world, Function.update s.live h none⟩, true)
    else none
  | .alignedMalloc h sz alignment =>
    if (s.live h).isNone then
      some (s.book h (fun p => .aligned ⟨p, sz, alignment⟩)
        (nsAlignedMalloc dflt sz alignment cb s.world))
    else none
  | .alignedRealloc h sz alignment =>
    if (s.live h).all (·.isAligned) then
      some (s.book h (fun p => .aligned ⟨p, sz, alignment⟩)
        (nsAlignedRealloc dflt (s.ptr h) sz alignment cb s.world))
    else none
  | .alignedFree h =>
    if (s.live h).all (·.isAligned) then
      some (⟨nsAlignedFree dflt (s.ptr h) cb s.world, Function.update s.live h none⟩, true)
    else none
  | .write h i b =>
    if (s.live h).any (i < ·.size.toNat) then
      some ({ s with world :=
        { s.world with mem := s.world.mem.store (s.ptr h + BitVec.ofNat _ i) b } }, true)
    else none

/-- The transition system of a client; the label says which callbacks were passed. -/
def MixedStep (dflt : Backing q σ) (cb : Option (NsAllocationCallbacks q σ))
    (s : MixedState q σ ι) (l : Bool × MixedOp q ι × Bool) (s' : MixedState q σ ι) : Prop :=
  mixedStep dflt (choose dflt cb l.1) s l.2.1 = some (s', l.2.2)

/-- Run a list of operations, if the client may make all of them. -/
def mixedPerform (dflt : Backing q σ) (cb : Option (NsAllocationCallbacks q σ))
    (s : MixedState q σ ι) :
    List (Bool × MixedOp q ι) → Option (MixedState q σ ι × List (Bool × MixedOp q ι × Bool))
  | [] => some (s, [])
  | (copied, op) :: ops =>
    (mixedStep dflt (choose dflt cb copied) s op).bind fun r =>
      (mixedPerform dflt cb r.1 ops).map fun t => (t.1, (copied, op, r.2) :: t.2)

theorem Run.of_mixedPerform {dflt : Backing q σ} {cb : Option (NsAllocationCallbacks q σ)}
    {ops : List (Bool × MixedOp q ι)} {s t : MixedState q σ ι}
    {tr : List (Bool × MixedOp q ι × Bool)} (h : mixedPerform dflt cb s ops = some (t, tr)) :
    Run (MixedStep dflt cb) s tr t := by
  induction ops generalizing s tr with
  | nil =>
    cases h
    exact .nil
  | cons op ops ih =>
    obtain ⟨⟨u, ok⟩, hu, h⟩ := Option.bind_eq_some_iff.1 h
    obtain ⟨⟨t', tr'⟩, ht, heq⟩ := Option.map_eq_some_iff.1 h
    cases heq
    exact (ih ht).cons hu

end Client

/-! ## Where the allocations are -/

/-- The block of the backing allocator that an allocation lives in. -/
def Cell.block (m : Mem (8 * q)) : Cell q → Block q
  | .plain b => b
  | .aligned a => blockOf m a

/-- An allocation is what the client takes it for: an aligned one has its header, which
leads to the block. -/
def Cell.Sound (m : Mem (8 * q)) : Cell q → Prop
  | .plain b => b.base ≠ 0 ∧ b.size ≠ 0
  | .aligned a =>
    headerOf m a = ⟨(headerOf m a).pUnaligned, a.size, a.alignment⟩ ∧
      Placed (headerOf m a).pUnaligned a.ptr a.size a.alignment

variable {B : Backing q σ} {K : Contract B} {s s' : MixedState q σ ι} {h h' : ι} {c c' : Cell q}
  {m m' : Mem (8 * q)} {W : World q σ}

theorem Cell.Sound.size_ne_zero (hc : c.Sound m) : (c.block m).size ≠ 0 := by
  cases c with
  | plain b => exact hc.2
  | aligned a => exact blockOf_size_ne_zero hc.2

theorem Cell.Sound.ptr_ne_zero (hc : c.Sound m) : c.ptr ≠ 0 := by
  cases c with
  | plain b => exact hc.1
  | aligned a => exact hc.2.ne_null

/-- The payload lies in the block. -/
theorem Cell.Sound.payload_subset (hc : c.Sound m) {x : Word q}
    (hx : InRange c.ptr c.size.toNat x) : (c.block m).Has x := by
  cases c with
  | plain b => exact hx
  | aligned a => exact hc.2.payload_subset hx

/-- An allocation whose block is kept is as it was. -/
theorem Cell.Sound.kept (hc : c.Sound m) (hkept : ∀ x, (c.block m).Has x → m' x = m x) :
    c.Sound m' ∧ c.block m' = c.block m := by
  cases c with
  | plain b => exact ⟨hc, rfl⟩
  | aligned a =>
    have hheader : headerOf m' a = headerOf m a := headerOf_kept hc.2 hkept
    simp only [Cell.Sound, Cell.block, blockOf, hheader]
    exact ⟨hc, trivial⟩

/-- The blocks of the variables other than `h`. -/
def MixedState.others (s : MixedState q σ ι) (h : ι) : Set (Block q) :=
  {b | ∃ h' c, h' ≠ h ∧ s.live h' = some c ∧ c.block s.world.mem = b}

/-- **The invariant.** -/
structure Tenanted (K : Contract B) (s : MixedState q σ ι) : Prop where
  ok : K.ok s.world
  sound : ∀ {h c}, s.live h = some c → c.Sound s.world.mem
  own : K.live s.world.priv = {b | ∃ h c, s.live h = some c ∧ c.block s.world.mem = b}
  apart : ∀ {h h' c c'}, s.live h = some c → s.live h' = some c' → h ≠ h' →
    (c.block s.world.mem).Apart (c'.block s.world.mem)

theorem Tenanted.block_mem (inv : Tenanted K s) (hc : s.live h = some c) :
    c.block s.world.mem ∈ K.live s.world.priv := by
  rw [inv.own]
  exact ⟨h, c, hc, rfl⟩

/-- Without the block of `h`, the blocks of the others are left. -/
theorem Tenanted.others_eq (inv : Tenanted K s) (hc : s.live h = some c) :
    s.others h = K.live s.world.priv \ {c.block s.world.mem} := by
  rw [inv.own]
  ext b
  constructor
  · rintro ⟨h', c', hne, hc', rfl⟩
    refine ⟨⟨h', c', hc', rfl⟩, fun heq => ?_⟩
    exact (inv.apart hc' hc hne).base_ne (inv.sound hc').size_ne_zero
      (inv.sound hc).size_ne_zero (congrArg Block.base heq)
  · rintro ⟨⟨h', c', hc', rfl⟩, hne⟩
    refine ⟨h', c', ?_, hc', rfl⟩
    rintro rfl
    rw [hc] at hc'
    cases hc'
    exact hne rfl

theorem Tenanted.others_eq_of_dead (inv : Tenanted K s) (hdead : s.live h = none) :
    s.others h = K.live s.world.priv := by
  rw [inv.own]
  ext b
  constructor
  · rintro ⟨h', c', -, hc', rfl⟩
    exact ⟨h', c', hc', rfl⟩
  · rintro ⟨h', c', hc', rfl⟩
    refine ⟨h', c', ?_, hc', rfl⟩
    rintro rfl
    rw [hdead] at hc'
    cases hc'

/-! ## What happens to them -/

/-- `c` is the allocation of `h` in `W`, and the others have not been touched. -/
structure Occupied (K : Contract B) (s : MixedState q σ ι) (h : ι) (W : World q σ) (c : Cell q) :
    Prop where
  ok : K.ok W
  live : K.live W.priv = insert (c.block W.mem) (s.others h)
  kept : Kept (s.others h) s.world.mem W.mem
  sound : c.Sound W.mem
  apart : ∀ b ∈ s.others h, (c.block W.mem).Apart b

/-- The other allocations are as they were. -/
theorem Tenanted.kept (inv : Tenanted K s) (hkept : Kept (s.others h) s.world.mem m)
    (hne : h' ≠ h) (hc : s.live h' = some c) :
    c.Sound m ∧ c.block m = c.block s.world.mem :=
  (inv.sound hc).kept (hkept _ ⟨h', c, hne, hc, rfl⟩)

variable [DecidableEq ι]

/-- A variable that is live after `h` has changed is `h` or one of the others. -/
theorem live_update_cases {f : ι → Option (Cell q)} {o : Option (Cell q)}
    (hc : Function.update f h o h' = some c) :
    h' = h ∧ o = some c ∨ h' ≠ h ∧ f h' = some c := by
  by_cases hh : h' = h
  · subst hh
    rw [Function.update_self] at hc
    exact Or.inl ⟨rfl, hc⟩
  · rw [Function.update_of_ne hh] at hc
    exact Or.inr ⟨hh, hc⟩

/-- **The invariant holds after an allocation has been booked** in a variable it occupies. -/
theorem Tenanted.occupied (inv : Tenanted K s) (hocc : Occupied K s h W c) :
    Tenanted K ⟨W, Function.update s.live h (some c)⟩ := by
  have hother : ∀ {h' c'}, h' ≠ h → s.live h' = some c' →
      c'.Sound W.mem ∧ c'.block W.mem = c'.block s.world.mem := fun hne hc =>
    inv.kept hocc.kept hne hc
  refine ⟨hocc.ok, fun {h' c'} hc' => ?_, ?_, fun {h₁ h₂ c₁ c₂} h1 h2 hne => ?_⟩
  · rcases live_update_cases hc' with ⟨-, hx⟩ | ⟨hne, hc'⟩
    · cases hx
      exact hocc.sound
    · exact (hother hne hc').1
  · show K.live W.priv = _
    rw [hocc.live]
    ext b
    constructor
    · rintro (rfl | ⟨h', c', hne, hc', rfl⟩)
      · exact ⟨h, c, Function.update_self .., rfl⟩
      · refine ⟨h', c', ?_, (hother hne hc').2⟩
        show Function.update s.live h _ h' = _
        rw [Function.update_of_ne hne, hc']
    · rintro ⟨h', c', hc', rfl⟩
      rcases live_update_cases hc' with ⟨-, hx⟩ | ⟨hne, hc'⟩
      · cases hx
        exact Or.inl rfl
      · exact Or.inr ⟨h', c', hne, hc', (hother hne hc').2.symm⟩
  · show (c₁.block W.mem).Apart (c₂.block W.mem)
    rcases live_update_cases h1 with ⟨e1, hx1⟩ | ⟨hne1, k1⟩ <;>
      rcases live_update_cases h2 with ⟨e2, hx2⟩ | ⟨hne2, k2⟩
    · exact absurd (e1.trans e2.symm) hne
    · cases hx1
      rw [(hother hne2 k2).2]
      exact hocc.apart _ ⟨h₂, c₂, hne2, k2, rfl⟩
    · cases hx2
      rw [(hother hne1 k1).2]
      exact (hocc.apart _ ⟨h₁, c₁, hne1, k1, rfl⟩).symm
    · rw [(hother hne1 k1).2, (hother hne2 k2).2]
      exact inv.apart k1 k2 hne

/-- **The invariant holds after a variable has been emptied**, if its block is gone and those
of the others are kept. -/
theorem Tenanted.vacated (inv : Tenanted K s) (hok : K.ok W)
    (hlive : K.live W.priv = s.others h) (hkept : Kept (s.others h) s.world.mem W.mem) :
    Tenanted K ⟨W, Function.update s.live h none⟩ := by
  have hother : ∀ {h' c'}, Function.update s.live h none h' = some c' →
      h' ≠ h ∧ s.live h' = some c' ∧ c'.Sound W.mem ∧
        c'.block W.mem = c'.block s.world.mem := by
    intro h' c' hc'
    rcases live_update_cases hc' with ⟨-, hx⟩ | ⟨hne, hc'⟩
    · cases hx
    · exact ⟨hne, hc', inv.kept hkept hne hc'⟩
  refine ⟨hok, fun hc' => (hother hc').2.2.1, ?_, fun {h₁ h₂ c₁ c₂} h1 h2 hne => ?_⟩
  · show K.live W.priv = _
    rw [hlive]
    ext b
    constructor
    · rintro ⟨h', c', hne, hc', rfl⟩
      refine ⟨h', c', ?_, (inv.kept hkept hne hc').2⟩
      show Function.update s.live h none h' = _
      rw [Function.update_of_ne hne, hc']
    · rintro ⟨h', c', hc', rfl⟩
      obtain ⟨hne, hc', -, hblock⟩ := hother hc'
      exact ⟨h', c', hne, hc', hblock.symm⟩
  · show (c₁.block W.mem).Apart (c₂.block W.mem)
    obtain ⟨-, k1, -, hblock1⟩ := hother h1
    obtain ⟨-, k2, -, hblock2⟩ := hother h2
    rw [hblock1, hblock2]
    exact inv.apart k1 k2 hne

omit [DecidableEq ι] in
/-- **The invariant holds after a refused call.** -/
theorem Tenanted.refused (inv : Tenanted K s) (href : Refused K s.world W) :
    Tenanted K { s with world := W } := by
  have hsame : ∀ {h c}, s.live h = some c →
      c.Sound W.mem ∧ c.block W.mem = c.block s.world.mem := fun hc =>
    (inv.sound hc).kept (href.kept _ (inv.block_mem hc))
  refine ⟨href.ok, fun hc => (hsame hc).1, ?_, fun {h₁ h₂ c₁ c₂} h1 h2 hne => ?_⟩
  · show K.live W.priv = _
    rw [href.live, inv.own]
    ext b
    constructor
    · rintro ⟨h, c, hc, rfl⟩
      exact ⟨h, c, hc, (hsame hc).2⟩
    · rintro ⟨h, c, hc, rfl⟩
      exact ⟨h, c, hc, (hsame hc).2.symm⟩
  · show (c₁.block W.mem).Apart (c₂.block W.mem)
    rw [(hsame h1).2, (hsame h2).2]
    exact inv.apart h1 h2 hne

/-! ## What they hold -/

/-- What the live allocations hold. -/
def contents (s : MixedState q σ ι) : Store ι Byte :=
  fun h => (s.live h).map fun c => s.world.mem.read c.ptr c.size.toNat

omit [DecidableEq ι] in
theorem contents_of_live (hc : s.live h = some c) :
    contents s h = some (s.world.mem.read c.ptr c.size.toNat) := by simp [contents, hc]

omit [DecidableEq ι] in
theorem contents_of_dead (hdead : s.live h = none) : contents s h = none := by
  simp [contents, hdead]

omit [DecidableEq ι] in
/-- A payload is kept with its block. -/
theorem Cell.Sound.read_kept (hc : c.Sound m) (hkept : ∀ x, (c.block m).Has x → m' x = m x) :
    m'.read c.ptr c.size.toNat = m.read c.ptr c.size.toNat :=
  Mem.read_congr fun _ hi => hkept _ (hc.payload_subset (inRange_offset hi c.size.isLt.le))

/-- If only variable `h` changed, the abstract store changed there and nowhere else. -/
theorem contents_update (inv : Tenanted K s) (hkept : Kept (s.others h) s.world.mem W.mem)
    (o : Option (Cell q)) : contents ⟨W, Function.update s.live h o⟩
      = Function.update (contents s) h (o.map fun c => W.mem.read c.ptr c.size.toNat) := by
  funext h'
  by_cases hh : h' = h
  · subst hh
    simp [contents]
  · rw [Function.update_of_ne hh]
    simp only [contents, Function.update_of_ne hh]
    cases hc : s.live h' with
    | none => rfl
    | some c =>
      simp only [Option.map_some]
      rw [(inv.sound hc).read_kept (hkept _ ⟨h', c, hh, hc, rfl⟩)]

/-! ## The entry points -/

section EntryPoints

variable {dflt : Backing q σ} {cb : Option (NsAllocationCallbacks q σ)} {sz alignment : Word q}
  {a : Allocation q} {b : Block q} {base p : Word q}

omit [DecidableEq ι] in
/-- **`ns_malloc`.** -/
theorem Tenanted.malloc (inv : Tenanted K s) (hB : backingOf dflt cb = some B)
    (hdead : s.live h = none) (hsz : sz ≠ 0) :
    (nsMalloc dflt sz cb s.world).1 = 0 ∧ Refused K s.world (nsMalloc dflt sz cb s.world).2 ∨
      Occupied K s h (nsMalloc dflt sz cb s.world).2
        (.plain ⟨(nsMalloc dflt sz cb s.world).1, sz⟩) := by
  rw [nsMalloc_eq hB]
  obtain ⟨hok, hgr⟩ := K.malloc inv.ok hsz
  by_cases hnull : (B.malloc sz s.world).1 = 0
  · exact Or.inl ⟨hnull, hok, hgr.refused hnull, hgr.kept⟩
  · rw [← inv.others_eq_of_dead hdead] at hgr
    exact Or.inr ⟨hok, hgr.granted hnull, hgr.kept, ⟨hnull, hsz⟩, hgr.apart hnull⟩

omit [DecidableEq ι] in
/-- An allocation may be written to: its block is its own. -/
theorem Occupied.write (hocc : Occupied K s h W c)
    (hm : ∀ x, ¬ (c.block W.mem).Has x → m x = W.mem x)
    (hsound : c.Sound m) (hblock : c.block m = c.block W.mem) :
    Occupied K s h { W with mem := m } c := by
  refine ⟨K.frame hocc.ok fun x hx => hm x (hx _ ?_), ?_, ?_, hsound, ?_⟩
  · rw [hocc.live]
    exact Set.mem_insert _ _
  · rw [hblock]
    exact hocc.live
  · intro b hb x hx
    exact (hm x fun hown => hocc.apart b hb x hown hx).trans (hocc.kept b hb x hx)
  · rw [hblock]
    exact hocc.apart

omit [DecidableEq ι] in
/-- **`ns_calloc`.**  What it returns is zero. -/
theorem Tenanted.calloc (inv : Tenanted K s) (hB : backingOf dflt cb = some B)
    (hdead : s.live h = none) (hsz : sz ≠ 0) :
    (nsCalloc dflt sz cb s.world).1 = 0 ∧ Refused K s.world (nsCalloc dflt sz cb s.world).2 ∨
      Occupied K s h (nsCalloc dflt sz cb s.world).2
          (.plain ⟨(nsCalloc dflt sz cb s.world).1, sz⟩) ∧
        (nsCalloc dflt sz cb s.world).2.mem.read (nsCalloc dflt sz cb s.world).1 sz.toNat
          = List.replicate sz.toNat 0 := by
  have hmalloc := inv.malloc hB hdead hsz
  unfold nsCalloc
  simp only []
  split_ifs with hnull
  · rcases hmalloc with ⟨hzero, -⟩ | hocc
    · exact absurd hzero hnull
    · refine Or.inr ⟨hocc.write ?_ hocc.sound rfl, Mem.read_fill sz.isLt.le⟩
      intro x hx
      exact Mem.fill_of_not_inRange hx
  · rcases hmalloc with hrefused | hocc
    · exact Or.inl hrefused
    · exact absurd hocc.sound.1 hnull

omit [DecidableEq ι] in
/-- **`ns_realloc`.**  What it returns begins like what it was given. -/
theorem Tenanted.realloc (inv : Tenanted K s) (hB : backingOf dflt cb = some B)
    (hc : s.live h = some (.plain b)) (hsz : sz ≠ 0) :
    (nsRealloc dflt b.base sz cb s.world).1 = 0 ∧
        Refused K s.world (nsRealloc dflt b.base sz cb s.world).2 ∨
      Occupied K s h (nsRealloc dflt b.base sz cb s.world).2
          (.plain ⟨(nsRealloc dflt b.base sz cb s.world).1, sz⟩) ∧
        ∀ i < min b.size.toNat sz.toNat,
          (nsRealloc dflt b.base sz cb s.world).2.mem
              ((nsRealloc dflt b.base sz cb s.world).1 + BitVec.ofNat _ i)
            = s.world.mem (b.base + BitVec.ofNat _ i) := by
  rw [nsRealloc_eq hB]
  obtain ⟨hok, hre⟩ := K.realloc inv.ok hsz (inv.block_mem hc)
  have hothers := inv.others_eq hc
  simp only [Cell.block] at hok hre hothers
  by_cases hnull : (B.realloc b.base sz s.world).1 = 0
  · obtain ⟨hsame, hkept⟩ := hre.refused hnull
    exact Or.inl ⟨hnull, hok, hsame, hkept⟩
  · refine Or.inr ⟨⟨hok, ?_, ?_, ⟨hnull, hsz⟩, ?_⟩, hre.copied hnull⟩
    · rw [hothers]
      exact hre.granted hnull
    · rw [hothers]
      exact hre.kept
    · rw [hothers]
      exact hre.apart hnull

omit [DecidableEq ι] in
/-- **`ns_free`.** -/
theorem Tenanted.free (inv : Tenanted K s) (hB : backingOf dflt cb = some B)
    (hc : s.live h = some (.plain b)) :
    K.ok (nsFree dflt b.base cb s.world) ∧
      K.live (nsFree dflt b.base cb s.world).priv = s.others h ∧
      Kept (s.others h) s.world.mem (nsFree dflt b.base cb s.world).mem := by
  have hne : b.base ≠ 0 := (inv.sound hc).1
  rw [nsFree_eq hB hne]
  obtain ⟨hok, hrel⟩ := K.free inv.ok (inv.block_mem hc)
  rw [inv.others_eq hc]
  exact ⟨hok, hrel.released, hrel.kept⟩

omit [DecidableEq ι] in
/-- An installed aligned allocation occupies the variable it is booked in. -/
theorem Occupied.of_installed
    (hins : Installed K (s.others h) s.world.mem W base p sz alignment) :
    Occupied K s h W (.aligned ⟨p, sz, alignment⟩) := by
  have hblock : Cell.block W.mem (.aligned ⟨p, sz, alignment⟩) = paddedBlock base sz alignment :=
    hins.blockOf_new
  have hheader : headerOf W.mem ⟨p, sz, alignment⟩ = ⟨base, sz, alignment⟩ := hins.header
  refine ⟨hins.ok, ?_, hins.kept, ?_, ?_⟩
  · rw [hblock]
    exact hins.live
  · simp only [Cell.Sound, hheader]
    exact ⟨trivial, hins.placed⟩
  · rw [hblock]
    exact hins.apart

omit [DecidableEq ι] in
/-- **`ns_aligned_malloc`.** -/
theorem Tenanted.alignedMalloc (inv : Tenanted K s) (hB : backingOf dflt cb = some B)
    (hdead : s.live h = none) :
    (nsAlignedMalloc dflt sz alignment cb s.world).1 = 0 ∧
        Refused K s.world (nsAlignedMalloc dflt sz alignment cb s.world).2 ∨
      Occupied K s h (nsAlignedMalloc dflt sz alignment cb s.world).2
        (.aligned ⟨(nsAlignedMalloc dflt sz alignment cb s.world).1, sz, alignment⟩) := by
  rcases nsAlignedMalloc_spec K hB inv.ok with hrefused | ⟨base, hins⟩
  · exact Or.inl hrefused
  · rw [← inv.others_eq_of_dead hdead] at hins
    exact Or.inr (.of_installed hins)

omit [DecidableEq ι] in
/-- **`ns_aligned_realloc`.** -/
theorem Tenanted.alignedRealloc (inv : Tenanted K s) (hB : backingOf dflt cb = some B)
    (hc : s.live h = some (.aligned a)) :
    (nsAlignedRealloc dflt a.ptr sz alignment cb s.world).1 = 0 ∧
        Refused K s.world (nsAlignedRealloc dflt a.ptr sz alignment cb s.world).2 ∨
      Occupied K s h (nsAlignedRealloc dflt a.ptr sz alignment cb s.world).2
          (.aligned ⟨(nsAlignedRealloc dflt a.ptr sz alignment cb s.world).1, sz, alignment⟩) ∧
        ∀ i < min a.size.toNat sz.toNat,
          (nsAlignedRealloc dflt a.ptr sz alignment cb s.world).2.mem
              ((nsAlignedRealloc dflt a.ptr sz alignment cb s.world).1 + BitVec.ofNat _ i)
            = s.world.mem (a.ptr + BitVec.ofNat _ i) := by
  obtain ⟨hheader, hplaced⟩ := inv.sound hc
  rcases nsAlignedRealloc_spec K hB inv.ok hplaced hheader (inv.block_mem hc)
    with hrefused | ⟨base, hins, hpay⟩
  · exact Or.inl hrefused
  · have hothers := inv.others_eq hc
    simp only [Cell.block, blockOf] at hothers
    rw [← hothers] at hins
    exact Or.inr ⟨.of_installed hins, hpay⟩

omit [DecidableEq ι] in
/-- **`ns_aligned_free`.** -/
theorem Tenanted.alignedFree (inv : Tenanted K s) (hB : backingOf dflt cb = some B)
    (hc : s.live h = some (.aligned a)) :
    K.ok (nsAlignedFree dflt a.ptr cb s.world) ∧
      K.live (nsAlignedFree dflt a.ptr cb s.world).priv = s.others h ∧
      Kept (s.others h) s.world.mem (nsAlignedFree dflt a.ptr cb s.world).mem := by
  obtain ⟨hheader, hplaced⟩ := inv.sound hc
  obtain ⟨hok, hrel⟩ := nsAlignedFree_spec K hB inv.ok hplaced hheader (inv.block_mem hc)
  rw [inv.others_eq hc]
  exact ⟨hok, hrel.released, hrel.kept⟩

omit [DecidableEq ι] in
/-- **A write inside the requested bytes.** -/
theorem Tenanted.write (inv : Tenanted K s) (hc : s.live h = some c) {i : ℕ} {x : Byte}
    (hi : i < c.size.toNat) :
    Occupied K s h
      { s.world with mem := s.world.mem.store (c.ptr + BitVec.ofNat _ i) x } c := by
  have hin : InRange c.ptr c.size.toNat (c.ptr + BitVec.ofNat _ i) :=
    inRange_offset hi c.size.isLt.le
  have hself : Occupied K s h s.world c := by
    refine ⟨inv.ok, ?_, fun _ _ _ _ => rfl, inv.sound hc, ?_⟩
    · rw [inv.others_eq hc, Set.insert_sdiff_singleton, Set.insert_eq_of_mem (inv.block_mem hc)]
    · rintro _ ⟨h', c', hne, hc', rfl⟩
      exact inv.apart hc hc' hne.symm
  have hout : ∀ y, ¬ (c.block s.world.mem).Has y →
      s.world.mem.store (c.ptr + BitVec.ofNat _ i) x y = s.world.mem y := fun y hy =>
    Mem.store_of_ne fun heq => hy (heq ▸ (inv.sound hc).payload_subset hin)
  cases c with
  | plain b => exact hself.write hout (inv.sound hc) rfl
  | aligned a =>
    obtain ⟨hold, hplaced⟩ := inv.sound hc
    -- the header is below the payload
    have hheader : headerOf (s.world.mem.store (a.ptr + BitVec.ofNat _ i) x) a
        = headerOf s.world.mem a := loadHeader_congr fun y hy => Mem.store_of_ne fun heq =>
      hplaced.header_apart_payload hy (heq ▸ hin)
    refine hself.write hout ?_ ?_
    · simp only [Cell.Sound, Cell.ptr, hheader]
      exact ⟨hold, hplaced⟩
    · simp only [Cell.block, Cell.ptr, blockOf, hheader]

end EntryPoints

/-! ## The refinement -/

/-- The request to the abstract store that an operation makes. -/
def MixedOp.request : MixedOp q ι → Request ι Byte × Bool
  | .malloc h sz | .alignedMalloc h sz _ => (.alloc h sz.toNat, false)
  | .calloc h sz => (.alloc h sz.toNat, true)
  | .realloc h sz | .alignedRealloc h sz _ => (.resize h sz.toNat, false)
  | .free h | .alignedFree h => (.release h, false)
  | .write h i b => (.write h i b, false)

/-- The answer of an allocating call, booked: `P` is what else is known of a success. -/
theorem Tenanted.book (inv : Tenanted K s) {cell : Word q → Cell q} {r : Word q × World q σ}
    {ok : Bool} {P : Prop} (hs : s.book h cell r = (s', ok)) (hptr : (cell r.1).ptr = r.1)
    (hspec : r.1 = 0 ∧ Refused K s.world r.2 ∨ Occupied K s h r.2 (cell r.1) ∧ P) :
    Tenanted K s' ∧
      (ok = false ∧ contents s' = contents s ∨
        ok = true ∧ P ∧ contents s'
          = Function.update (contents s) h (some (r.2.mem.read r.1 (cell r.1).size.toNat))) := by
  unfold MixedState.book at hs
  rcases hspec with ⟨hnull, href⟩ | ⟨hocc, hP⟩
  · rw [if_pos hnull] at hs
    cases hs
    refine ⟨inv.refused href, Or.inl ⟨rfl, ?_⟩⟩
    funext h'
    simp only [contents]
    cases hc : s.live h' with
    | none => rfl
    | some c => simp [(inv.sound hc).read_kept (href.kept _ (inv.block_mem hc))]
  · have hne : r.1 ≠ 0 := hptr ▸ hocc.sound.ptr_ne_zero
    rw [if_neg hne] at hs
    cases hs
    refine ⟨inv.occupied hocc, Or.inr ⟨rfl, hP, ?_⟩⟩
    rw [contents_update inv hocc.kept, Option.map_some, hptr]

/-- A resized array keeps its first cells. -/
theorem take_read_resized {p p' : Word q} {n n' : ℕ}
    (hcopied : ∀ i < min n n', m' (p' + BitVec.ofNat _ i) = m (p + BitVec.ofNat _ i)) :
    (m'.read p' n').take (min (m.read p n).length n')
      = (m.read p n).take (min (m.read p n).length n') := by
  rw [Mem.length_read, Mem.take_read (Nat.min_le_right _ _), Mem.take_read (Nat.min_le_left _ _)]
  exact Mem.read_congr hcopied

section Step

variable {dflt : Backing q σ} {cb : Option (NsAllocationCallbacks q σ)} {sz alignment : Word q}
  {l : Bool × MixedOp q ι × Bool}

omit [DecidableEq ι] in
theorem MixedState.ptr_of_live (hc : s.live h = some c) : s.ptr h = c.ptr := by
  simp [MixedState.ptr, hc]

omit [DecidableEq ι] in
theorem MixedState.ptr_of_dead (hdead : s.live h = none) : s.ptr h = 0 := by
  simp [MixedState.ptr, hdead]

omit [DecidableEq ι] in
/-- A variable for the plain functions. -/
theorem plain_or_dead (hall : (s.live h).all (!·.isAligned) = true) :
    s.live h = none ∨ ∃ b, s.live h = some (.plain b) := by
  cases hc : s.live h with
  | none => exact Or.inl rfl
  | some c =>
    cases c with
    | plain b => exact Or.inr ⟨b, rfl⟩
    | aligned a => simp [hc, Cell.isAligned] at hall

omit [DecidableEq ι] in
/-- A variable for the aligned functions. -/
theorem aligned_or_dead (hall : (s.live h).all (·.isAligned) = true) :
    s.live h = none ∨ ∃ a, s.live h = some (.aligned a) := by
  cases hc : s.live h with
  | none => exact Or.inl rfl
  | some c =>
    cases c with
    | plain b => simp [hc, Cell.isAligned] at hall
    | aligned a => exact Or.inr ⟨a, rfl⟩

/-- Releasing a variable, with either function. -/
theorem Tenanted.release (inv : Tenanted K s) (hok : K.ok W)
    (hlive : K.live W.priv = s.others h) (hkept : Kept (s.others h) s.world.mem W.mem) :
    Tenanted K ⟨W, Function.update s.live h none⟩ ∧
      ClearStep 0 (contents s) ((.release h, false), true)
        (contents ⟨W, Function.update s.live h none⟩) := by
  refine ⟨inv.vacated hok hlive hkept, ?_⟩
  rw [contents_update inv hkept none]
  exact .request .release

/-- Releasing `NULL`. -/
theorem Tenanted.release_null (inv : Tenanted K s) (hdead : s.live h = none) :
    Tenanted K ⟨s.world, Function.update s.live h none⟩ ∧
      ClearStep 0 (contents s) ((.release h, false), true)
        (contents ⟨s.world, Function.update s.live h none⟩) :=
  inv.release inv.ok (inv.others_eq_of_dead hdead).symm fun _ _ _ _ => rfl

/-- The answer of an allocating call, as an answer of the store. -/
theorem clearStep_of_booked {S : Store ι Byte} {r : Request ι Byte} {bs : List Byte} {ok : Bool}
    {P : Prop} (hbooked : ok = false ∧ contents s' = S ∨
      ok = true ∧ P ∧ contents s' = Function.update S h (some bs))
    (hfail : StoreStep S (r, false) S)
    (hgrant : P → StoreStep S (r, true) (Function.update S h (some bs))) :
    ClearStep 0 S ((r, false), ok) (contents s') := by
  rcases hbooked with ⟨rfl, heq⟩ | ⟨rfl, hP, heq⟩
  · rw [heq]
    exact .request hfail
  · rw [heq]
    exact .request (hgrant hP)

/-- **Every operation keeps the invariant and is a step of the abstract store.** -/
theorem MixedStep.storeStep (inv : Tenanted K s) (hB : backingOf dflt cb = some B)
    (hs : MixedStep dflt cb s l s') :
    Tenanted K s' ∧ ClearStep 0 (contents s) (l.2.1.request, l.2.2) (contents s') := by
  obtain ⟨copied, op, ok⟩ := l
  rw [← backingOf_choose dflt cb copied] at hB
  simp only [MixedStep] at hs
  cases op with
  | malloc h sz =>
    simp only [mixedStep, Option.isNone_iff_eq_none] at hs
    split_ifs at hs with hguard
    obtain ⟨hdead, hsz⟩ := hguard
    obtain ⟨hinv, hbooked⟩ := inv.book (P := True) (Option.some.inj hs) rfl
      ((inv.malloc hB hdead hsz).imp_right fun hocc => ⟨hocc, trivial⟩)
    exact ⟨hinv, clearStep_of_booked hbooked .allocFail fun _ =>
      .alloc (contents_of_dead hdead) Mem.length_read⟩
  | calloc h sz =>
    simp only [mixedStep, Option.isNone_iff_eq_none] at hs
    split_ifs at hs with hguard
    obtain ⟨hdead, hsz⟩ := hguard
    obtain ⟨hinv, hbooked⟩ := inv.book (Option.some.inj hs) rfl (inv.calloc hB hdead hsz)
    refine ⟨hinv, ?_⟩
    rcases hbooked with ⟨rfl, heq⟩ | ⟨rfl, hzero, heq⟩
    · rw [heq]
      exact .clearFail
    · rw [heq]
      simp only [Cell.size]
      rw [hzero]
      exact .clear (contents_of_dead hdead)
  | realloc h sz =>
    simp only [mixedStep] at hs
    split_ifs at hs with hguard
    obtain ⟨hany, hsz⟩ := hguard
    obtain ⟨b, hc⟩ : ∃ b, s.live h = some (.plain b) := by
      rcases plain_or_dead (h := h) (s := s) (by cases hc : s.live h <;> simp_all) with hdead | hc
      · simp [hdead] at hany
      · exact hc
    rw [MixedState.ptr_of_live hc] at hs
    obtain ⟨hinv, hbooked⟩ := inv.book (Option.some.inj hs) rfl (inv.realloc hB hc hsz)
    exact ⟨hinv, clearStep_of_booked hbooked .resizeFail fun hcopied =>
      .resize (contents_of_live hc) Mem.length_read (take_read_resized hcopied)⟩
  | free h =>
    simp only [mixedStep] at hs
    split_ifs at hs with hguard
    obtain ⟨rfl, rfl⟩ := Prod.mk.inj (Option.some.inj hs)
    rcases plain_or_dead hguard with hdead | ⟨b, hc⟩
    · rw [MixedState.ptr_of_dead hdead, show nsFree dflt 0 _ s.world = s.world from if_pos rfl]
      exact inv.release_null hdead
    · obtain ⟨hok, hlive, hkept⟩ := inv.free hB hc
      rw [MixedState.ptr_of_live hc]
      exact inv.release hok hlive hkept
  | alignedMalloc h sz alignment =>
    simp only [mixedStep, Option.isNone_iff_eq_none] at hs
    split_ifs at hs with hdead
    obtain ⟨hinv, hbooked⟩ := inv.book (P := True) (Option.some.inj hs) rfl
      ((inv.alignedMalloc hB hdead).imp_right fun hocc => ⟨hocc, trivial⟩)
    exact ⟨hinv, clearStep_of_booked hbooked .allocFail fun _ =>
      .alloc (contents_of_dead hdead) Mem.length_read⟩
  | alignedRealloc h sz alignment =>
    simp only [mixedStep] at hs
    split_ifs at hs with hguard
    rcases aligned_or_dead hguard with hdead | ⟨a, hc⟩
    · rw [MixedState.ptr_of_dead hdead, nsAlignedRealloc_null] at hs
      obtain ⟨hinv, hbooked⟩ := inv.book (P := True) (Option.some.inj hs) rfl
        ((inv.alignedMalloc hB hdead).imp_right fun hocc => ⟨hocc, trivial⟩)
      exact ⟨hinv, clearStep_of_booked hbooked .resizeFail fun _ =>
        .resizeDead (contents_of_dead hdead) Mem.length_read⟩
    · rw [MixedState.ptr_of_live hc] at hs
      obtain ⟨hinv, hbooked⟩ := inv.book (Option.some.inj hs) rfl (inv.alignedRealloc hB hc)
      exact ⟨hinv, clearStep_of_booked hbooked .resizeFail fun hcopied =>
        .resize (contents_of_live hc) Mem.length_read (take_read_resized hcopied)⟩
  | alignedFree h =>
    simp only [mixedStep] at hs
    split_ifs at hs with hguard
    obtain ⟨rfl, rfl⟩ := Prod.mk.inj (Option.some.inj hs)
    rcases aligned_or_dead hguard with hdead | ⟨a, hc⟩
    · rw [MixedState.ptr_of_dead hdead, nsAlignedFree, if_pos rfl]
      exact inv.release_null hdead
    · obtain ⟨hok, hlive, hkept⟩ := inv.alignedFree hB hc
      rw [MixedState.ptr_of_live hc]
      exact inv.release hok hlive hkept
  | write h i x =>
    simp only [mixedStep] at hs
    split_ifs at hs with hguard
    obtain ⟨rfl, rfl⟩ := Prod.mk.inj (Option.some.inj hs)
    cases hc : s.live h with
    | none => simp [hc] at hguard
    | some c =>
      have hi : i < c.size.toNat := by simpa [hc] using hguard
      have hocc := inv.write hc hi (x := x)
      have hupd : Function.update s.live h (some c) = s.live := by
        rw [← hc, Function.update_eq_self]
      have hinv := inv.occupied hocc
      have hview := contents_update inv hocc.kept (some c)
      rw [hupd] at hinv hview
      rw [MixedState.ptr_of_live hc]
      refine ⟨hinv, ?_⟩
      rw [hview, Option.map_some, Mem.read_store hi c.size.isLt.le]
      refine .request (.write (contents_of_live hc) ?_)
      rwa [Mem.length_read]

end Step

/-- The client that holds nothing yet. -/
def MixedState.initial (W : World q σ) : MixedState q σ ι := ⟨W, fun _ => none⟩

omit [DecidableEq ι] in
theorem tenanted_initial (hok : K.ok W) (hnone : K.live W.priv = ∅) :
    Tenanted K (MixedState.initial W : MixedState q σ ι) := by
  have hdead : ∀ {h c}, (MixedState.initial W : MixedState q σ ι).live h ≠ some c := by
    intro h c hc
    cases hc
  refine ⟨hok, fun {h c} hc => absurd hc hdead, ?_, fun {h h' c c'} hc => absurd hc hdead⟩
  show K.live W.priv = _
  rw [hnone]
  ext b
  simp [MixedState.initial]

variable {dflt : Backing q σ} {cb : Option (NsAllocationCallbacks q σ)}
  {tr : List (Bool × MixedOp q ι × Bool)}

/-- **The plain and the aligned functions together.**  The client calls all seven of them in
any order, with its own callbacks or a copy, and keeps to the rules of `mixedStep`: it
allocates into variables that hold nothing, uses the functions of one kind only on what
those of the same kind have returned, writes inside the requested bytes of a live
allocation, asks the plain functions for one byte at least, and gives `ns_realloc` a live
allocation.  However the backing allocator places, moves or refuses its blocks, the payloads
run exactly like an abstract store of byte arrays in which what `ns_calloc` returns is zero;
every operation leaves the arrays it does not name alone; and the blocks that the backing
allocator holds are those of the live allocations, one each and apart from each other. -/
theorem mixedHeap_refines_store (hB : backingOf dflt cb = some B) (K : Contract B) (hok : K.ok W)
    (hnone : K.live W.priv = ∅)
    (hrun : Run (MixedStep dflt cb) (MixedState.initial W) tr s) :
    Run (ClearStep 0) (fun _ => none) (tr.map fun l => (l.2.1.request, l.2.2)) (contents s) ∧
    (∀ l s', MixedStep dflt cb s l s' →
      ∀ h, h ≠ l.2.1.request.1.handle → contents s' h = contents s h) ∧
    K.live s.world.priv = {b | ∃ h c, s.live h = some c ∧ c.block s.world.mem = b} ∧
    (∀ h c, s.live h = some c → ∀ x, InRange c.ptr c.size.toNat x →
      (c.block s.world.mem).Has x) ∧
    ∀ h h' c c', s.live h = some c → s.live h' = some c' → h ≠ h' →
      (c.block s.world.mem).Apart (c'.block s.world.mem) := by
  let R : MixedState q σ ι → Store ι Byte → Prop := fun s S => Tenanted K s ∧ contents s = S
  have hR : R (MixedState.initial W) (fun _ => none) := ⟨tenanted_initial hok hnone, rfl⟩
  obtain ⟨S, hS, inv, rfl⟩ := hrun.simulates hR fun {x S l y} hx hs => by
    obtain ⟨inv, rfl⟩ := hx
    obtain ⟨hinv, hstep⟩ := hs.storeStep inv hB
    exact ⟨_, hstep, hinv, rfl⟩
  refine ⟨hS, fun l s' hs h hne => (hs.storeStep inv hB).2.frame hne, inv.own,
    fun h c hc x hx => (inv.sound hc).payload_subset hx, fun h h' c c' hc hc' hne =>
    inv.apart hc hc' hne⟩

/-- An array of zeros, next to an aligned one that is asked for through a copy of the
callbacks, is written to, moved and kept when the other one is released. -/
def mixedSampleOps : List (Bool × MixedOp 1 Bool) :=
  [(false, .calloc true 3), (true, .alignedMalloc false 2 4), (false, .write true 1 7),
    (true, .realloc true 5), (false, .alignedFree false)]

/-- What this client does, one-byte addresses being enough for it. -/
def mixedSample : MixedState 1 (Arena 1) Bool × List (Bool × MixedOp 1 Bool × Bool) :=
  (mixedPerform (movingArena 1) none (.initial (Arena.fresh 1)) mixedSampleOps).get (by decide)

theorem mixedHeap_refines_store_sample : Run (ClearStep 0) (fun _ => none)
    [((.alloc true 3, true), true), ((.alloc false 2, false), true),
      ((.write true 1 7, false), true), ((.resize true 5, false), true),
      ((.release false, false), true)] (contents mixedSample.1) := by
  have hperform : mixedPerform (movingArena 1) none (.initial (Arena.fresh 1)) mixedSampleOps
      = some mixedSample := (Option.some_get _).symm
  exact (mixedHeap_refines_store rfl movingArena_contract (Arena.fresh_ok Nat.one_pos)
    Arena.fresh_live (Run.of_mixedPerform hperform)).1

end Refcode.Alloc
