import Refcode.Alloc.Refinement

/-!
# When the aligned functions answer `NULL`, and what is left then

The client of this file chooses its callbacks anew for every operation.  They stand
for one backing allocator, but any of the three functions may be missing (`Over`);
a missing `onFree` loses blocks, so the layout invariant of such a client is
`Intact`.

* `accepted_iff_pow` — what the guards turn away: alignments that are no powers of
  two, and sizes above `SIZE_MAX - (alignment - 1 + sizeof(header))`.  The guard on
  the padding alone is never reached with a power of two (`padding_guard`).
* `Run.intact` — the live allocations stay intact through every run.
* `alignedHeap_rejects` — the exact reasons for `NULL`, and that every call that
  answers `NULL` leaves the heap as it was.
-/

namespace Refcode.Alloc

open Refcode.Lib

variable {q : ℕ} {σ ι : Type*}

/-! ## The guards -/

section Guards

variable {sz alignment : Word q}

/-- The padding of a power of two is a `size_t`. -/
theorem padding_lt (h : ∃ k, alignment.toNat = 2 ^ k) :
    alignment.toNat - 1 + headerBytes q < 2 ^ (8 * q) := by
  obtain ⟨k, hk⟩ := h
  have hlt := alignment.isLt
  rw [hk] at hlt ⊢
  have hkq : k < 8 * q := (Nat.pow_lt_pow_iff_right (by norm_num)).1 hlt
  have hhalf : 2 ^ k ≤ 2 ^ (8 * q - 1) := Nat.pow_le_pow_right (by norm_num) (by omega)
  have hdouble : 2 * 2 ^ (8 * q - 1) = 2 ^ (8 * q) := mul_pow_sub_one (by omega) 2
  have hheader := mul_lt_two_pow 6 (show 0 < q by omega) (by norm_num)
  unfold headerBytes
  omega

/-- The guard on the padding is never taken. -/
theorem padding_guard (h : ¬ badAlignment alignment) :
    ¬ alignment - 1 > -1 - sizeofHeader q := by
  rw [not_badAlignment_iff] at h
  have hlt := padding_lt h
  rw [gt_iff_lt, BitVec.lt_def, toNat_neg_one_sub, toNat_sizeofHeader,
    toNat_sub_one (ne_zero_of_pow h)]
  omega

/-- The requests that pass the guards, in the words of their limits. -/
theorem accepted_iff_pow : Accepted sz alignment ↔ (∃ k, alignment.toNat = 2 ^ k) ∧
    ¬ 2 ^ (8 * q) - 1 - (alignment.toNat - 1 + headerBytes q) < sz.toNat := by
  constructor
  · intro h
    have hfits := h.fits
    exact ⟨h.pow, by omega⟩
  · rintro ⟨hpow, hsz⟩
    have hlt := padding_lt hpow
    exact ⟨hpow, by omega⟩

end Guards

/-! ## Callbacks of one backing allocator -/

/-- The callbacks `cb` stand for the allocator `B`; each of them may be `NULL`. -/
def Over (dflt B : Backing q σ) : Option (NsAllocationCallbacks q σ) → Prop
  | none => dflt = B
  | some cb =>
    (∀ f, cb.onMalloc = some f → ∀ sz W, f sz cb.pUserData W = B.malloc sz W) ∧
    (∀ f, cb.onRealloc = some f → ∀ p sz W, f p sz cb.pUserData W = B.realloc p sz W) ∧
    (∀ f, cb.onFree = some f → ∀ p W, f p cb.pUserData W = B.free p W)

section Over

variable {dflt B : Backing q σ} {cb : Option (NsAllocationCallbacks q σ)}
  {W : World q σ} {base p sz oldSize alignment oldAlignment : Word q}

/-- A full set of callbacks stands for the allocator behind it. -/
theorem over_of_backingOf (h : backingOf dflt cb = some B) : Over dflt B cb := by
  rcases cb with _ | ⟨u, _ | onMalloc, _ | onRealloc, _ | onFree⟩ <;>
    simp [backingOf] at h <;> subst h
  · rfl
  · refine ⟨?_, ?_, ?_⟩ <;> rintro f ⟨⟩ <;> intros <;> rfl

/-- A call goes to the allocator, or the callback is missing and nothing happens. -/
theorem Over.malloc_call (h : Over dflt B cb) (sz : Word q) :
    nsMalloc dflt sz cb W = nsMalloc B sz none W ∨ nsMalloc dflt sz cb W = (0, W) := by
  rcases cb with _ | ⟨u, _ | onMalloc, onRealloc, onFree⟩
  · cases h
    exact Or.inl rfl
  · exact Or.inr rfl
  · exact Or.inl (h.1 onMalloc rfl sz W)

theorem Over.realloc_call (h : Over dflt B cb) (p sz : Word q) :
    nsRealloc dflt p sz cb W = nsRealloc B p sz none W ∨ nsRealloc dflt p sz cb W = (0, W) := by
  rcases cb with _ | ⟨u, onMalloc, _ | onRealloc, onFree⟩
  · cases h
    exact Or.inl rfl
  · exact Or.inr rfl
  · exact Or.inl (h.2.1 onRealloc rfl p sz W)

theorem Over.free_call (h : Over dflt B cb) (p : Word q) :
    nsFree dflt p cb W = nsFree B p none W ∨ nsFree dflt p cb W = W := by
  by_cases hp : p = 0
  · exact Or.inr (if_pos hp)
  rcases cb with _ | ⟨u, onMalloc, onRealloc, _ | onFree⟩
  · cases h
    exact Or.inl rfl
  · exact Or.inr (if_neg hp)
  · left
    unfold nsFree
    rw [if_neg hp, if_neg hp]
    exact h.2.2 onFree rfl p W

/-- `ns_aligned_malloc` answers as with the allocator behind the callbacks, or it returns
`NULL` and changes nothing. -/
theorem Over.alignedMalloc_call (h : Over dflt B cb) (sz alignment : Word q) :
    nsAlignedMalloc dflt sz alignment cb W = nsAlignedMalloc B sz alignment none W ∨
      nsAlignedMalloc dflt sz alignment cb W = (0, W) := by
  by_cases hacc : Accepted sz alignment
  · rw [nsAlignedMalloc_of_accepted hacc, nsAlignedMalloc_of_accepted hacc]
    rcases h.malloc_call (sz + extraBytes alignment) with hcall | hcall
    · left
      rw [hcall]
    · right
      rw [hcall]
      exact if_pos rfl
  · right
    exact nsAlignedMalloc_of_not_accepted hacc

theorem Over.alignedRealloc_call (h : Over dflt B cb)
    (hplaced : Placed base p oldSize oldAlignment)
    (hhdr : loadHeader W.mem (p - sizeofHeader q) = ⟨base, oldSize, oldAlignment⟩)
    (sz alignment : Word q) :
    nsAlignedRealloc dflt p sz alignment cb W = nsAlignedRealloc B p sz alignment none W ∨
      nsAlignedRealloc dflt p sz alignment cb W = (0, W) := by
  rw [nsAlignedRealloc_of_placed hplaced.ne_null hplaced hhdr,
    nsAlignedRealloc_of_placed hplaced.ne_null hplaced hhdr]
  by_cases hacc : alignment = oldAlignment ∧ Accepted sz alignment
  · rw [if_pos hacc, if_pos hacc]
    rcases h.realloc_call base (sz + extraBytes alignment) with hcall | hcall
    · left
      rw [hcall]
    · right
      rw [hcall]
      exact if_pos rfl
  · right
    exact if_neg hacc

theorem Over.alignedFree_call (h : Over dflt B cb) (p : Word q) :
    nsAlignedFree dflt p cb W = nsAlignedFree B p none W ∨ nsAlignedFree dflt p cb W = W := by
  by_cases hp : p = 0
  · exact Or.inr (if_pos hp)
  · unfold nsAlignedFree
    rw [if_neg hp, if_neg hp]
    exact h.free_call _

end Over

/-! ## One call over a lawful backing allocator -/

section Specs

variable {dflt B : Backing q σ} {cb : Option (NsAllocationCallbacks q σ)} {W : World q σ}
  {base p sz oldSize alignment oldAlignment : Word q} {K : Contract B}

theorem Over.malloc_spec (h : Over dflt B cb) (hok : K.ok W) (sz alignment : Word q) :
    ((nsAlignedMalloc dflt sz alignment cb W).1 = 0 ∧
        Refused K W (nsAlignedMalloc dflt sz alignment cb W).2) ∨
      ∃ base, Installed K (K.live W.priv) W.mem (nsAlignedMalloc dflt sz alignment cb W).2 base
        (nsAlignedMalloc dflt sz alignment cb W).1 sz alignment := by
  rcases h.alignedMalloc_call sz alignment with hcall | hcall
  · rw [hcall]
    exact nsAlignedMalloc_spec K rfl hok
  · rw [hcall]
    exact Or.inl ⟨rfl, .refl hok⟩

theorem Over.realloc_spec (h : Over dflt B cb) (hok : K.ok W)
    (hplaced : Placed base p oldSize oldAlignment)
    (hhdr : loadHeader W.mem (p - sizeofHeader q) = ⟨base, oldSize, oldAlignment⟩)
    (hlive : paddedBlock base oldSize oldAlignment ∈ K.live W.priv) (sz alignment : Word q) :
    ((nsAlignedRealloc dflt p sz alignment cb W).1 = 0 ∧
        Refused K W (nsAlignedRealloc dflt p sz alignment cb W).2) ∨
      ∃ base', Installed K (K.live W.priv \ {paddedBlock base oldSize oldAlignment}) W.mem
          (nsAlignedRealloc dflt p sz alignment cb W).2 base'
          (nsAlignedRealloc dflt p sz alignment cb W).1 sz alignment := by
  rcases h.alignedRealloc_call hplaced hhdr sz alignment with hcall | hcall
  · rw [hcall]
    refine (nsAlignedRealloc_spec K rfl hok hplaced hhdr hlive).imp_right ?_
    rintro ⟨base', hins, -⟩
    exact ⟨base', hins⟩
  · rw [hcall]
    exact Or.inl ⟨rfl, .refl hok⟩

/-- A block that is granted ends inside the address space. -/
theorem Over.malloc_fits (h : Over dflt B cb) (hok : K.ok W) (hsz : sz ≠ 0)
    (hne : (nsMalloc dflt sz cb W).1 ≠ 0) :
    (nsMalloc dflt sz cb W).1.toNat + sz.toNat < 2 ^ (8 * q) := by
  rcases h.malloc_call sz with hcall | hcall
  · rw [hcall] at hne ⊢
    exact (K.malloc hok hsz).2.fits hne
  · rw [hcall] at hne
    exact absurd rfl hne

theorem Over.realloc_fits (h : Over dflt B cb) (hok : K.ok W) (hsz : sz ≠ 0) {old : Block q}
    (hlive : old ∈ K.live W.priv) (hne : (nsRealloc dflt old.base sz cb W).1 ≠ 0) :
    (nsRealloc dflt old.base sz cb W).1.toNat + sz.toNat < 2 ^ (8 * q) := by
  rcases h.realloc_call old.base sz with hcall | hcall
  · rw [hcall] at hne ⊢
    exact (K.realloc hok hsz hlive).2.fits hne
  · rw [hcall] at hne
    exact absurd rfl hne

/-- **`NULL` from `ns_aligned_malloc`** has two causes: a guard, or the backing call. -/
theorem Over.malloc_null_iff (h : Over dflt B cb) (hok : K.ok W) :
    (nsAlignedMalloc dflt sz alignment cb W).1 = 0 ↔
      ¬ Accepted sz alignment ∨ (nsMalloc dflt (sz + extraBytes alignment) cb W).1 = 0 := by
  by_cases hacc : Accepted sz alignment
  · rw [nsAlignedMalloc_of_accepted hacc]
    by_cases hnull : (nsMalloc dflt (sz + extraBytes alignment) cb W).1 = 0
    · rw [if_pos hnull]
      exact iff_of_true rfl (Or.inr hnull)
    · rw [if_neg hnull]
      have hfits := h.malloc_fits hok hacc.request_ne_zero hnull
      refine iff_of_false (placed_pAligned hacc hnull hfits).ne_null ?_
      rintro (hbad | h0)
      · exact hbad hacc
      · exact hnull h0
  · rw [nsAlignedMalloc_of_not_accepted hacc]
    exact iff_of_true rfl (Or.inl hacc)

/-- **`NULL` from `ns_aligned_realloc`** on a live pointer has one cause more: another
alignment than before. -/
theorem Over.realloc_null_iff (h : Over dflt B cb) (hok : K.ok W)
    (hplaced : Placed base p oldSize oldAlignment)
    (hhdr : loadHeader W.mem (p - sizeofHeader q) = ⟨base, oldSize, oldAlignment⟩)
    (hlive : paddedBlock base oldSize oldAlignment ∈ K.live W.priv) :
    (nsAlignedRealloc dflt p sz alignment cb W).1 = 0 ↔
      ¬ Accepted sz alignment ∨ alignment ≠ oldAlignment ∨
        (nsRealloc dflt base (sz + extraBytes alignment) cb W).1 = 0 := by
  rw [nsAlignedRealloc_of_placed hplaced.ne_null hplaced hhdr]
  by_cases hacc : alignment = oldAlignment ∧ Accepted sz alignment
  · rw [if_pos hacc]
    by_cases hnull : (nsRealloc dflt base (sz + extraBytes alignment) cb W).1 = 0
    · simp only [if_pos hnull]
      exact iff_of_true trivial (Or.inr (Or.inr hnull))
    · simp only [if_neg hnull]
      have hfits := h.realloc_fits hok hacc.2.request_ne_zero hlive hnull
      refine iff_of_false (placed_pAligned hacc.2 hnull hfits).ne_null ?_
      rintro (hbad | hne | h0)
      · exact hbad hacc.2
      · exact hne hacc.1
      · exact hnull h0
  · rw [if_neg hacc]
    refine iff_of_true rfl ?_
    by_cases hsz : Accepted sz alignment
    · exact Or.inr (Or.inl fun heq => hacc ⟨heq, hsz⟩)
    · exact Or.inl hsz

end Specs

/-! ## A client that chooses its callbacks -/

section Client

variable [DecidableEq ι] {dflt B : Backing q σ} {cb : Option (NsAllocationCallbacks q σ)}
  {K : Contract B} {s s' : State q σ ι} {W : World q σ} {h : ι} {a : Allocation q}

/-- An operation with callbacks of its own choice for the allocator `B`. -/
def OpenStep (dflt B : Backing q σ) (s : State q σ ι)
    (l : (Op q ι × Bool) × Option (NsAllocationCallbacks q σ)) (s' : State q σ ι) : Prop :=
  Over dflt B l.2 ∧ Step dflt l.2 s l.1 s'

/-- A client that keeps to one full set of callbacks is such a client. -/
theorem Run.openRun (hB : backingOf dflt cb = some B) {tr : List (Op q ι × Bool)}
    (hrun : Run (Step dflt cb) s tr s') :
    Run (OpenStep dflt B) s (tr.map fun l => (l, cb)) s' := by
  induction hrun with
  | nil => exact .nil
  | snoc _ hs ih =>
    rw [List.map_append]
    exact ih.snoc ⟨over_of_backingOf hB, hs⟩

omit [DecidableEq ι] in
/-- A refused call leaves every allocation intact. -/
theorem Intact.refused (inv : Intact K s) (href : Refused K s.world W) :
    Intact K { s with world := W } := by
  refine inv.keep href.ok (fun ha => ⟨ha, ?_⟩) fun {h a} ha => ?_
  · exact headerOf_kept (inv.placed ha) (href.kept _ (inv.block_mem ha))
  · show blockOf s.world.mem a ∈ K.live W.priv
    rw [href.live]
    exact inv.block_mem ha

/-- The answer of an allocating call, booked. -/
theorem Intact.book (inv : Intact K s) {rest : Set (Block q)} {sz alignment : Word q}
    {r : Word q × World q σ} {ok : Bool} (hrest : otherBlocks s h ⊆ rest)
    (hr : r.1 = 0 ∧ Refused K s.world r.2 ∨
      ∃ base, Installed K rest s.world.mem r.2 base r.1 sz alignment)
    (hbook : s.book h sz alignment r = (s', ok)) : Intact K s' := by
  unfold State.book at hbook
  rcases hr with ⟨hnull, href⟩ | ⟨base, hins⟩
  · rw [if_pos hnull] at hbook
    cases hbook
    exact inv.refused href
  · rw [if_neg hins.ne_null] at hbook
    cases hbook
    exact inv.installed hins hrest

/-- Emptying a variable, with its block released or lost. -/
theorem Intact.drop (inv : Intact K s) (hok : K.ok W) (hsub : otherBlocks s h ⊆ K.live W.priv)
    (hkept : Kept (otherBlocks s h) s.world.mem W.mem) :
    Intact K ⟨W, Function.update s.live h none⟩ := by
  refine inv.keep hok (fun ha => ⟨(live_update_none ha).2, ?_⟩) fun {h' a} ha => ?_
  · exact inv.headerOf_other hkept (live_update_none ha).1 (live_update_none ha).2
  · exact hsub ⟨h', a, (live_update_none ha).1, (live_update_none ha).2, rfl⟩

theorem Intact.free (inv : Intact K s) (hcb : Over dflt B cb) (h : ι) :
    Intact K ⟨nsAlignedFree dflt (s.ptr h) cb s.world, Function.update s.live h none⟩ := by
  have hlost : Intact K ⟨s.world, Function.update s.live h none⟩ :=
    inv.drop inv.ok inv.otherBlocks_subset_live fun _ _ _ _ => rfl
  rcases hcb.alignedFree_call (s.ptr h) with hcall | hcall
  · rw [hcall]
    cases ha : s.live h with
    | none =>
      rw [State.ptr_of_dead ha, nsAlignedFree, if_pos rfl]
      exact hlost
    | some a =>
      obtain ⟨hok, hrel⟩ := nsAlignedFree_spec K (show backingOf B none = some B from rfl) inv.ok
        (inv.placed ha) (inv.header ha) (inv.block_mem ha)
      have hother : otherBlocks s h ⊆ _ := inv.otherBlocks_subset ha
      rw [State.ptr_of_live ha]
      refine inv.drop hok ?_ (hrel.kept.mono hother)
      rw [hrel.released]
      exact hother
  · rw [hcall]
    exact hlost

/-- **A step keeps the live allocations intact**, whatever callbacks it uses. -/
theorem Intact.step (inv : Intact K s)
    {l : (Op q ι × Bool) × Option (NsAllocationCallbacks q σ)} (hs : OpenStep dflt B s l s') :
    Intact K s' := by
  obtain ⟨⟨op, ok⟩, cb⟩ := l
  obtain ⟨hcb, hs⟩ := hs
  cases op with
  | malloc h sz alignment =>
    obtain ⟨-, hbook⟩ := hs.of_malloc
    exact inv.book inv.otherBlocks_subset_live (hcb.malloc_spec inv.ok sz alignment) hbook
  | realloc h sz alignment =>
    rcases hs.of_realloc with ⟨-, hbook⟩ | ⟨a, ha, hbook⟩
    · exact inv.book inv.otherBlocks_subset_live (hcb.malloc_spec inv.ok sz alignment) hbook
    · have hspec := hcb.realloc_spec inv.ok (inv.placed ha) (inv.header ha) (inv.block_mem ha)
      exact inv.book (inv.otherBlocks_subset ha) (hspec sz alignment) hbook
  | free h =>
    obtain ⟨rfl, -⟩ := hs.of_free
    exact inv.free hcb h
  | write h i b =>
    obtain ⟨a, ha, hi, rfl, -⟩ := hs.of_write
    exact inv.keep (inv.ok_store ha hi) (fun ha' => ⟨ha', inv.headerOf_store ha hi ha'⟩)
      inv.block_mem

/-- **The live allocations are intact in every reachable state.** -/
theorem Run.intact {tr : List ((Op q ι × Bool) × Option (NsAllocationCallbacks q σ))}
    (inv : Intact K s) (hrun : Run (OpenStep dflt B) s tr s') : Intact K s' :=
  hrun.preserves inv fun inv hs => inv.step hs

end Client

/-! ## Rejection is exact and changes nothing -/

/-- The heap of `s` is the same in the world `W'`: the backing allocator has the same
live blocks with the same bytes, every live allocation has its header, with the base
in it, and its payload, and is intact for the calls to come. -/
structure Unchanged {B : Backing q σ} (K : Contract B) (s : State q σ ι) (W' : World q σ) :
    Prop where
  blocks : K.live W'.priv = K.live s.world.priv
  kept : Kept (K.live s.world.priv) s.world.mem W'.mem
  header : ∀ {h a}, s.live h = some a → headerOf W'.mem a = headerOf s.world.mem a
  payload : ∀ {h a}, s.live h = some a →
    W'.mem.read a.ptr a.size.toNat = s.world.mem.read a.ptr a.size.toNat
  intact : Intact K { s with world := W' }

section Results

variable [DecidableEq ι] {dflt B : Backing q σ} {cb : Option (NsAllocationCallbacks q σ)}
  {K : Contract B} {s : State q σ ι} {W W' : World q σ} {h : ι} {a : Allocation q}
  {tr : List ((Op q ι × Bool) × Option (NsAllocationCallbacks q σ))}

omit [DecidableEq ι] in
/-- After a refused call the blocks, headers and payloads are as they were. -/
theorem Intact.unchanged (inv : Intact K s) (href : Refused K s.world W') : Unchanged K s W' where
  blocks := href.live
  kept := href.kept
  header ha := headerOf_kept (inv.placed ha) (href.kept _ (inv.block_mem ha))
  payload ha := read_kept (inv.placed ha) (href.kept _ (inv.block_mem ha))
  intact := inv.refused href

/-- **Rejection is exact and atomic.**  In every reachable state, for all sizes,
alignments and callbacks: `ns_aligned_malloc` answers `NULL` exactly for an alignment
that is no power of two, a size above the limit, or a `NULL` from the backing call,
such as one through a missing callback; `ns_aligned_realloc` on a live pointer also
for an alignment other than the recorded one, and on `NULL` it is `ns_aligned_malloc`;
and whichever answers `NULL`, the heap is as it was. -/
theorem alignedHeap_rejects (K : Contract B) (hok : K.ok W) (hnone : K.live W.priv = ∅)
    (hrun : Run (OpenStep dflt B) (State.initial W) tr s) (hcb : Over dflt B cb)
    (sz alignment : Word q) :
    ((nsAlignedMalloc dflt sz alignment cb s.world).1 = 0 ↔
      (¬ ∃ k, alignment.toNat = 2 ^ k) ∨
      2 ^ (8 * q) - 1 - (alignment.toNat - 1 + headerBytes q) < sz.toNat ∨
      (nsMalloc dflt (sz + extraBytes alignment) cb s.world).1 = 0) ∧
    (∀ h a, s.live h = some a →
      ((nsAlignedRealloc dflt a.ptr sz alignment cb s.world).1 = 0 ↔
        (¬ ∃ k, alignment.toNat = 2 ^ k) ∨ alignment ≠ a.alignment ∨
        2 ^ (8 * q) - 1 - (alignment.toNat - 1 + headerBytes q) < sz.toNat ∨
        (nsRealloc dflt (headerOf s.world.mem a).pUnaligned (sz + extraBytes alignment) cb
          s.world).1 = 0)) ∧
    nsAlignedRealloc dflt 0 sz alignment cb s.world
      = nsAlignedMalloc dflt sz alignment cb s.world ∧
    (∀ c, cb = some c →
      (c.onMalloc = none → ∀ n, nsMalloc dflt n cb s.world = (0, s.world)) ∧
      (c.onRealloc = none → ∀ p n, nsRealloc dflt p n cb s.world = (0, s.world))) ∧
    ((nsAlignedMalloc dflt sz alignment cb s.world).1 = 0 →
      Unchanged K s (nsAlignedMalloc dflt sz alignment cb s.world).2) ∧
    (∀ h a, s.live h = some a → (nsAlignedRealloc dflt a.ptr sz alignment cb s.world).1 = 0 →
      Unchanged K s (nsAlignedRealloc dflt a.ptr sz alignment cb s.world).2) := by
  have inv : Intact K s := Run.intact (heapInv_initial hok hnone).intact hrun
  have hguards : ¬ Accepted sz alignment ↔ (¬ ∃ k, alignment.toNat = 2 ^ k) ∨
      2 ^ (8 * q) - 1 - (alignment.toNat - 1 + headerBytes q) < sz.toNat := by
    rw [accepted_iff_pow, not_and_or, not_not]
  refine ⟨?_, ?_, nsAlignedRealloc_null, ?_, ?_, ?_⟩
  · rw [hcb.malloc_null_iff inv.ok, hguards, or_assoc]
  · intro h a ha
    rw [hcb.realloc_null_iff inv.ok (inv.placed ha) (inv.header ha) (inv.block_mem ha), hguards,
      or_assoc]
    exact or_congr_right or_left_comm
  · rintro c rfl
    constructor
    · intro hnone n
      rw [nsMalloc, hnone]
    · intro hnone p n
      rw [nsRealloc, hnone]
  · intro hnull
    rcases hcb.malloc_spec inv.ok sz alignment with ⟨-, href⟩ | ⟨base, hins⟩
    · exact inv.unchanged href
    · exact absurd hnull hins.ne_null
  · intro h a ha hnull
    rcases hcb.realloc_spec inv.ok (inv.placed ha) (inv.header ha) (inv.block_mem ha) sz alignment
      with ⟨-, href⟩ | ⟨base, hins⟩
    · exact inv.unchanged href
    · exact absurd hnull hins.ne_null

/-- A size just above the limit. -/
theorem alignedHeap_rejects_sample :
    (nsAlignedRealloc (movingArena 1) 20 250 4 none sample.world).1 = 0 ∧
      Unchanged movingArena_contract sample
        (nsAlignedRealloc (movingArena 1) 20 250 4 none sample.world).2 := by
  have hlive : sample.live true = some ⟨20, 5, 4⟩ := rfl
  have hfull : backingOf (movingArena 1) none = some (movingArena 1) := rfl
  obtain ⟨-, hnull, -, -, -, hsame⟩ := alignedHeap_rejects movingArena_contract
    (Arena.fresh_ok Nat.one_pos) Arena.fresh_live (Run.openRun hfull sample_run)
    (over_of_backingOf hfull) 250 4
  have hrejected := (hnull true ⟨20, 5, 4⟩ hlive).2 (Or.inr (Or.inr (Or.inl (by decide))))
  exact ⟨hrejected, hsame true ⟨20, 5, 4⟩ hlive hrejected⟩

end Results

end Refcode.Alloc
