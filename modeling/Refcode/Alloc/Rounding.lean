import Refcode.Alloc.Rejection

/-!
# Rounding up past the header

The aligned pointer is computed modulo `2^w` from the base of a block and the padding.
In numbers it is the first multiple of the alignment that leaves room for the header.

* `alignedPointer_isLeast` — so it is for every accepted request and every block that
  ends inside the address space.
* `Placed.header_dvd` — a header lies at a multiple of the word size if the block does.
* `alignedHeap_header_dvd` — so do all headers in every run over a backing allocator
  whose blocks do.
-/

namespace Refcode.Alloc

open Refcode.Lib

variable {q : ℕ} {σ ι : Type*}

/-! ## The aligned pointer -/

section Pointer

variable {dflt : Backing q σ} {cb : Option (NsAllocationCallbacks q σ)} {W : World q σ}
  {p old oldSize base sz alignment : Word q}

/-- What `ns_aligned_malloc` makes of the answer of the backing call. -/
theorem nsAlignedMalloc_pAligned (hacc : Accepted sz alignment)
    (hcall : (nsMalloc dflt (sz + extraBytes alignment) cb W).1 = base) (hbase : base ≠ 0) :
    (nsAlignedMalloc dflt sz alignment cb W).1 = pAligned base alignment := by
  subst hcall
  rw [nsAlignedMalloc_of_accepted hacc, if_neg hbase]

/-- What `ns_aligned_realloc` makes of it, once its guards have passed. -/
theorem nsAlignedRealloc_pAligned (hacc : Accepted sz alignment) (hp : p ≠ 0)
    (hhdr : loadHeader W.mem (p - sizeofHeader q) = ⟨old, oldSize, alignment⟩)
    (hoff : ¬ p - old > extraBytes alignment)
    (hcall : (nsRealloc dflt old (sz + extraBytes alignment) cb W).1 = base) (hbase : base ≠ 0) :
    (nsAlignedRealloc dflt p sz alignment cb W).1 = pAligned base alignment := by
  subst hcall
  rw [nsAlignedRealloc_of_guards hp hacc hhdr hoff, if_neg hbase]

/-- **The modular computation is the rounding on numbers.**  For every power of two, every
size within the limit and every base: the guard on the padding does not reject, neither
the padding nor the request wraps and the request is not empty; what is masked is the
least multiple of the alignment past the header, not `NULL`, and inside the padding.  It
is what both functions return. -/
theorem alignedPointer_isLeast (hpow : ∃ k, alignment.toNat = 2 ^ k)
    (hsz : sz.toNat ≤ 2 ^ (8 * q) - 1 - (alignment.toNat - 1 + headerBytes q))
    (hbase : base.toNat + sz.toNat + (alignment.toNat - 1 + headerBytes q) < 2 ^ (8 * q)) :
    ¬ alignment - 1 > -1 - sizeofHeader q ∧
      (extraBytes alignment).toNat = alignment.toNat - 1 + headerBytes q ∧
      (sz + extraBytes alignment).toNat = sz.toNat + (extraBytes alignment).toNat ∧
      sz + extraBytes alignment ≠ 0 ∧
      IsLeast {m | alignment.toNat ∣ m ∧ base.toNat + headerBytes q ≤ m}
        ((base + extraBytes alignment) &&& ~~~(alignment - 1)).toNat ∧
      (base + extraBytes alignment) &&& ~~~(alignment - 1) ≠ 0 ∧
      ((base + extraBytes alignment) &&& ~~~(alignment - 1)).toNat
        ≤ base.toNat + (extraBytes alignment).toNat ∧
      (∀ (dflt : Backing q σ) cb W, base ≠ 0 →
        (nsMalloc dflt (sz + extraBytes alignment) cb W).1 = base →
          (nsAlignedMalloc dflt sz alignment cb W).1
            = (base + extraBytes alignment) &&& ~~~(alignment - 1)) ∧
      ∀ (dflt : Backing q σ) cb W p old oldSize, base ≠ 0 → p ≠ 0 →
        loadHeader W.mem (p - sizeofHeader q) = ⟨old, oldSize, alignment⟩ →
        ¬ p - old > extraBytes alignment →
        (nsRealloc dflt old (sz + extraBytes alignment) cb W).1 = base →
          (nsAlignedRealloc dflt p sz alignment cb W).1
            = (base + extraBytes alignment) &&& ~~~(alignment - 1) := by
  have hacc : Accepted sz alignment := accepted_iff_pow.mpr ⟨hpow, Nat.not_lt.mpr hsz⟩
  have hone := hacc.one_le_alignment
  have hword := hacc.word_pos
  have hextra := hacc.toNat_extraBytes
  have hsum : (base + extraBytes alignment).toNat
      = base.toNat + headerBytes q + (alignment.toNat - 1) := by
    rw [BitVec.toNat_add_of_lt (by omega), hextra]
    omega
  obtain ⟨k, hk⟩ := hpow
  have hleast := isLeast_and_not_sub_one hk hsum
  have hle := toNat_and_not_sub_one_le (x := base + extraBytes alignment) hk
  refine ⟨padding_guard (not_badAlignment_iff.mpr hacc.pow), hextra, ?_, hacc.request_ne_zero,
    hleast, ?_, by omega, ?_, ?_⟩
  · rw [hacc.toNat_request, hextra]
  · intro hnull
    have hroom := hleast.1.2
    rw [hnull] at hroom
    simp [headerBytes] at hroom
    omega
  · intro dflt cb W hne hcall
    exact nsAlignedMalloc_pAligned hacc hcall hne
  · intro dflt cb W p old oldSize hne hp hhdr hoff hcall
    exact nsAlignedRealloc_pAligned hacc hp hhdr hoff hcall hne

end Pointer

/-- An alignment of half the address space, and a base just below it. -/
theorem alignedPointer_isLeast_half :
    IsLeast {m | (0x80000000 : Word 4).toNat ∣ m ∧ (0x7FFFFFF0 : Word 4).toNat + headerBytes 4 ≤ m}
      (((0x7FFFFFF0 : Word 4) + extraBytes 0x80000000) &&& ~~~(0x80000000 - 1)).toNat := by
  have hpow : ∃ k, (0x80000000 : Word 4).toNat = 2 ^ k := ⟨31, rfl⟩
  have hsz : (1 : Word 4).toNat
      ≤ 2 ^ (8 * 4) - 1 - ((0x80000000 : Word 4).toNat - 1 + headerBytes 4) := by decide
  have hbase : (0x7FFFFFF0 : Word 4).toNat + (1 : Word 4).toNat
      + ((0x80000000 : Word 4).toNat - 1 + headerBytes 4) < 2 ^ (8 * 4) := by decide
  obtain ⟨-, -, -, -, hleast, -⟩ := @alignedPointer_isLeast 4 Unit _ _ _ hpow hsz hbase
  exact hleast

/-! ## The header -/

section Header

variable {base p sz alignment : Word q}

/-- **The header lies at a multiple of the word size** if the block does: with an
alignment of a word or more because the pointer does, with a smaller one because the
block has no slack in front of it. -/
theorem Placed.header_dvd (h : Placed base p sz alignment) (hq : ∃ j, q = 2 ^ j)
    (hbase : q ∣ base.toNat) : q ∣ (p - sizeofHeader q).toNat := by
  have hheader : q ∣ headerBytes q := Dvd.intro_left 3 rfl
  obtain ⟨j, hj⟩ := hq
  obtain ⟨k, hk⟩ := h.accepted.pow
  rw [h.toNat_header]
  rcases Nat.le_total j k with hle | hle
  · have hword : q ∣ alignment.toNat := by
      rw [hk]
      nth_rewrite 1 [hj]
      exact Nat.pow_dvd_pow 2 hle
    exact Nat.dvd_sub (hword.trans h.dvd) hheader
  · have hsmall : alignment.toNat ∣ q := by
      rw [hk, hj]
      exact Nat.pow_dvd_pow 2 hle
    have hroom : alignment.toNat ∣ base.toNat + headerBytes q :=
      hsmall.trans (Nat.dvd_add hbase hheader)
    have hone := h.accepted.one_le_alignment
    have hpast := h.le_base
    have heq := eq_of_dvd_of_lt_add hroom h.dvd h.base_le (by omega)
    rw [heq, Nat.add_sub_cancel]
    exact hbase

end Header

/-! ## All headers of a run -/

section Bases

variable {B : Backing q σ} {d : ℕ}

/-- Whatever the allocator answers is a multiple of `d`. -/
structure Contract.BasesDvd (K : Contract B) (d : ℕ) : Prop where
  malloc : ∀ {W sz}, K.ok W → sz ≠ 0 → d ∣ (B.malloc sz W).1.toNat
  realloc : ∀ {W old sz}, K.ok W → sz ≠ 0 → old ∈ K.live W.priv →
    d ∣ (B.realloc old.base sz W).1.toNat

/-- The same contract, with all live blocks at multiples of `d`. -/
def Contract.withBases (K : Contract B) (hd : K.BasesDvd d) : Contract B where
  live := K.live
  ok W := K.ok W ∧ ∀ b ∈ K.live W.priv, d ∣ b.base.toNat
  frame := by
    rintro W m ⟨hok, hlive⟩ hframe
    exact ⟨K.frame hok hframe, hlive⟩
  malloc := by
    rintro W sz ⟨hok, hlive⟩ hsz
    obtain ⟨hok', hgr⟩ := K.malloc hok hsz
    refine ⟨⟨hok', ?_⟩, hgr⟩
    by_cases hnull : (B.malloc sz W).1 = 0
    · rw [hgr.refused hnull]
      exact hlive
    · rw [hgr.granted hnull]
      rintro b (rfl | hb)
      · exact hd.malloc hok hsz
      · exact hlive b hb
  realloc := by
    rintro W old sz ⟨hok, hlive⟩ hsz hold
    obtain ⟨hok', hre⟩ := K.realloc hok hsz hold
    refine ⟨⟨hok', ?_⟩, hre⟩
    by_cases hnull : (B.realloc old.base sz W).1 = 0
    · rw [(hre.refused hnull).1]
      exact hlive
    · rw [hre.granted hnull]
      rintro b (rfl | hb)
      · exact hd.realloc hok hsz hold
      · exact hlive b hb.1
  free := by
    rintro W old ⟨hok, hlive⟩ hold
    obtain ⟨hok', hrel⟩ := K.free hok hold
    refine ⟨⟨hok', ?_⟩, hrel⟩
    rw [hrel.released]
    intro b hb
    exact hlive b hb.1

/-- The header of a new allocation. -/
theorem Installed.header_dvd {K : Contract B} {hd : K.BasesDvd q} {rest : Set (Block q)}
    {m : Mem (8 * q)} {W : World q σ} {base p sz alignment : Word q}
    (hins : Installed (K.withBases hd) rest m W base p sz alignment) (hq : ∃ j, q = 2 ^ j) :
    q ∣ (p - sizeofHeader q).toNat := by
  apply hins.placed.header_dvd hq
  have hlive : (K.withBases hd).live W.priv = _ := hins.live
  exact hins.ok.2 (paddedBlock base sz alignment) (hlive ▸ Set.mem_insert _ _)

/-- The header of a live allocation. -/
theorem Intact.header_dvd {K : Contract B} {hd : K.BasesDvd q} {s : State q σ ι} {h : ι}
    {a : Allocation q} (inv : Intact (K.withBases hd) s) (ha : s.live h = some a)
    (hq : ∃ j, q = 2 ^ j) : q ∣ (a.ptr - sizeofHeader q).toNat := by
  apply (inv.placed ha).header_dvd hq
  exact inv.ok.2 _ (inv.block_mem ha)

variable [DecidableEq ι] {dflt : Backing q σ} {cb : Option (NsAllocationCallbacks q σ)}
  {s : State q σ ι} {W : World q σ}
  {tr : List ((Op q ι × Bool) × Option (NsAllocationCallbacks q σ))}

/-- **Headers are naturally aligned.**  If a word is a power of two bytes wide and every
base that the backing allocator answers is a multiple of it, then in every reachable state
so is the address of every header: the one in front of a live pointer, which
`ns_aligned_realloc` and `ns_aligned_free` read, and the one that `ns_aligned_malloc` and
`ns_aligned_realloc` write, for all sizes and alignments. -/
theorem alignedHeap_header_dvd (K : Contract B) (hq : ∃ j, q = 2 ^ j) (hd : K.BasesDvd q)
    (hok : K.ok W) (hnone : K.live W.priv = ∅)
    (hrun : Run (OpenStep dflt B) (State.initial W) tr s) (hcb : Over dflt B cb) :
    (∀ h a, s.live h = some a → q ∣ (a.ptr - sizeofHeader q).toNat) ∧
      (∀ sz alignment, (nsAlignedMalloc dflt sz alignment cb s.world).1 ≠ 0 →
        q ∣ ((nsAlignedMalloc dflt sz alignment cb s.world).1 - sizeofHeader q).toNat) ∧
      ∀ h a sz alignment, s.live h = some a →
        (nsAlignedRealloc dflt a.ptr sz alignment cb s.world).1 ≠ 0 →
          q ∣ ((nsAlignedRealloc dflt a.ptr sz alignment cb s.world).1
            - sizeofHeader q).toNat := by
  have hok' : (K.withBases hd).ok W := by
    refine ⟨hok, ?_⟩
    rw [hnone]
    intro b hb
    cases hb
  have inv : Intact (K.withBases hd) s := Run.intact (heapInv_initial hok' hnone).intact hrun
  refine ⟨?_, ?_, ?_⟩
  · intro h a ha
    exact inv.header_dvd ha hq
  · intro sz alignment hne
    rcases hcb.malloc_spec inv.ok sz alignment with ⟨hnull, -⟩ | ⟨base, hins⟩
    · exact absurd hnull hne
    · exact hins.header_dvd hq
  · intro h a sz alignment ha hne
    rcases hcb.realloc_spec inv.ok (inv.placed ha) (inv.header ha) (inv.block_mem ha) sz alignment
      with ⟨hnull, -⟩ | ⟨base, hins⟩
    · exact absurd hnull hne
    · exact hins.header_dvd hq

end Bases

/-! ## An arena of whole words -/

/-- Leave the rest of a word unused. -/
def Arena.skip (W : World q (Arena q)) : World q (Arena q) :=
  { W with priv := ⟨(W.priv.next + (q - 1)) / q * q, W.priv.blocks⟩ }

/-- Skip to a multiple of the word size, then do as the arena does; `NULL` when there is
none left. -/
def Arena.afterSkip (W : World q (Arena q))
    (call : World q (Arena q) → Word q × World q (Arena q)) : Word q × World q (Arena q) :=
  if (Arena.skip W).priv.next < 2 ^ (8 * q) then call (Arena.skip W) else (0, W)

/-- The allocator that always moves, to multiples of the word size. -/
def wordArena (q : ℕ) : Backing q (Arena q) where
  malloc sz W := Arena.afterSkip W (Arena.malloc sz)
  realloc p sz W := Arena.afterSkip W (Arena.realloc p sz)
  free := Arena.free

section WordArena

variable {W : World q (Arena q)} {p sz : Word q}

theorem Arena.Ok.skip (h : W.priv.Ok) (hfits : (Arena.skip W).priv.next < 2 ^ (8 * q)) :
    (Arena.skip W).priv.Ok := by
  have hle : W.priv.next ≤ (Arena.skip W).priv.next := by
    show W.priv.next ≤ (W.priv.next + (q - 1)) / q * q
    rcases Nat.eq_zero_or_pos q with rfl | hq
    · have hlt := h.next_le
      simp at hlt
      omega
    · have hdiv := Nat.div_add_mod (W.priv.next + (q - 1)) q
      have hmod := Nat.mod_lt (W.priv.next + (q - 1)) hq
      rw [Nat.mul_comm] at hdiv
      omega
  refine ⟨h.next_pos.trans_le hle, h.size_ne, ?_, hfits, h.apart⟩
  intro b hb
  exact (h.below b hb).trans hle

/-- The arena answers with the first unused address. -/
theorem Arena.dvd_malloc (hnext : q ∣ W.priv.next) (hfits : W.priv.next < 2 ^ (8 * q)) :
    q ∣ (Arena.malloc sz W).1.toNat := by
  unfold Arena.malloc
  split
  · show q ∣ (BitVec.ofNat (8 * q) W.priv.next).toNat
    rw [BitVec.toNat_ofNat, Nat.mod_eq_of_lt hfits]
    exact hnext
  · simp

theorem Arena.dvd_realloc (hnext : q ∣ W.priv.next) (hfits : W.priv.next < 2 ^ (8 * q)) :
    q ∣ (Arena.realloc p sz W).1.toNat := by
  have hnew : q ∣ (Arena.malloc sz (Arena.free p W)).1.toNat := Arena.dvd_malloc hnext hfits
  unfold Arena.realloc
  split
  · simp
  · simp only
    split
    · simp
    · exact hnew

theorem Arena.afterSkip_cases (call : World q (Arena q) → Word q × World q (Arena q)) :
    (Arena.skip W).priv.next < 2 ^ (8 * q) ∧ Arena.afterSkip W call = call (Arena.skip W) ∨
      Arena.afterSkip W call = (0, W) := by
  unfold Arena.afterSkip
  split
  case isTrue hfits => exact .inl ⟨hfits, rfl⟩
  case isFalse => exact .inr rfl

/-- A `malloc` that answers `NULL` and changes nothing keeps the contract. -/
theorem granted_null {live : Set (Block q)} {m : Mem (8 * q)} : Granted sz 0 live live m m := by
  refine ⟨fun _ _ _ _ => rfl, fun _ => rfl, ?_, ?_, ?_⟩ <;> intro hne <;> exact absurd rfl hne

theorem resized_null {old : Block q} {live : Set (Block q)} {m : Mem (8 * q)} :
    Resized old sz 0 live live m m := by
  refine ⟨fun _ _ _ _ => rfl, fun _ => ⟨rfl, fun _ _ _ _ => rfl⟩, ?_, ?_, ?_, ?_⟩ <;>
    intro hne <;> exact absurd rfl hne

/-- **The word arena keeps the contract** of a backing allocator. -/
def wordArena_contract : Contract (wordArena q) where
  live := movingArena_contract.live
  ok := movingArena_contract.ok
  frame := movingArena_contract.frame
  malloc := by
    intro W sz h hsz
    simp only [wordArena]
    rcases Arena.afterSkip_cases (W := W) (Arena.malloc sz) with ⟨hfits, heq⟩ | heq
    · rw [heq]
      exact (Arena.Ok.skip h hfits).malloc hsz
    · rw [heq]
      exact ⟨h, granted_null⟩
  realloc := by
    intro W old sz h hsz hold
    simp only [wordArena]
    rcases Arena.afterSkip_cases (W := W) (Arena.realloc old.base sz) with ⟨hfits, heq⟩ | heq
    · rw [heq]
      exact (Arena.Ok.skip h hfits).realloc hold hsz
    · rw [heq]
      exact ⟨h, resized_null⟩
  free := movingArena_contract.free

/-- Its answers are multiples of the word size. -/
theorem wordArena_basesDvd : (wordArena_contract (q := q)).BasesDvd q := by
  have hnext : ∀ {W : World q (Arena q)}, q ∣ (Arena.skip W).priv.next :=
    fun {W} => Dvd.intro_left _ rfl
  constructor
  · intro W sz _ _
    simp only [wordArena]
    rcases Arena.afterSkip_cases (W := W) (Arena.malloc sz) with ⟨hfits, heq⟩ | heq
    · rw [heq]
      exact Arena.dvd_malloc hnext hfits
    · simp [heq]
  · intro W old sz _ _ _
    simp only [wordArena]
    rcases Arena.afterSkip_cases (W := W) (Arena.realloc old.base sz) with ⟨hfits, heq⟩ | heq
    · rw [heq]
      exact Arena.dvd_realloc hnext hfits
    · simp [heq]

end WordArena

/-- A client that asks for less than a word's alignment, and for more. -/
def wordOps : List (Op 4 Bool) :=
  [.malloc true 5 2, .malloc false 7 16, .realloc true 9 2, .realloc false 40 16]

def wordRun : State 4 (Arena 4) Bool × List (Op 4 Bool × Bool) :=
  (perform (wordArena 4) none (State.initial (Arena.fresh 4)) wordOps).get (by decide +kernel)

theorem alignedHeap_header_dvd_wordRun :
    (∀ h a, wordRun.1.live h = some a → 4 ∣ (a.ptr - sizeofHeader 4).toNat) ∧
      (wordRun.1.live true).isSome ∧ (wordRun.1.live false).isSome := by
  have hperform : perform (wordArena 4) none (State.initial (Arena.fresh 4)) wordOps
      = some (wordRun.1, wordRun.2) := by
    rw [Prod.mk.eta]
    exact (Option.some_get _).symm
  have hfull : backingOf (wordArena 4) none = some (wordArena 4) := rfl
  have hrun := Run.openRun hfull (Run.of_perform hperform)
  refine ⟨?_, ?_, ?_⟩
  · exact (alignedHeap_header_dvd wordArena_contract ⟨2, rfl⟩ wordArena_basesDvd
      (Arena.fresh_ok (by norm_num)) Arena.fresh_live hrun (over_of_backingOf hfull)).1
  · decide +kernel
  · decide +kernel

end Refcode.Alloc
