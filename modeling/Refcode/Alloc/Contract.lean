import Refcode.Alloc.Layout

/-!
# What a backing allocator promises

The aligned allocator works over any backing allocator that keeps the usual
bargain.  `Contract B` states it: a set of live blocks, and for each call what it
may do to that set and to the memory.  Nothing is said about which blocks are
chosen, about the bytes outside live blocks, or about requests for no bytes.

The end of a block, one past its last byte, has to be an address itself, as C
demands of every pointer one past an object.
-/

namespace Refcode.Alloc

open Refcode.Lib

variable {q : ℕ} {σ : Type*}

/-! ## Blocks -/

/-- A block of the backing allocator. -/
structure Block (q : ℕ) where
  base : Word q
  size : Word q
  deriving DecidableEq

/-- The byte at `a` belongs to the block. -/
def Block.Has (b : Block q) (a : Word q) : Prop := InRange b.base b.size.toNat a

/-- Two blocks share no byte. -/
def Block.Apart (b c : Block q) : Prop := ∀ a, b.Has a → ¬ c.Has a

theorem Block.Apart.symm {b c : Block q} (h : b.Apart c) : c.Apart b :=
  fun a hc hb => h a hb hc

/-- A block with at least one byte has its base. -/
theorem Block.has_base {b : Block q} (h : b.size ≠ 0) : b.Has b.base := by
  have hpos : b.size.toNat ≠ 0 := fun h0 => h (BitVec.eq_of_toNat_eq (by simpa using h0))
  rw [Block.Has, InRange, BitVec.sub_self]
  simp
  omega

/-- Blocks that share no byte start at different places. -/
theorem Block.Apart.base_ne {b c : Block q} (h : b.Apart c) (hb : b.size ≠ 0) (hc : c.size ≠ 0) :
    b.base ≠ c.base := by
  intro heq
  refine h b.base (Block.has_base hb) ?_
  rw [heq]
  exact Block.has_base hc

/-- The bytes of the blocks `bs` are the same in `m'` as in `m`. -/
def Kept (bs : Set (Block q)) (m m' : Mem (8 * q)) : Prop :=
  ∀ b ∈ bs, ∀ a, b.Has a → m' a = m a

/-- If the blocks of `cs` are kept, so are those of a part of it. -/
theorem Kept.mono {bs cs : Set (Block q)} {m m' : Mem (8 * q)} (hkept : Kept cs m m')
    (hsub : bs ⊆ cs) : Kept bs m m' := fun b hb => hkept b (hsub hb)

/-! ## The three calls -/

/-- `malloc(sz)` answered with `p`, which is `0` for a refusal. -/
structure Granted (sz p : Word q) (live live' : Set (Block q)) (m m' : Mem (8 * q)) : Prop where
  kept : Kept live m m'
  refused : p = 0 → live' = live
  granted : p ≠ 0 → live' = insert ⟨p, sz⟩ live
  fits : p ≠ 0 → p.toNat + sz.toNat < 2 ^ (8 * q)
  apart : p ≠ 0 → ∀ b ∈ live, Block.Apart ⟨p, sz⟩ b

/-- `realloc(old, sz)` answered with `p`.  A refusal keeps the old block; a
success keeps its first bytes, wherever the new block is. -/
structure Resized (old : Block q) (sz p : Word q) (live live' : Set (Block q))
    (m m' : Mem (8 * q)) : Prop where
  kept : Kept (live \ {old}) m m'
  refused : p = 0 → live' = live ∧ Kept live m m'
  granted : p ≠ 0 → live' = insert ⟨p, sz⟩ (live \ {old})
  fits : p ≠ 0 → p.toNat + sz.toNat < 2 ^ (8 * q)
  apart : p ≠ 0 → ∀ b ∈ live \ {old}, Block.Apart ⟨p, sz⟩ b
  copied : p ≠ 0 → ∀ i < min old.size.toNat sz.toNat,
    m' (p + BitVec.ofNat _ i) = m (old.base + BitVec.ofNat _ i)

/-- `free(old)`. -/
structure Released (old : Block q) (live live' : Set (Block q)) (m m' : Mem (8 * q)) : Prop where
  kept : Kept (live \ {old}) m m'
  released : live' = live \ {old}

/-- **The bargain.**  `live` is the allocator's own account of its live blocks,
and `ok` whatever it relies on between calls; the client may write into live
blocks, and nowhere else (`frame`). -/
structure Contract (B : Backing q σ) where
  live : σ → Set (Block q)
  ok : World q σ → Prop
  frame : ∀ {W : World q σ} {m : Mem (8 * q)}, ok W →
    (∀ a, (∀ b ∈ live W.priv, ¬ b.Has a) → m a = W.mem a) → ok { W with mem := m }
  malloc : ∀ {W : World q σ} {sz : Word q}, ok W → sz ≠ 0 →
    ok (B.malloc sz W).2 ∧
      Granted sz (B.malloc sz W).1 (live W.priv) (live (B.malloc sz W).2.priv)
        W.mem (B.malloc sz W).2.mem
  realloc : ∀ {W : World q σ} {old : Block q} {sz : Word q}, ok W → sz ≠ 0 →
    old ∈ live W.priv →
    ok (B.realloc old.base sz W).2 ∧
      Resized old sz (B.realloc old.base sz W).1 (live W.priv)
        (live (B.realloc old.base sz W).2.priv) W.mem (B.realloc old.base sz W).2.mem
  free : ∀ {W : World q σ} {old : Block q}, ok W → old ∈ live W.priv →
    ok (B.free old.base W) ∧
      Released old (live W.priv) (live (B.free old.base W).priv) W.mem (B.free old.base W).mem

/-! ## The allocator behind a set of callbacks -/

/-- The backing allocator a call runs on: the C library's for `NULL` callbacks,
the callbacks themselves when all three are set. -/
def backingOf (dflt : Backing q σ) : Option (NsAllocationCallbacks q σ) → Option (Backing q σ)
  | none => some dflt
  | some ⟨u, some onMalloc, some onRealloc, some onFree⟩ =>
    some ⟨fun sz => onMalloc sz u, fun p sz => onRealloc p sz u, fun p => onFree p u⟩
  | some _ => none

section BackingOf

variable {dflt B : Backing q σ} {cb : Option (NsAllocationCallbacks q σ)}
  (h : backingOf dflt cb = some B)
include h

theorem nsMalloc_eq (sz : Word q) (W : World q σ) : nsMalloc dflt sz cb W = B.malloc sz W := by
  rcases cb with _ | ⟨u, _ | _, _ | _, _ | _⟩ <;> simp [backingOf] at h <;> subst h <;> rfl

theorem nsRealloc_eq (p sz : Word q) (W : World q σ) :
    nsRealloc dflt p sz cb W = B.realloc p sz W := by
  rcases cb with _ | ⟨u, _ | _, _ | _, _ | _⟩ <;> simp [backingOf] at h <;> subst h <;> rfl

theorem nsFree_eq {p : Word q} (hp : p ≠ 0) (W : World q σ) : nsFree dflt p cb W = B.free p W := by
  simp only [nsFree, if_neg hp]
  rcases cb with _ | ⟨u, _ | _, _ | _, _ | _⟩ <;> simp [backingOf] at h <;> subst h <;> rfl

end BackingOf

end Refcode.Alloc
