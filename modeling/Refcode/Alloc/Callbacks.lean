import Refcode.Lib.Memory

/-!
# The allocation callbacks

The functions of `allocation_callbacks.c`, for a machine whose pointers and
`size_t` are `q` bytes wide.  A pointer is a word and `NULL` is the word `0`;
`size_t` arithmetic wraps.  Callbacks act on a `World`: the memory, together with
whatever they keep for themselves behind `pUserData`.  The `malloc`, `realloc` and
`free` of the C library, which the macros `NS_MALLOC`, `NS_REALLOC` and `NS_FREE`
stand for, are the parameter `dflt` of every function.
-/

namespace Refcode.Alloc

open Refcode.Lib

/-- A pointer or a `size_t`, `q` bytes wide. -/
abbrev Word (q : ℕ) := BitVec (8 * q)

/-- Memory, and the private state of the backing allocator. -/
structure World (q : ℕ) (σ : Type*) where
  mem : Mem (8 * q)
  priv : σ

/-- The three functions of a backing allocator, such as the C library's. -/
structure Backing (q : ℕ) (σ : Type*) where
  malloc : Word q → World q σ → Word q × World q σ
  realloc : Word q → Word q → World q σ → Word q × World q σ
  free : Word q → World q σ → World q σ

/-- `ns_allocation_callbacks`; a `NULL` function pointer is `none`. -/
structure NsAllocationCallbacks (q : ℕ) (σ : Type*) where
  pUserData : Word q
  onMalloc : Option (Word q → Word q → World q σ → Word q × World q σ)
  onRealloc : Option (Word q → Word q → Word q → World q σ → Word q × World q σ)
  onFree : Option (Word q → Word q → World q σ → World q σ)

variable {q : ℕ} {σ : Type*}

/-! ## The unaligned entry points -/

section Unaligned

variable (dflt : Backing q σ)

def nsMallocDefault (sz _pUserData : Word q) (W : World q σ) : Word q × World q σ :=
  dflt.malloc sz W

def nsReallocDefault (p sz _pUserData : Word q) (W : World q σ) : Word q × World q σ :=
  dflt.realloc p sz W

def nsFreeDefault (p _pUserData : Word q) (W : World q σ) : World q σ :=
  dflt.free p W

def nsAllocationCallbacksInitDefault : NsAllocationCallbacks q σ where
  pUserData := 0
  onMalloc := some (nsMallocDefault dflt)
  onRealloc := some (nsReallocDefault dflt)
  onFree := some (nsFreeDefault dflt)

def nsAllocationCallbacksInitCopy
    (pAllocationCallbacks : Option (NsAllocationCallbacks q σ)) : NsAllocationCallbacks q σ :=
  match pAllocationCallbacks with
  | some cb => cb
  | none => nsAllocationCallbacksInitDefault dflt

def nsMalloc (sz : Word q) (pAllocationCallbacks : Option (NsAllocationCallbacks q σ))
    (W : World q σ) : Word q × World q σ :=
  match pAllocationCallbacks with
  | some cb =>
    match cb.onMalloc with
    | some onMalloc => onMalloc sz cb.pUserData W
    | none => (0, W)  -- no fall back to the default implementation
  | none => nsMallocDefault dflt sz 0 W

def nsCalloc (sz : Word q) (pAllocationCallbacks : Option (NsAllocationCallbacks q σ))
    (W : World q σ) : Word q × World q σ :=
  match nsMalloc dflt sz pAllocationCallbacks W with
  | (p, W) => if p ≠ 0 then (p, { W with mem := W.mem.fill p 0 sz.toNat }) else (p, W)

def nsRealloc (p sz : Word q) (pAllocationCallbacks : Option (NsAllocationCallbacks q σ))
    (W : World q σ) : Word q × World q σ :=
  match pAllocationCallbacks with
  | some cb =>
    match cb.onRealloc with
    | some onRealloc => onRealloc p sz cb.pUserData W
    | none => (0, W)
  | none => nsReallocDefault dflt p sz 0 W

def nsFree (p : Word q) (pAllocationCallbacks : Option (NsAllocationCallbacks q σ))
    (W : World q σ) : World q σ :=
  if p = 0 then W
  else
    match pAllocationCallbacks with
    | some cb =>
      match cb.onFree with
      | some onFree => onFree p cb.pUserData W
      | none => W
    | none => nsFreeDefault dflt p 0 W

end Unaligned

/-! ## The header in front of an aligned block -/

/-- `ns_aligned_allocation_header`. -/
structure NsAlignedAllocationHeader (q : ℕ) where
  pUnaligned : Word q
  size : Word q
  alignment : Word q
  deriving DecidableEq

/-- `sizeof(ns_aligned_allocation_header)`: three words, no padding. -/
def headerBytes (q : ℕ) : ℕ := 3 * q

/-- The same, as the `size_t` the code computes with. -/
def sizeofHeader (q : ℕ) : Word q := BitVec.ofNat _ (headerBytes q)

/-- Reading the header at `pHeader`. -/
def loadHeader (m : Mem (8 * q)) (pHeader : Word q) : NsAlignedAllocationHeader q where
  pUnaligned := m.loadWord pHeader
  size := m.loadWord (pHeader + BitVec.ofNat _ q)
  alignment := m.loadWord (pHeader + BitVec.ofNat _ (2 * q))

/-- The three assignments through `pHeader`. -/
def storeHeader (m : Mem (8 * q)) (pHeader : Word q) (hdr : NsAlignedAllocationHeader q) :
    Mem (8 * q) :=
  ((m.storeWord pHeader hdr.pUnaligned).storeWord (pHeader + BitVec.ofNat _ q)
    hdr.size).storeWord (pHeader + BitVec.ofNat _ (2 * q)) hdr.alignment

/-! ## The aligned entry points -/

section Aligned

variable (dflt : Backing q σ)

/-- The test both functions open with: zero, or more than one bit set. -/
def badAlignment (alignment : Word q) : Prop :=
  alignment = 0 ∨ alignment &&& (alignment - 1) ≠ 0

instance (alignment : Word q) : Decidable (badAlignment alignment) :=
  inferInstanceAs (Decidable (_ ∨ _))

def nsAlignedMalloc (sz alignment : Word q)
    (pAllocationCallbacks : Option (NsAllocationCallbacks q σ)) (W : World q σ) :
    Word q × World q σ :=
  if badAlignment alignment then (0, W)
  else if alignment - 1 > -1 - sizeofHeader q then (0, W)
  else
    let extraBytes := alignment - 1 + sizeofHeader q
    if sz > -1 - extraBytes then (0, W)
    else
      match nsMalloc dflt (sz + extraBytes) pAllocationCallbacks W with
      | (pUnaligned, W) =>
        if pUnaligned = 0 then (0, W)
        else
          let pAligned := (pUnaligned + extraBytes) &&& ~~~(alignment - 1)
          let pHeader := pAligned - sizeofHeader q
          (pAligned, { W with mem := storeHeader W.mem pHeader ⟨pUnaligned, sz, alignment⟩ })

def nsAlignedRealloc (p sz alignment : Word q)
    (pAllocationCallbacks : Option (NsAllocationCallbacks q σ)) (W : World q σ) :
    Word q × World q σ :=
  if badAlignment alignment then (0, W)
  else if p = 0 then nsAlignedMalloc dflt sz alignment pAllocationCallbacks W
  else
    let pHeader := loadHeader W.mem (p - sizeofHeader q)
    let pOldUnaligned := pHeader.pUnaligned
    let oldSize := pHeader.size
    if alignment ≠ pHeader.alignment then (0, W)
    else
      let oldAlignmentOffset := p - pOldUnaligned
      if alignment - 1 > -1 - sizeofHeader q then (0, W)
      else
        let extraBytes := alignment - 1 + sizeofHeader q
        if oldAlignmentOffset > extraBytes then (0, W)
        else if sz > -1 - extraBytes then (0, W)
        else
          match nsRealloc dflt pOldUnaligned (sz + extraBytes) pAllocationCallbacks W with
          | (pNewUnaligned, W) =>
            if pNewUnaligned = 0 then (0, W)
            else
              let pNewAligned := (pNewUnaligned + extraBytes) &&& ~~~(alignment - 1)
              -- the payload has to move when the new base has another residue
              let mem :=
                if pNewAligned ≠ pNewUnaligned + oldAlignmentOffset then
                  W.mem.move pNewAligned (pNewUnaligned + oldAlignmentOffset)
                    (if oldSize < sz then oldSize else sz).toNat
                else W.mem
              (pNewAligned,
                { W with
                  mem := storeHeader mem (pNewAligned - sizeofHeader q)
                    ⟨pNewUnaligned, sz, alignment⟩ })

def nsAlignedFree (p : Word q) (pAllocationCallbacks : Option (NsAllocationCallbacks q σ))
    (W : World q σ) : World q σ :=
  if p = 0 then W
  else nsFree dflt (loadHeader W.mem (p - sizeofHeader q)).pUnaligned pAllocationCallbacks W

end Aligned

end Refcode.Alloc
