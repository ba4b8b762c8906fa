import Mathlib.Tactic.SplitIfs

/-!
# The back ends of the spinlock

`spinlock.c` reads and writes the lock word through three functions, which it
implements once for every compiler.  Each of them is one atomic access, here a
function of the word: the value it returns, and the word it leaves behind.

* `exchange`, `store`, `load`, `compareExchange`, `compareAndSwap` — what the
  compilers and processors provide.
* `spinlockTestAndSetExplicit`, `spinlockClearExplicit`, `spinlockLoadExplicit` — the
  three functions.
* `spinlockLoadExplicit_eq` — no load changes the word, although some of them are
  writes.
-/

namespace Refcode.Spinlock

/-- `spinlock_t`. -/
abbrev Word := BitVec 32

/-! ## The instructions -/

/-- `xchg`, `_InterlockedExchange`, `__atomic_exchange_n`, `__sync_lock_test_and_set` and
`__builtin_atomic_exchange`. -/
def exchange (src dst : Word) : Word × Word := (dst, src)

/-- A plain store, `__atomic_store_n` and `__sync_lock_release`. -/
def store (src _dst : Word) : Word := src

/-- A plain load and `__atomic_load_n`. -/
def load (dst : Word) : Word × Word := (dst, dst)

/-- `_InterlockedCompareExchange` and `__sync_val_compare_and_swap`. -/
def compareExchange (expected desired dst : Word) : Word × Word :=
  (dst, if dst = expected then desired else dst)

/-- `__builtin_compare_and_swap`: whether it has swapped, what it leaves in
`*expected`, and what it leaves in `*dst`. -/
def compareAndSwap (expected desired dst : Word) : Bool × Word × Word :=
  if dst = expected then (true, expected, desired) else (false, dst, dst)

/-! ## The three functions -/

/-- The implementations that the preprocessor chooses from. -/
inductive BackEnd where
  | modernMsvc
  | legacyMsvc
  | legacyMsvcAsm
  | modernGcc
  | legacyGcc
  | legacyGccAsm
  | chibicc
  deriving DecidableEq

/-- `spinlock_memory_order`, in increasing order. -/
inductive MemoryOrder where
  | relaxed
  | consume
  | acquire
  | release
  | acqRel
  | seqCst
  deriving DecidableEq

/-- `spinlock_test_and_set_explicit`; the order only decides about fences. -/
def spinlockTestAndSetExplicit (_ : BackEnd) (_ : MemoryOrder) (dst : Word) : Word × Word :=
  exchange 1 dst

/-- `spinlock_clear_explicit`. -/
def spinlockClearExplicit (backEnd : BackEnd) (order : MemoryOrder) (dst : Word) : Word :=
  match backEnd with
  | .modernMsvc | .legacyMsvc | .chibicc => (exchange 0 dst).2
  | .legacyMsvcAsm => if order = .relaxed then store 0 dst else (exchange 0 dst).2
  | .modernGcc | .legacyGcc => store 0 dst
  | .legacyGccAsm =>
    if order = .relaxed then store 0 dst
    else if order = .release then store 0 dst
    else (exchange 0 dst).2

/-- `spinlock_load_explicit`; the order only decides about fences. -/
def spinlockLoadExplicit (backEnd : BackEnd) (_ : MemoryOrder) (dst : Word) : Word × Word :=
  match backEnd with
  | .modernMsvc | .legacyMsvc | .legacyGcc => compareExchange 0 0 dst
  | .legacyMsvcAsm | .modernGcc | .legacyGccAsm => load dst
  | .chibicc =>
    let (_, expected, dst) := compareAndSwap 0 0 dst
    (expected, dst)

variable (backEnd : BackEnd) (order : MemoryOrder) (dst : Word)

/-- The word is `1` afterwards, whatever it was. -/
theorem spinlockTestAndSetExplicit_eq : spinlockTestAndSetExplicit backEnd order dst = (dst, 1) :=
  rfl

theorem spinlockClearExplicit_eq : spinlockClearExplicit backEnd order dst = 0 := by
  cases backEnd <;> cases order <;> rfl

theorem compareExchange_self (expected : Word) :
    compareExchange expected expected dst = (dst, dst) := by
  unfold compareExchange
  split_ifs with heq
  · rw [heq]
  · rfl

theorem compareAndSwap_self (expected : Word) :
    (compareAndSwap expected expected dst).2 = (dst, dst) := by
  unfold compareAndSwap
  split_ifs with heq
  · rw [heq]
  · rfl

/-- **No load changes the word**: a compare and swap of `0` with `0` writes what it
finds, and what it reports is what it found. -/
theorem spinlockLoadExplicit_eq : spinlockLoadExplicit backEnd order dst = (dst, dst) := by
  unfold spinlockLoadExplicit
  cases backEnd with
  | modernMsvc | legacyMsvc | legacyGcc => exact compareExchange_self dst 0
  | legacyMsvcAsm | modernGcc | legacyGccAsm => rfl
  | chibicc => exact compareAndSwap_self dst 0

end Refcode.Spinlock
