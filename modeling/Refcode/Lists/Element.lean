import Refcode.Lib.Memory

/-!
# Lists of elements in memory

What the generic searches and the generic sort share: a list is an address, a
number of elements and a stride, all of them `size_t` values of `w` bits, and its
elements are compared by a callback.
-/

namespace Refcode.Lists

open Refcode.Lib

/-- `int (*compareProc)(void*, const void*, const void*)`, called with
`pUserData` and two pointers.  It reads the memory and may keep a state of its
own, so that it need not answer the same twice. -/
abbrev CompareProc (w : ℕ) (σ : Type*) :=
  BitVec w → BitVec w → BitVec w → Mem w → σ → Int × σ

/-- `(char*)pBase + i * stride`. -/
def element {w : ℕ} (pBase stride i : BitVec w) : BitVec w := pBase + i * stride

end Refcode.Lists
