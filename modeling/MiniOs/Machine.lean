/-
**Words, bytes and memory.**

The types all modules of the kernel share: machine words and bytes are bit vectors, so that their
arithmetic wraps as it does in the code, and memory is read and written by whole words.
-/

import Mathlib.Data.BitVec

set_option relaxedAutoImplicit false
set_option autoImplicit false

namespace MiniOs

/-- A 64-bit word: `uint64_t`, `uintptr_t` and pointers. -/
abbrev Word := BitVec 64

/-- A byte: `uint8_t` and `char`. -/
abbrev Byte := BitVec 8

/-- The null pointer. -/
def null : Word := 0#64

/-- The memory, as the 64-bit word stored at an address. -/
abbrev Memory := Word → Word

end MiniOs
