import Mathlib

/-!
# The kernel heap (`core/kmalloc.rs`)

A bump allocator: `NEXT_FREE` goes up with each allocation, and nothing is given back.
-/

namespace Tcmk

/-- `HEAP_START`. -/
def heapStart : ℕ := 0x00800000

/-- `HEAP_SIZE`. -/
def heapSize : ℕ := 4 * 1024 * 1024

/-- `HEAP_END`. -/
def heapEnd : ℕ := heapStart + heapSize

/-- `(x + align - 1) & !(align - 1)` for a power of two. -/
def alignUp (x align : ℕ) : ℕ := (x + align - 1) / align * align

/-- The static `NEXT_FREE`. -/
structure Heap where
  nextFree : ℕ

namespace Heap

def initial : Heap := ⟨heapStart⟩

/-- `kmalloc_aligned`: the address of the block. -/
def kmallocAligned (h : Heap) (size align : ℕ) : Option (ℕ × Heap) :=
  if size = 0 ∨ ¬ align.isPowerOfTwo then none
  else
    let start := alignUp h.nextFree align
    if start + size > heapEnd then none
    else some (start, ⟨start + size⟩)

end Heap

end Tcmk
