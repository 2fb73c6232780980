import SystemsLabs.Malloclab.ListBased

/-!
# `mm-explicit.c`

The allocator with one list of free blocks. `heapPtr` is the global that `mm_init` sets to
the header of the prologue block, which is the head of the list: its next link is the word
after it, as in every block.
-/

namespace SystemsLabs
namespace Malloclab
namespace Explicit

open Memory

def CHUNKSIZE : ℕ := 1 <<< 12

/-- Stores the next link of a block. -/
def setNext (p v : ℕ) : HeapM Unit := put (p + 1) v

/-- `removeBlock(block)`. -/
def removeBlock : ℕ → HeapM Unit := removeBlockWith setNext

/-- `placeFreeBlock(block)`: puts a block at the front of the list. -/
def placeFreeBlock (heapPtr block : ℕ) : HeapM ℕ := do
  linkFront setNext heapPtr (← load (heapPtr + 1)) block

/-- `coalesce(block)`: a predecessor that grows stays where it is on the list. -/
def coalesce (heapPtr : ℕ) : ℕ → HeapM ℕ :=
  coalesceWith removeBlock (placeFreeBlock heapPtr) fun prev => return prev

/-- `extend_heap(words)`. -/
def extendHeap (heapPtr : ℕ) : Bool → ℕ → HeapM (Option ℕ) := extendHeapWith (coalesce heapPtr)

/-- `find_first_fit(size)`: the walk begins at the prologue. -/
def findFirstFit (heapPtr size : ℕ) : HeapM (Option ℕ) := do
  let bsize ← blockSize heapPtr
  findLoop size (← length) heapPtr bsize

/-- `place(bp, size)`: what remains of the block stays on the list in its place. -/
def place : ℕ → ℕ → HeapM Unit := placeWith setNext fun _ _ => return

/-- `mm_init()`: the new value of `heap_ptr`, or `none` where the source returns -1. -/
def mmInit (grant₁ grant₂ : Bool) : HeapM (Option ℕ) := do
  match ← memSbrk grant₁ (5 * WSIZE) with
  | none => return none
  | some heapPtr =>
    put heapPtr 0
    put (heapPtr + 1) (pack (2 * DSIZE) 1)
    put (heapPtr + 2) (address (heapPtr + 4))
    put (heapPtr + 3) (pack (2 * DSIZE) 1)
    put (heapPtr + 4) (pack 0 1)
    let heapPtr := heapPtr + 1
    match ← extendHeap heapPtr grant₂ (CHUNKSIZE / WSIZE) with
    | none => return none
    | some _ => return some heapPtr

/-- `malloc(size)`. -/
def malloc (heapPtr : ℕ) : Bool → ℕ → HeapM (Option ℕ) :=
  mallocWith (coalesce heapPtr) (findFirstFit heapPtr) place CHUNKSIZE

/-- `free(ptr)`. -/
def free (heapPtr : ℕ) : Option ℕ → HeapM Unit := freeWith (coalesce heapPtr)

/-- `realloc(oldptr, size)`. -/
def realloc (heapPtr : ℕ) (grant : Bool) (junk : ℕ → UInt8) (oldptr : Option ℕ) (size : ℕ) :
    HeapM (Option ℕ) :=
  reallocCopy (malloc heapPtr grant) (free heapPtr) junk oldptr size

/-- `calloc(nmemb, size)`. -/
def calloc (heapPtr : ℕ) (grant : Bool) (nmemb size : ℕ) : HeapM (Option ℕ) :=
  callocWith (malloc heapPtr grant) nmemb size

end Explicit
end Malloclab
end SystemsLabs
