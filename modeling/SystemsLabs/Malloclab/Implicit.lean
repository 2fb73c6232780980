import SystemsLabs.Malloclab.Basic

/-!
# `mm-implicit.c`

The allocator that searches all blocks of the heap in address order. Pointers `bp` point
at payloads, one word past the header. `heapPtr` is the global that `mm_init` sets to the
header of the prologue block; `grant` says whether memlib serves the call's request for
more heap, and `junk` what `memcpy` finds outside the heap.
-/

namespace SystemsLabs
namespace Malloclab
namespace Implicit

open Memory

def CHUNKSIZE : ℕ := 1 <<< 12

/-- `get_footer(bp)`. -/
def getFooter (bp : ℕ) : HeapM ℕ := do
  return bp + (← blockSize (getHeader bp)) / WSIZE - 2

/-- `next_bp(bp)`. -/
def nextBp (bp : ℕ) : HeapM ℕ := do
  return bp + (← blockSize (getHeader bp)) / WSIZE

/-- `prev_bp(bp)`. -/
def prevBp (bp : ℕ) : HeapM ℕ := do
  return bp - (← blockSize (getHeader bp - 1)) / WSIZE

/-- `coalesce(bp)`: merges a free block with its free neighbours. -/
def coalesce (bp : ℕ) : HeapM ℕ := do
  let prevAlloc ← blockFree (← blockPrev (getHeader bp))
  let nextAlloc ← blockFree (← blockNext (getHeader bp))
  let size ← blockSize (getHeader bp)
  if prevAlloc ≠ 0 ∧ nextAlloc ≠ 0 then
    return bp
  else if prevAlloc ≠ 0 ∧ nextAlloc = 0 then
    let size := szAdd size (← blockSize (← blockNext (getHeader bp)))
    put (getHeader bp) (pack size 0)
    put (← getFooter bp) (pack size 0)
    return bp
  else if prevAlloc = 0 ∧ nextAlloc ≠ 0 then
    let size := szAdd size (← blockSize (← blockPrev (getHeader bp)))
    put (getHeader (← prevBp bp)) (pack size 0)
    put (← getFooter bp) (pack size 0)
    prevBp bp
  else
    let nextSize ← blockSize (← blockNext (getHeader bp))
    let prevSize ← blockSize (← blockPrev (getHeader bp))
    let size := szAdd size (uAdd nextSize prevSize)
    put (getHeader (← prevBp bp)) (pack size 0)
    put (← getFooter (← nextBp bp)) (pack size 0)
    prevBp bp

/-- `extend_heap(words)`: the old epilogue becomes the header of the new block. -/
def extendHeap (grant : Bool) (words : ℕ) : HeapM (Option ℕ) := do
  let size := if words % 2 ≠ 0 then szMul (szAdd words 1) WSIZE else szMul words WSIZE
  match ← memSbrk grant size with
  | none => return none
  | some bp =>
    put (getHeader bp) (pack size 0)
    put (← getFooter bp) (pack size 0)
    put (← blockNext (getHeader bp)) (pack 0 1)
    return some (← coalesce bp)

/-- The loop of `find_first_fit`, for at most `fuel` blocks. -/
def findFirstFitLoop (size : ℕ) : (fuel ptr bsize : ℕ) → HeapM (Option ℕ)
  | 0, _, _ => stuck
  | fuel + 1, ptr, bsize => do
    if bsize > 0 then
      if size ≤ bsize ∧ (← blockFree ptr) = 0 then
        return some (blockMem ptr)
      else
        let ptr ← blockNext ptr
        let bsize ← blockSize ptr
        findFirstFitLoop size fuel ptr bsize
    else
      return none

/-- `find_first_fit(size)`: the payload of the first free block that is large enough. A
walk over more blocks than the heap has bytes would never end. -/
def findFirstFit (heapPtr size : ℕ) : HeapM (Option ℕ) := do
  let ptr := heapPtr + 2
  let bsize ← blockSize ptr
  findFirstFitLoop size (← length) ptr bsize

/-- `place(bp, size)`: allocates the front of a free block, and splits off what remains
if that is a block. -/
def place (bp size : ℕ) : HeapM Unit := do
  let bsize ← blockSize (getHeader bp)
  if szSub bsize size ≥ 2 * DSIZE then
    put (getHeader bp) (pack size 1)
    put (← getFooter bp) (pack size 1)
    let bp ← nextBp bp
    put (getHeader bp) (pack (szSub bsize size) 0)
    put (← getFooter bp) (pack (szSub bsize size) 0)
  else
    put (getHeader bp) (pack bsize 1)
    put (← getFooter bp) (pack bsize 1)

/-- `mm_init()`: the new value of `heap_ptr`, or `none` where the source returns -1. -/
def mmInit (grant₁ grant₂ : Bool) : HeapM (Option ℕ) := do
  match ← memSbrk grant₁ (4 * WSIZE) with
  | none => return none
  | some heapPtr =>
    put heapPtr 0
    put (heapPtr + 1) (pack DSIZE 1)
    put (heapPtr + 2) (pack DSIZE 1)
    put (heapPtr + 3) (pack 0 1)
    let heapPtr := heapPtr + 1
    match ← extendHeap grant₂ (CHUNKSIZE / WSIZE) with
    | none => return none
    | some _ => return some heapPtr

/-- `malloc(size)`. -/
def malloc (heapPtr : ℕ) (grant : Bool) (size : ℕ) : HeapM (Option ℕ) := do
  if size = 0 then
    return none
  else
    let aSize := getMallocSize size
    match ← findFirstFit heapPtr aSize with
    | some bp =>
      place bp aSize
      return some bp
    | none =>
      let eSize := max aSize CHUNKSIZE
      match ← extendHeap grant (eSize / WSIZE) with
      | some bp =>
        place bp aSize
        return some bp
      | none => return none

/-- `free(ptr)`. -/
def free (ptr : Option ℕ) : HeapM Unit := do
  match ptr with
  | none => return
  | some bp =>
    blockMark (getHeader bp) 0
    let _ ← coalesce bp

/-- `realloc(oldptr, size)`. -/
def realloc (heapPtr : ℕ) (grant : Bool) (junk : ℕ → UInt8) (oldptr : Option ℕ) (size : ℕ) :
    HeapM (Option ℕ) :=
  reallocCopy (malloc heapPtr grant) free junk oldptr size

/-- `calloc(nmemb, size)`. -/
def calloc (heapPtr : ℕ) (grant : Bool) (nmemb size : ℕ) : HeapM (Option ℕ) :=
  callocWith (malloc heapPtr grant) nmemb size

/-- The loop of `mm_checkheap`: the size and the allocation bit it prints for each header,
from `ptr` to the first of size 0. -/
def checkheapLoop : (fuel ptr bsize : ℕ) → HeapM (List (ℕ × ℕ))
  | 0, _, _ => stuck
  | fuel + 1, ptr, bsize => do
    let line := (bsize, ← blockFree ptr)
    if bsize > 0 then
      let ptr ← blockNext ptr
      let bsize ← blockSize ptr
      return line :: (← checkheapLoop fuel ptr bsize)
    else
      return [line]

/-- `mm_checkheap()`: the headers from the prologue to the epilogue, as printed. -/
def mmCheckheap (heapPtr : ℕ) : HeapM (List (ℕ × ℕ)) := do
  let bsize ← blockSize heapPtr
  checkheapLoop (← length) heapPtr bsize

end Implicit
end Malloclab
end SystemsLabs
