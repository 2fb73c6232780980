import SystemsLabs.Malloclab.ListBased

/-!
# `mm-seglist.c`

The allocator with nine lists of free blocks, by size. `heapPtr` is the global that
`mm_init` sets to the header of the prologue block; the payload of that block is the array
of the lists' heads, whose next links are the array's own words. An `int` or
`unsigned int` parameter that is given a `size_t` keeps its low 32 bits.
-/

namespace SystemsLabs
namespace Malloclab
namespace Seglist

open Memory

def CHUNKSIZE : ℕ := 1 <<< 8

/-- `getSegListIndex(blocksize)`: the number of the list for blocks of this size. -/
def getSegListIndex (blocksize : ℕ) : ℕ :=
  1 + (decide (32 ≤ blocksize)).toNat + (decide (64 ≤ blocksize)).toNat
    + (decide (128 ≤ blocksize)).toNat + (decide (256 ≤ blocksize)).toNat
    + (decide (512 ≤ blocksize)).toNat + (decide (1024 ≤ blocksize)).toNat
    + (decide (2048 ≤ blocksize)).toNat + (decide (4096 ≤ blocksize)).toNat

/-- Stores the next link of a block, or of a list's head in the prologue. -/
def setNext (heapPtr p v : ℕ) : HeapM Unit :=
  if p > heapPtr ∧ p < heapPtr + 10 then put p v else put (p + 1) v

/-- `removeBlock(block)`. -/
def removeBlock (heapPtr : ℕ) : ℕ → HeapM Unit := removeBlockWith (setNext heapPtr)

/-- `placeFreeBlock(block)`: puts a block at the front of the list for its size. -/
def placeFreeBlock (heapPtr block : ℕ) : HeapM ℕ := do
  let size ← blockSize block
  let index := getSegListIndex size
  let ptr := heapPtr + index
  let lptrNext := fixAddress (← load ptr)
  let lptrPrev := ptr
  linkFront (setNext heapPtr) lptrPrev (address lptrNext) block

/-- `coalesce(block)`: a predecessor that grows is put on its list anew. -/
def coalesce (heapPtr : ℕ) : ℕ → HeapM ℕ :=
  coalesceWith (removeBlock heapPtr) (placeFreeBlock heapPtr) fun prev => do
    removeBlock heapPtr prev
    placeFreeBlock heapPtr prev

/-- `extend_heap(words)`. -/
def extendHeap (heapPtr : ℕ) : Bool → ℕ → HeapM (Option ℕ) := extendHeapWith (coalesce heapPtr)

/-- `find_in_list(block, size)`. -/
def findInList (block size : ℕ) : HeapM (Option ℕ) := do
  let bsize ← blockSize block
  findLoop size (← length) block bsize

/-- The loop of `find_fit`, over the lists `i, ..., 9`. -/
def findFitLoop (heapPtr size : ℕ) : (count i : ℕ) → HeapM (Option ℕ)
  | 0, _ => return none
  | count + 1, i => do
    let ptr := heapPtr + i
    match ← findInList (fixAddress (← load ptr)) size with
    | some fit => return some fit
    | none => findFitLoop heapPtr size count (i + 1)

/-- `find_fit(size)`: the first block that fits, on the list for its size or a later one. -/
def findFit (heapPtr size : ℕ) : HeapM (Option ℕ) :=
  let index := getSegListIndex (size % 2 ^ 32)
  findFitLoop heapPtr size (10 - index) index

/-- `place(bp, size)`: what remains of the block stays on the list in its place, unless its
size belongs on another one. -/
def place (heapPtr : ℕ) : ℕ → ℕ → HeapM Unit :=
  placeWith (setNext heapPtr) fun bsize block => do
    if getSegListIndex (← blockSize block) ≠ getSegListIndex (bsize % 2 ^ 32) then
      removeBlock heapPtr block
      let _ ← placeFreeBlock heapPtr block

/-- `mm_init()`: the new value of `heap_ptr`, or `none` where the source returns -1. -/
def mmInit (grant₁ grant₂ : Bool) : HeapM (Option ℕ) := do
  match ← memSbrk grant₁ (13 * WSIZE) with
  | none => return none
  | some heapPtr =>
    let ep := address (heapPtr + 12)
    put heapPtr 0
    put (heapPtr + 1) (pack (11 * WSIZE) 1)
    put (heapPtr + 2) ep
    put (heapPtr + 3) ep
    put (heapPtr + 4) ep
    put (heapPtr + 5) ep
    put (heapPtr + 6) ep
    put (heapPtr + 7) ep
    put (heapPtr + 8) ep
    put (heapPtr + 9) ep
    put (heapPtr + 10) ep
    put (heapPtr + 11) (pack (11 * WSIZE) 1)
    put (heapPtr + 12) (pack 0 1)
    let heapPtr := heapPtr + 1
    match ← extendHeap heapPtr grant₂ (CHUNKSIZE / WSIZE) with
    | none => return none
    | some _ => return some heapPtr

/-- `malloc(size)`. -/
def malloc (heapPtr : ℕ) : Bool → ℕ → HeapM (Option ℕ) :=
  mallocWith (coalesce heapPtr) (findFit heapPtr) (place heapPtr) CHUNKSIZE

/-- `free(ptr)`. -/
def free (heapPtr : ℕ) : Option ℕ → HeapM Unit := freeWith (coalesce heapPtr)

/-- `(int)(oldsize - newsize) >= 2*DSIZE`: the low half of the difference, with its sign. -/
def shrinks (oldsize newsize : ℕ) : Prop :=
  2 * DSIZE ≤ szSub oldsize newsize % 2 ^ 32 ∧ szSub oldsize newsize % 2 ^ 32 < 2 ^ 31

instance (oldsize newsize : ℕ) : Decidable (shrinks oldsize newsize) :=
  inferInstanceAs (Decidable (_ ∧ _))

/-- `realloc(oldptr, size)`. -/
def realloc (heapPtr : ℕ) (grant : Bool) (junk : ℕ → UInt8) (oldptr : Option ℕ) (size : ℕ) :
    HeapM (Option ℕ) := do
  if size = 0 then
    free heapPtr oldptr
    return none
  else
    match oldptr with
    | none => malloc heapPtr grant size
    | some oldptr =>
      let oldsize ← blockSize (oldptr - 1)
      let newsize := getMallocSize size
      if newsize = oldsize then
        return some oldptr
      else if shrinks oldsize newsize then
        let oldheader := oldptr - 1
        put oldheader (pack newsize 1)
        put (← getFooterEl oldheader) (pack newsize 1)
        let newheader := (← getFooterEl oldheader) + 1
        put newheader (pack (szSub oldsize newsize) 0)
        put (← getFooterEl newheader) (pack (szSub oldsize newsize) 0)
        let _ ← coalesce heapPtr newheader
        return some oldptr
      else
        let oldsize := size
        match ← malloc heapPtr grant size with
        | none => return none
        | some newptr =>
          memcpy junk newptr oldptr oldsize
          free heapPtr (some oldptr)
          return some newptr

/-- `calloc(nmemb, size)`. -/
def calloc (heapPtr : ℕ) (grant : Bool) (nmemb size : ℕ) : HeapM (Option ℕ) :=
  callocWith (malloc heapPtr grant) nmemb size

end Seglist
end Malloclab
end SystemsLabs
