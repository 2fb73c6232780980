import SystemsLabs.Malloclab.Basic

/-!
# What `mm-explicit.c` and `mm-seglist.c` share

Both files keep the free blocks on doubly linked lists. The links are the two words after
a free block's header, and since a word has 32 bits they hold the low half of an address:
`fixAddress` puts the bit back that the start of the heap has. Neither heap has an epilogue
at its end; the last block is recognised by `in_heap`.

Most functions of the two files are the same text, and they differ in where a next link
is stored and in what happens to a block that grew or shrank. The definitions here take
these parts as parameters, and each file's own functions are instances of them.
-/

namespace SystemsLabs
namespace Malloclab

open Memory

/-- `mem_heap_lo()`, as `fixAddress` expects it. -/
def heapLo : ℕ := 2 ^ 35

/-- The address of a pointer into the heap. -/
def address (p : ℕ) : ℕ := heapLo + WSIZE * p

/-- `fixAddress(addr)`. -/
def fixAddress (addr : ℕ) : ℕ := ((1 <<< 35 ||| addr) - heapLo) / WSIZE

section Shared
variable (setNext : ℕ → ℕ → HeapM Unit)

/-- The part of `placeFreeBlock` in which `block` becomes the first on the list of `head`,
before the block at the address `next`. -/
def linkFront (head next block : ℕ) : HeapM ℕ := do
  put (block + 1) next
  put (block + 2) (address head)
  setNext head (address block)
  if (← blockFree (fixAddress (← load (block + 1)))) = 0 then
    put (fixAddress (uAdd (← load (block + 1)) 8)) (address block)
  return block

/-- `removeBlock(block)`: `setNext p v` stores `v` as the next link of `p`. -/
def removeBlockWith (block : ℕ) : HeapM Unit := do
  let p := fixAddress (← load (block + 2))
  let n := fixAddress (← load (block + 1))
  setNext p (← load (block + 1))
  if (← blockFree n) = 0 then
    put (n + 2) (← load (block + 2))

/-- The part of `place` in which the block that remains, whose payload is `temp`, takes the
place of `block` on its list. -/
def moveLinks (block temp : ℕ) : HeapM Unit := do
  put temp (← load (block + 1))
  put (temp + 1) (← load (block + 2))
  let next := fixAddress (← load temp)
  let prev := fixAddress (← load (temp + 1))
  setNext prev (address (temp - 1))
  if (← blockFree next) = 0 then
    put (next + 2) (address (temp - 1))

/-- The part of `place` in which `block` leaves its list. -/
def dropLinks (block : ℕ) : HeapM Unit := do
  let next := fixAddress (← load (block + 1))
  let prev := fixAddress (← load (block + 2))
  if (← blockFree next) = 0 then
    put (next + 2) (address prev)
  setNext prev (address next)

/-- `place(bp, size)`: allocates the front of a free block. `afterSplit bsize block` is what
is done in the end with the block that remains of one of `bsize` bytes. -/
def placeWith (afterSplit : ℕ → ℕ → HeapM Unit) (bp size : ℕ) : HeapM Unit := do
  let block := bp - 1
  let bsize ← blockSize block
  if szSub bsize size ≥ 2 * DSIZE then
    put block (pack size 1)
    put (← getFooterEl block) (pack size 1)
    let temp := (← getFooterEl block) + 2
    put (temp - 1) (pack (szSub bsize size) 0)
    put (← getFooterEl (temp - 1)) (pack (szSub bsize size) 0)
    moveLinks setNext block temp
    afterSplit bsize (temp - 1)
  else
    put block (pack bsize 1)
    put (← getFooterEl block) (pack bsize 1)
    dropLinks setNext block

variable (removeBlock : ℕ → HeapM Unit) (placeFreeBlock : ℕ → HeapM ℕ)

/-- `coalesce(block)`: merges a free block that is on no list with its free neighbours, and
puts it on its list. `joinPrev prev` is what is done with a predecessor that `block` alone
was added to. -/
def coalesceWith (joinPrev : ℕ → HeapM ℕ) (block : ℕ) : HeapM ℕ := do
  if (← inHeap ((← getFooterEl block) + 1)) = false then
    placeFreeBlock block
  else
    let prevAlloc ← blockFree (block - 1)
    let nextAlloc ← blockFree ((← getFooterEl block) + 1)
    let size ← blockSize block
    if prevAlloc ≠ 0 ∧ nextAlloc ≠ 0 then
      placeFreeBlock block
    else if prevAlloc ≠ 0 ∧ nextAlloc = 0 then
      let next := (← getFooterEl block) + 1
      let size := szAdd size (← blockSize next)
      put block (pack size 0)
      put (← getFooterEl next) (pack size 0)
      removeBlock next
      placeFreeBlock block
    else if prevAlloc = 0 ∧ nextAlloc ≠ 0 then
      let prev := block - (← blockSize (block - 1)) / WSIZE
      let size := szAdd size (← blockSize prev)
      put prev (pack size 0)
      put (← getFooterEl block) (pack size 0)
      joinPrev prev
    else
      let next := (← getFooterEl block) + 1
      let prev := block - (← blockSize (block - 1)) / WSIZE
      let size := szAdd size (uAdd (← blockSize prev) (← blockSize next))
      put prev (pack size 0)
      put (← getFooterEl next) (pack size 0)
      removeBlock prev
      removeBlock next
      placeFreeBlock prev

end Shared

section Entry
variable (coalesce : ℕ → HeapM ℕ)

/-- `extend_heap(words)`. -/
def extendHeapWith (grant : Bool) (words : ℕ) : HeapM (Option ℕ) := do
  let size := if words % 2 ≠ 0 then szMul (szAdd words 1) WSIZE else szMul words WSIZE
  match ← memSbrk grant size with
  | none => return none
  | some block =>
    put block (pack size 0)
    put (← getFooterEl block) (pack size 0)
    return some (← coalesce block)

/-- `malloc(size)`: the search, the smallest extension and `place` are parameters. -/
def mallocWith (findFit : ℕ → HeapM (Option ℕ)) (place : ℕ → ℕ → HeapM Unit) (chunksize : ℕ)
    (grant : Bool) (size : ℕ) : HeapM (Option ℕ) := do
  if size = 0 then
    return none
  else
    let aSize := getMallocSize size
    match ← findFit aSize with
    | some bp =>
      place bp aSize
      return some bp
    | none =>
      let eSize := max aSize chunksize
      match ← extendHeapWith coalesce grant (eSize / WSIZE) with
      | some bp =>
        place (bp + 1) aSize
        return some (bp + 1)
      | none => return none

/-- `free(ptr)`. -/
def freeWith (ptr : Option ℕ) : HeapM Unit := do
  match ptr with
  | none => return
  | some ptr =>
    blockMark (ptr - 1) 0
    let _ ← coalesce (ptr - 1)

end Entry

/-- The loop that both searches share, for at most `fuel` blocks of a list: the payload of
the first one that is free and large enough. -/
def findLoop (size : ℕ) : (fuel ptr bsize : ℕ) → HeapM (Option ℕ)
  | 0, _, _ => stuck
  | fuel + 1, ptr, bsize => do
    if bsize > 0 then
      if size ≤ bsize ∧ (← blockFree ptr) = 0 then
        return some (blockMem ptr)
      else
        let ptr := fixAddress (← load (ptr + 1))
        let bsize ← blockSize ptr
        findLoop size fuel ptr bsize
    else
      return none

end Malloclab
end SystemsLabs
