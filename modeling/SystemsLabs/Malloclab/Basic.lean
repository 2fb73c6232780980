import SystemsLabs.Memory.Layout

/-!
# What the three allocators share

`mm-implicit.c`, `mm-explicit.c` and `mm-seglist.c` begin with the same macros and block
functions. A `uint32_t *` into the heap is modelled by its distance in words from
`mem_heap_lo()`, so pointer arithmetic reads as in the source, and `NULL` by `none`.
Every word access goes through `load` and `store`, which go wrong outside the heap.
`size_t` arithmetic wraps at `2 ^ 64` and `unsigned int` arithmetic at `2 ^ 32`.
-/

namespace SystemsLabs
namespace Malloclab

open Memory

/-- Programs over the heap. -/
abbrev HeapM : Type → Type := Prog Segment

/-! ## Macros -/

def WSIZE : ℕ := 4
def DSIZE : ℕ := 8

/-- `PACK(size, alloc)`. -/
def pack (size alloc : ℕ) : ℕ := size ||| alloc

/-- `PUT(p, value)`: the value is cut to a `uint32_t`. -/
abbrev put (p value : ℕ) : HeapM Unit := store p value

/-- `size_t` addition. -/
def szAdd (a b : ℕ) : ℕ := (a + b) % 2 ^ 64

/-- `size_t` subtraction. -/
def szSub (a b : ℕ) : ℕ := (a + 2 ^ 64 - b) % 2 ^ 64

/-- `size_t` multiplication. -/
def szMul (a b : ℕ) : ℕ := (a * b) % 2 ^ 64

/-- `unsigned int` addition. -/
def uAdd (a b : ℕ) : ℕ := (a + b) % 2 ^ 32

/-! ## memlib -/

/-- `mem_sbrk(size)`: the old end of the heap, or `none` for `(void *)-1`. -/
def memSbrk (grant : Bool) (size : ℕ) : HeapM (Option ℕ) := do
  return (← grow grant size).map (· / WSIZE)

/-- A request for `size` more bytes is served. -/
def Grants (grant : Bool) (s : Segment) (size : ℕ) : Prop := grant ∧ s.brk + size ≤ s.cap

instance (grant : Bool) (s : Segment) (size : ℕ) : Decidable (Grants grant s size) :=
  inferInstanceAs (Decidable (_ ∧ _))

/-- `in_heap(p)`: `p` is between `mem_heap_lo()` and `mem_heap_hi()`, the last byte. -/
def inHeap (p : ℕ) : HeapM Bool := do
  return decide (WSIZE * p < (← length))

/-- `memcpy(dst, src, n)` between two heap pointers, `n` in bytes. -/
def memcpy (junk : ℕ → UInt8) (dst src n : ℕ) : HeapM Unit :=
  copy junk (WSIZE * dst) (WSIZE * src) n

/-- `memset(dst, v, n)`, `n` in bytes, of which none can be set through `NULL`. -/
def memset (dst : Option ℕ) (v : UInt8) (n : ℕ) : HeapM Unit :=
  match dst with
  | some dst => fill (WSIZE * dst) n v
  | none => if n = 0 then return else stuck

/-! ## Block functions -/

/-- `block_size(block)`: the header without its low three bits. -/
def blockSize (block : ℕ) : HeapM ℕ := do
  return (← load block) &&& 0xFFFFFFF8

/-- `block_free(block)`: 0 if the block is free, 1 otherwise. -/
def blockFree (block : ℕ) : HeapM ℕ := do
  return (← load block) &&& 0x1

/-- `block_mark(block, free)`: marks header and footer. -/
def blockMark (block free : ℕ) : HeapM Unit := do
  let size ← blockSize block
  put block (pack size free)
  put (block + size / WSIZE - 1) (pack size free)

/-- `block_mem(block)`: what malloc returns. -/
def blockMem (block : ℕ) : ℕ := block + 1

/-- `get_header(bp)`. -/
def getHeader (bp : ℕ) : ℕ := bp - 1

/-- `get_footer_el(block)`. -/
def getFooterEl (block : ℕ) : HeapM ℕ := do
  return block + (← blockSize block) / WSIZE - 1

/-- `block_prev(block)`: the header of the previous block, from its footer. -/
def blockPrev (block : ℕ) : HeapM ℕ := do
  return block - (← blockSize (block - 1)) / WSIZE

/-- `block_next(block)`: the header of the next block. -/
def blockNext (block : ℕ) : HeapM ℕ := do
  return block + (← blockSize block) / WSIZE

/-! ## Common entry points -/

/-- `getMallocSize(size)` of `mm-seglist.c`, which the other two compute in `malloc`: the
block size for a request, with the two tags and the alignment. -/
def getMallocSize (size : ℕ) : ℕ :=
  if size ≤ DSIZE then 2 * DSIZE
  else szMul DSIZE (szAdd (szAdd size DSIZE) (DSIZE - 1) / DSIZE)

/-- `realloc(oldptr, size)` of `mm-implicit.c` and `mm-explicit.c`, over their `malloc` and
`free`: allocate, copy, free. -/
def reallocCopy (malloc : ℕ → HeapM (Option ℕ)) (free : Option ℕ → HeapM Unit)
    (junk : ℕ → UInt8) (oldptr : Option ℕ) (size : ℕ) : HeapM (Option ℕ) := do
  if size = 0 then
    free oldptr
    return none
  else
    match oldptr with
    | none => malloc size
    | some oldptr =>
      match ← malloc size with
      | none => return none
      | some newptr =>
        let oldsize ← blockSize (getHeader oldptr)
        let oldsize := if size < oldsize then size else oldsize
        memcpy junk newptr oldptr oldsize
        free (some oldptr)
        return some newptr

/-- `calloc(nmemb, size)` of the three files, over their `malloc`. -/
def callocWith (malloc : ℕ → HeapM (Option ℕ)) (nmemb size : ℕ) : HeapM (Option ℕ) := do
  let bytes := szMul nmemb size
  let newptr ← malloc bytes
  memset newptr 0 bytes
  return newptr

/-! ## Evaluating the macros -/

lemma pack_zero (size : ℕ) : pack size 0 = size := by
  simp [pack]

lemma pack_zero_one : pack 0 1 = 1 := rfl

lemma pack_one {size : ℕ} (h : 8 ∣ size) : pack size 1 = size + 1 := by
  obtain ⟨k, rfl⟩ := h
  have := Nat.two_pow_add_eq_or_of_lt (b := 1) (i := 3) (by norm_num) k
  simpa [pack] using this.symm

lemma szAdd_eq {a b : ℕ} (h : a + b < 2 ^ 64) : szAdd a b = a + b := Nat.mod_eq_of_lt h

lemma szSub_eq {a b : ℕ} (h : b ≤ a) (ha : a < 2 ^ 64) : szSub a b = a - b := by
  unfold szSub
  omega

lemma szMul_eq {a b : ℕ} (h : a * b < 2 ^ 64) : szMul a b = a * b := Nat.mod_eq_of_lt h

lemma uAdd_eq {a b : ℕ} (h : a + b < 2 ^ 32) : uAdd a b = a + b := Nat.mod_eq_of_lt h

/-- As long as the arithmetic does not wrap, a request is served by a block that has room
for it. -/
lemma exists_block_of_le {n : ℕ} (hn : n ≤ 2 ^ 64 - 16) :
    ∃ b : Block, b.size = getMallocSize n ∧ b.alloc = true ∧ n + 8 ≤ b.size ∧ b.size < 2 ^ 64 ∧
      b.size ≤ n + 16 := by
  by_cases h : n ≤ 8
  · exact ⟨⟨16, true, by norm_num, by norm_num⟩, by simp [getMallocSize, DSIZE, h], rfl,
      by show n + 8 ≤ 16; omega, by norm_num, by show 16 ≤ n + 16; omega⟩
  · have hsize : getMallocSize n = 8 * ((n + 15) / 8) := by
      simp only [getMallocSize, DSIZE, h, if_false, szMul, szAdd]
      omega
    exact ⟨⟨8 * ((n + 15) / 8), true, Nat.dvd_mul_right _ _, by omega⟩, hsize.symm, rfl,
      by show n + 8 ≤ 8 * ((n + 15) / 8); omega, by show 8 * ((n + 15) / 8) < 2 ^ 64; omega,
      by show 8 * ((n + 15) / 8) ≤ n + 16; omega⟩

/-- Beyond that the block is too small to be one. -/
lemma getMallocSize_lt {n : ℕ} (hn : 2 ^ 64 - 16 < n) (hlt : n < 2 ^ 64) :
    getMallocSize n < 16 := by
  have h : ¬ n ≤ 8 := by omega
  simp only [getMallocSize, DSIZE, h, if_false, szMul, szAdd]
  omega

/-- A request for less than `2 ^ 31` bytes. -/
lemma exists_block_getMallocSize {n : ℕ} (hn : n < 2 ^ 31) :
    ∃ b : Block, b.size = getMallocSize n ∧ b.alloc = true ∧ n + 8 ≤ b.size ∧
      b.size < 2 ^ 31 + 16 := by
  obtain ⟨b, hb, halloc, hroom, -, hlt⟩ := exists_block_of_le (show n ≤ 2 ^ 64 - 16 by omega)
  exact ⟨b, hb, halloc, hroom, by omega⟩

lemma getMallocSize_lt_of_lt {n : ℕ} (hn : n < 2 ^ 31) : getMallocSize n < 2 ^ 31 + 16 := by
  obtain ⟨b, hb, -, -, hlt⟩ := exists_block_getMallocSize hn
  rwa [← hb]

/-- The free block by which the heap grows when nothing fits `b`: at least `n` bytes. -/
def chunk (b : Block) (n : ℕ) (hn : 8 ∣ n) : Block where
  size := max b.size n
  alloc := false
  dvd := by rcases max_choice b.size n with h | h <;> rw [h]; exacts [b.dvd, hn]
  le := le_max_of_le_left b.le

lemma getMallocSize_lt_two_pow (n : ℕ) : getMallocSize n < 2 ^ 64 := by
  unfold getMallocSize szMul DSIZE
  split <;> omega

lemma getMallocSize_le {n : ℕ} (hpos : 0 < n) : getMallocSize n ≤ n + 15 := by
  by_cases h : n ≤ 8
  · simp only [getMallocSize, DSIZE, h, if_true]
    omega
  · simp only [getMallocSize, DSIZE, h, if_false, szMul, szAdd]
    omega

lemma dvd_getMallocSize (n : ℕ) : 8 ∣ getMallocSize n := by
  unfold getMallocSize szMul DSIZE
  split <;> omega

/-- The free block by which the heap grows, whatever the size of the request has become. -/
lemma exists_chunk (n : ℕ) {k : ℕ} (hk : 8 ∣ k) (hle : 16 ≤ k) :
    ∃ e : Block, e.alloc = false ∧ e.size = max (getMallocSize n) k := by
  have hdvd := dvd_getMallocSize n
  refine ⟨⟨max (getMallocSize n) k, false, ?_, hle.trans (le_max_right _ _)⟩, rfl, rfl⟩
  rcases max_choice (getMallocSize n) k with h | h
  · rwa [h]
  · rwa [h]

/-- `~0x7` clears the low three bits of a word. -/
lemma and_not_seven {w : ℕ} (h : w < 2 ^ 32) : w &&& 0xFFFFFFF8 = w / 8 * 8 := by
  -- the mask is 29 ones above three zeros: compare the two sides bit by bit
  have hmask : (0xFFFFFFF8 : ℕ) = (2 ^ 29 - 1) <<< 3 := by decide
  have hw : w = 2 ^ 3 * (w / 8) + w % 8 := by omega
  apply Nat.eq_of_testBit_eq
  intro j
  rw [hmask, Nat.testBit_and, Nat.testBit_shiftLeft, Nat.testBit_two_pow_sub_one,
    show w / 8 * 8 = (w / 2 ^ 3) * 2 ^ 3 by norm_num, Nat.testBit_mul_two_pow]
  by_cases hj : 3 ≤ j
  · simp only [hj, decide_true, Bool.true_and, Nat.testBit_div_two_pow]
    rw [show j - 3 + 3 = j by omega]
    by_cases hj' : j - 3 < 29
    · simp [hj']
    · have : w.testBit j = false :=
        Nat.testBit_lt_two_pow (lt_of_lt_of_le h (Nat.pow_le_pow_right (by norm_num) (by omega)))
      simp [this]
  · simp [hj]

@[simp] lemma wp_blockSize (block : ℕ) (Q : ℕ → Segment → Prop) (s : Segment) :
    wp (blockSize block) Q s ↔ 4 * block + 4 ≤ s.brk ∧ Q (s.word block / 8 * 8) s := by
  simp [blockSize, and_not_seven (s.word_lt block)]

@[simp] lemma wp_blockFree (block : ℕ) (Q : ℕ → Segment → Prop) (s : Segment) :
    wp (blockFree block) Q s ↔ 4 * block + 4 ≤ s.brk ∧ Q (s.word block % 2) s := by
  simp [blockFree, Nat.and_one_is_mod]

@[simp] lemma wp_memSbrk (grant : Bool) (size : ℕ) (Q : Option ℕ → Segment → Prop) (s : Segment) :
    wp (memSbrk grant size) Q s ↔
      if Grants grant s size then Q (some (s.brk / 4)) (s.setBrk (s.brk + size)) else Q none s := by
  simp only [memSbrk, bind_pure_comp, wp_map, wp_grow]
  rfl

@[simp] lemma wp_inHeap (p : ℕ) (Q : Bool → Segment → Prop) (s : Segment) :
    wp (inHeap p) Q s ↔ Q (decide (4 * p < s.brk)) s :=
  wp_of_run (a := decide (4 * p < s.brk)) rfl

/-- `block_mark` rewrites both tags of a block. -/
lemma wp_blockMark {x : ℕ} {b : Block} (al : Bool) {Q : Unit → Segment → Prop} {s : Segment}
    (htag : s.word x = b.tag) (hin : 4 * (x + b.words) ≤ s.brk)
    (hQ : Q () (s.retag x (b.mark al))) : wp (blockMark x al.toNat) Q s := by
  have hw := b.words_ge
  have hpack : pack b.size al.toNat = (b.mark al).tag := by
    cases al
    · simp [pack_zero, Block.tag]
    · simp [pack_one b.dvd, Block.tag]
  simp only [blockMark, wp_bind, wp_blockSize, wp_store, htag, b.tag_div, hpack, WSIZE,
    Segment.brk_setWord, Block.size_div_four]
  exact ⟨by omega, by omega, by omega, hQ⟩

/-- Where a search comes first and the heap is extended if it finds nothing, `NULL` is returned
exactly when the extension is refused (`served` says when it is not), and nothing changes. -/
lemma searchThenExtend_none {search extend : HeapM (Option ℕ)} {place : ℕ → HeapM Unit}
    {k : ℕ} {s s' : Segment} {r : Option ℕ} {served : Prop}
    (hsearch : search.run s = some (r, s))
    (hextend : wp extend (fun r s' => (r = none ∧ s' = s ∧ ¬ served) ∨ (r ≠ none ∧ served)) s) :
    (do
      match ← search with
      | some bp =>
        place bp
        return some bp
      | none =>
        match ← extend with
        | some bp =>
          place (bp + k)
          return some (bp + k)
        | none => return none : HeapM (Option ℕ)).run s = some (none, s') ↔
      s' = s ∧ r = none ∧ ¬ served := by
  obtain ⟨r', t, hrun, hcases⟩ := hextend
  have hplace : ∀ bp t, ¬ wp (do place bp; return some bp : HeapM (Option ℕ))
      (fun r u => r = none ∧ u = s') t := by
    intro bp t h
    obtain ⟨_, _, -, h⟩ := (wp_bind _ _ _ _).1 h
    exact absurd ((wp_pure _ _ _).1 h).1 (Option.some_ne_none bp)
  rw [run_eq_some_iff, wp_bind, wp_of_run hsearch]
  cases r with
  | some bp => exact iff_of_false (hplace bp s) fun h => absurd h.2.1 (Option.some_ne_none bp)
  | none =>
    rw [wp_bind, wp_of_run hrun]
    rcases hcases with ⟨rfl, rfl, hserved⟩ | ⟨hne, hserved⟩
    · rw [wp_pure]
      exact ⟨fun h => ⟨h.2.symm, rfl, hserved⟩, fun h => ⟨rfl, h.1.symm⟩⟩
    · obtain ⟨bp, rfl⟩ := Option.ne_none_iff_exists'.mp hne
      exact iff_of_false (hplace (bp + k) t) fun h => h.2.2 hserved

end Malloclab
end SystemsLabs
