import SystemsLabs.Malloclab.ListRuns

/-!
# `mm_checkheap` of `mm-explicit.c` and `mm-seglist.c`

Both print the free lists, by a walk along the links that has no bound and stops at a block of
size 0. In every run the walk ends, and what is printed are the free blocks, each once
(`explicit_checkheap`, `seglist_checkheap`).
-/

namespace SystemsLabs
namespace Malloclab

open Memory Layout ListBased

/-- What is printed for a block: its address, its header, and from it the size and the mark, and
the two words after it. -/
structure Line where
  ptr : ℕ
  header : ℕ
  size : ℕ
  alloc : ℕ
  next : ℕ
  prev : ℕ

/-- The loop of both functions, for at most `fuel` blocks: what is printed, and the pointer at
which the loop ends. -/
def printLoop : (fuel ptr bsize : ℕ) → HeapM (List Line × ℕ)
  | 0, _, _ => stuck
  | fuel + 1, ptr, bsize => do
    if bsize > 0 then
      let header ← load ptr
      let alloc ← blockFree ptr
      let next ← load (ptr + 1)
      let prev ← load (ptr + 2)
      let line : Line := ⟨ptr, header, bsize, alloc, next, prev⟩
      let ptr := fixAddress (← load (ptr + 1))
      let bsize ← blockSize ptr
      let (lines, last) ← printLoop fuel ptr bsize
      return (line :: lines, last)
    else
      return ([], ptr)

namespace Explicit

/-- What is printed at the end: the address and the header there, its size and its mark. -/
structure EndLine where
  ptr : ℕ
  header : ℕ
  size : ℕ
  alloc : ℕ

/-- `mm_checkheap()`: the list from the prologue on, and the line for its end. -/
def mmCheckheap (heapPtr : ℕ) : HeapM (List Line × EndLine) := do
  let bsize ← blockSize heapPtr
  let (lines, ptr) ← printLoop (← length) heapPtr bsize
  let header ← load ptr
  let bsize ← blockSize ptr
  let alloc ← blockFree ptr
  return (lines, ⟨ptr, header, bsize, alloc⟩)

end Explicit

namespace Seglist

/-- What is printed for a list: `(nil)` and the pointer at its head, or its blocks. -/
inductive Shown
  | nil (listptr : ℕ)
  | blocks (lines : List Line)

/-- The body of the loop over the lists, once `listptr` has been read. -/
def showList (listptr : ℕ) : HeapM Shown := do
  if (← blockFree listptr) ≠ 0 then
    return .nil listptr
  else
    let bsize ← blockSize listptr
    let (lines, _) ← printLoop (← length) listptr bsize
    return .blocks lines

/-- The loop over the lists, of which `count` are left. -/
def showLists : (count ptr : ℕ) → HeapM (List Shown)
  | 0, _ => return []
  | count + 1, ptr => do
    let ptr := ptr + 1
    let shown ← showList (fixAddress (← load ptr))
    return shown :: (← showLists count ptr)

/-- `mm_checkheap(verbose)`: the nine lists. -/
def mmCheckheap (heapPtr : ℕ) : HeapM (List Shown) := showLists 9 heapPtr

end Seglist

/-! ## What the lines say -/

/-- The lines are those of the free blocks of one kind, each once, and their links lead from the
head `k` through all of them to the end `e` and back. -/
structure Prints (a : ℕ) (bs : Layout) (kind : Block → Prop) (k e : ℕ) (lines : List Line) :
    Prop where
  nodup : (lines.map Line.ptr).Nodup
  mem_iff : ∀ q, q ∈ lines.map Line.ptr ↔ ∃ b, At a bs q b ∧ b.alloc = false ∧ kind b
  tags : ∀ line ∈ lines, ∃ b, At a bs line.ptr b ∧ line.size = b.size ∧ line.alloc = 0 ∧
    line.header = pack b.size 0
  links : lines.IsChain fun line line' =>
    fixAddress line.next = line'.ptr ∧ fixAddress line'.prev = line.ptr
  first : ∀ line ∈ lines.head?, fixAddress line.prev = k
  last : ∀ line ∈ lines.getLast?, fixAddress line.next = e

namespace ListBased

variable {f : Format} {s : Segment} {bs : Layout} {l : List ℕ} {a k : ℕ}

/-- The line for the block at `q`. -/
def lineOf (s : Segment) (q : ℕ) : Line where
  ptr := q
  header := s.word q
  size := s.word q / 8 * 8
  alloc := s.word q % 2
  next := s.word (q + 1)
  prev := s.word (q + 2)

/-- A chain of free blocks is printed, and the loop ends where the chain does. -/
lemma printLoop_chain (fuel : ℕ) (h : Tiles f s bs)
    (hl : ∀ q ∈ l, ∃ e, At f.first bs q e ∧ e.alloc = false)
    (hchain : Chain (f.nxt s.word) (prv s.word) a l f.last) (hfuel : l.length < fuel) :
    wp (printLoop fuel (f.nxt s.word a) (s.word (f.nxt s.word a) / 8 * 8))
      (fun r s' => r = (l.map (lineOf s), f.last) ∧ s' = s) s := by
  induction l generalizing a fuel with
  | nil =>
    obtain ⟨fuel, rfl⟩ : ∃ k, fuel = k + 1 := ⟨fuel - 1, by rw [List.length_nil] at hfuel; omega⟩
    rw [chain_nil] at hchain
    simp [printLoop, hchain, h.last]
  | cons q l ih =>
    rw [List.length_cons] at hfuel
    obtain ⟨fuel, rfl⟩ : ∃ k, fuel = k + 1 := ⟨fuel - 1, by omega⟩
    obtain ⟨hq, -, hrest⟩ := chain_cons.1 hchain
    obtain ⟨e, he, hfree⟩ := hl q List.mem_cons_self
    have hbounds := he.bounds
    have hbrk := h.brk
    have hw := e.words_ge
    have hpos : 0 < e.size := by have := e.le; omega
    have hfirst : f.first = f.last + 1 := rfl
    have htag : s.word q / 8 * 8 = e.size := by rw [(h.tags q e he).1, e.tag_div]
    have hnext : fixAddress (s.word (q + 1)) = f.nxt s.word q := by
      rw [fixAddress_eq (s.word_lt _), Format.nxt, f.slot_block q (by omega)]
    have hrest' := ih fuel (fun r hr => hl r (List.mem_cons_of_mem q hr)) hrest (by omega)
    -- the walk reads the header of the next block, or of the epilogue, whose size is 0
    have hin : 4 * f.nxt s.word q + 4 ≤ s.brk := by
      rcases hrest.nxt_eq with hmem | hlast
      · obtain ⟨d, hd, -⟩ := hl _ (List.mem_cons_of_mem q hmem)
        have := hd.bounds
        have := d.words_ge
        omega
      · omega
    rw [hq, printLoop]
    simp only [htag, gt_iff_lt, hpos, if_true, wp_bind, wp_load, wp_blockFree, wp_blockSize, hnext]
    refine ⟨by omega, by omega, by omega, by omega, by omega, hin, wp_mono hrest' ?_⟩
    rintro r s' ⟨rfl, rfl⟩
    refine (wp_pure _ _ _).2 ⟨?_, rfl⟩
    rw [List.map_cons, lineOf, htag]

/-- What is printed for a chain of free blocks. -/
lemma prints_chain (h : Tiles f s bs) (hnd : l.Nodup)
    (hl : ∀ q, q ∈ l ↔ Listed f f.first bs k q)
    (hchain : Chain (f.nxt s.word) (prv s.word) k l f.last) :
    Prints f.first bs (fun b => f.head b.size = k) k f.last (l.map (lineOf s)) := by
  have hptr : (l.map (lineOf s)).map Line.ptr = l := by
    rw [List.map_map]
    exact List.map_id l
  have hnext : ∀ q ∈ l, fixAddress (s.word (q + 1)) = f.nxt s.word q := by
    intro q hq
    have hbounds := ((hl q).1 hq).bounds
    rw [fixAddress_eq (s.word_lt _), Format.nxt, f.slot_block q hbounds.1]
  have hprev : ∀ q, fixAddress (s.word (q + 2)) = prv s.word q :=
    fun q => fixAddress_eq (s.word_lt _)
  refine ⟨by rwa [hptr], fun q => by rw [hptr]; exact hl q, fun line hline => ?_, ?_, ?_, ?_⟩
  · obtain ⟨q, hq, rfl⟩ := List.mem_map.1 hline
    obtain ⟨b, hb, hfree, -⟩ := (hl q).1 hq
    have htag : s.word q = b.size := (h.tags q b hb).1.trans (Block.tag_of_free hfree)
    have hdvd := b.dvd
    refine ⟨b, hb, ?_, ?_, ?_⟩
    · show s.word q / 8 * 8 = b.size
      omega
    · show s.word q % 2 = 0
      omega
    · rw [pack_zero]
      exact htag
  · rw [List.isChain_map]
    refine hchain.isChain.imp_of_mem_imp fun q r hq hr hqr => ?_
    exact ⟨(hnext q hq).trans hqr.1, (hprev r).trans hqr.2⟩
  · intro line hline
    rw [List.head?_map] at hline
    obtain ⟨q, hq, rfl⟩ := Option.map_eq_some_iff.1 hline
    exact (hprev q).trans (hchain.prv_first hq)
  · intro line hline
    rw [List.getLast?_map] at hline
    obtain ⟨q, hq, rfl⟩ := Option.map_eq_some_iff.1 hline
    exact (hnext q (List.mem_of_getLast? hq)).trans (hchain.nxt_last hq)

/-- A list and what is needed to print it. -/
structure Printable (f : Format) (s : Segment) (bs : Layout) (k : ℕ) (l : List ℕ) : Prop where
  chain : Chain (f.nxt s.word) (prv s.word) k l f.last
  free : ∀ q ∈ l, ∃ e, At f.first bs q e ∧ e.alloc = false
  length : l.length + 1 < s.brk
  prints : Prints f.first bs (fun b => f.head b.size = k) k f.last (l.map (lineOf s))

lemma exists_printable (h : Inv f s bs) (hk : k ∈ f.heads) : ∃ l, Printable f s bs k l := by
  obtain ⟨l, hnd, hl, hchain, hlen⟩ := h.list hk
  refine ⟨l, hchain, fun q hq => ?_, hlen, prints_chain h.tiles hnd hl hchain⟩
  obtain ⟨e, he, hfree, -⟩ := (hl q).1 hq
  exact ⟨e, he, hfree⟩

/-- The first block of a list, or the epilogue, is in the heap. -/
lemma Printable.nxt_le (hl : Printable f s bs k l) (h : Tiles f s bs) :
    4 * f.nxt s.word k + 4 ≤ s.brk := by
  have hbrk := h.brk
  have hfirst : f.first = f.last + 1 := rfl
  rcases hl.chain.nxt_eq with hmem | hlast
  · obtain ⟨e, he, -⟩ := hl.free _ hmem
    have := he.bounds
    have := e.words_ge
    omega
  · omega

end ListBased

/-! ## `mm-explicit.c` -/

namespace Explicit

variable {s : Segment} {bs : Layout} {l : List ℕ}

/-- The walk begins with the prologue, goes on with the list and stops at the epilogue. -/
lemma mmCheckheap_spec (h : Inv format s bs) (hl : Printable format s bs 1 l) :
    (mmCheckheap 1).run s = some ((lineOf s 1 :: l.map (lineOf s), ⟨4, 1, 0, 1⟩), s) := by
  have hbrk := h.tiles.brk
  have hfirst : format.first = 5 := rfl
  have hpro : s.word 1 = 17 := h.tiles.prologue
  have hlast : s.word 4 = 1 := h.tiles.last
  have hnext : fixAddress (s.word 2) = format.nxt s.word 1 := fixAddress_eq (s.word_lt _)
  have hin := hl.nxt_le h.tiles
  obtain ⟨fuel, hfuel⟩ : ∃ k, s.brk = k + 1 := ⟨s.brk - 1, by omega⟩
  have hlen := hl.length
  have hloop := printLoop_chain fuel h.tiles hl.free hl.chain (by omega)
  rw [run_eq_some_iff]
  simp only [mmCheckheap, wp_bind, wp_blockSize, wp_length, hfuel, printLoop, hpro]
  simp [hpro, hnext]
  refine ⟨by omega, by omega, by omega, by omega, by omega, hin, wp_mono hloop ?_⟩
  rintro r s' ⟨rfl, rfl⟩
  have hfour : format.last = 4 := rfl
  simp only [wp_bind, wp_load, wp_blockSize, wp_map, wp_blockFree, hfour, hlast, lineOf, hpro]
  exact ⟨by omega, by omega, by omega, trivial, trivial⟩

end Explicit

/-! ## `mm-seglist.c` -/

namespace Seglist

/-- What is printed for the list with the index `i`: that it is empty, and then it is, or its
blocks. -/
def Shown.Shows (bs : Layout) (heapPtr i : ℕ) : Shown → Prop
  | nil listptr => listptr = 12 ∧
      ∀ x b, At 13 bs x b → b.alloc = false → getSegListIndex b.size ≠ i
  | blocks lines => lines ≠ [] ∧
      Prints 13 bs (fun b => getSegListIndex b.size = i) (heapPtr + i) 12 lines

variable {s : Segment} {bs : Layout} {l : List ℕ} {i : ℕ}

lemma showList_spec (h : Inv format s bs) (hl : Printable format s bs (1 + i) l) :
    wp (showList (format.nxt s.word (1 + i))) (fun r s' => r.Shows bs 1 i ∧ s' = s) s := by
  have hin := hl.nxt_le h.tiles
  have hlast : s.word format.last = 1 := h.tiles.last
  have hloop := printLoop_chain s.brk h.tiles hl.free hl.chain (by have := hl.length; omega)
  have hkind : ∀ n, (format.head n = 1 + i) = (getSegListIndex n = i) :=
    fun n => propext Nat.add_left_cancel_iff
  have hprints := hl.prints
  simp only [hkind] at hprints
  simp only [showList, wp_bind, wp_blockFree]
  refine ⟨hin, ?_⟩
  cases l with
  | nil =>
    have hnext : format.nxt s.word (1 + i) = format.last := chain_nil.1 hl.chain
    rw [hnext, hlast, if_pos (by norm_num), wp_pure]
    refine ⟨⟨rfl, fun x b hx hfree hi => ?_⟩, rfl⟩
    exact List.not_mem_nil ((hprints.mem_iff x).2 ⟨b, hx, hfree, hi⟩)
  | cons q l =>
    obtain ⟨hnext, -⟩ := chain_cons.1 hl.chain
    obtain ⟨e, he, hfree⟩ := hl.free q List.mem_cons_self
    have heven : s.word q % 2 = 0 := by
      rw [(h.tiles.tags q e he).1, e.tag_mod, hfree]
      rfl
    rw [hnext, heven, if_neg (by norm_num)]
    rw [hnext] at hin hloop
    simp only [wp_bind, wp_blockSize, wp_length]
    refine ⟨hin, wp_mono hloop ?_⟩
    rintro r s' ⟨rfl, rfl⟩
    exact (wp_pure _ _ _).2 ⟨⟨List.cons_ne_nil _ _, hprints⟩, rfl⟩

/-- The lists are shown one after the other. -/
lemma showLists_spec (h : Inv format s bs) {count : ℕ} (hcount : count + i ≤ 9) :
    wp (showLists count (1 + i)) (fun r s' => (r.length = count ∧
      ∀ j (hj : j < r.length), r[j].Shows bs 1 (i + j + 1)) ∧ s' = s) s := by
  induction count generalizing i with
  | zero =>
    refine (wp_pure _ _ _).2 ⟨⟨rfl, fun j hj => ?_⟩, rfl⟩
    exact absurd hj (Nat.not_lt_zero j)
  | succ count ih =>
    have hmem : 1 + (i + 1) ∈ format.heads := by
      have hi : i ≤ 8 := by omega
      interval_cases i <;> decide
    obtain ⟨l, hl⟩ := exists_printable h hmem
    have hslot : format.slot (1 + (i + 1)) = 1 + (i + 1) := if_pos ⟨by omega, by omega⟩
    have hnext : fixAddress (s.word (1 + (i + 1))) = format.nxt s.word (1 + (i + 1)) := by
      rw [fixAddress_eq (s.word_lt _), Format.nxt, hslot]
    have hbrk := h.tiles.brk
    have hfirst : format.first = 13 := rfl
    obtain ⟨shown, s₁, hrun, hshown, rfl⟩ := showList_spec h hl
    simp only [showLists, wp_bind, wp_load, Nat.add_assoc, hnext]
    refine ⟨by omega, ?_⟩
    rw [wp_of_run hrun]
    refine wp_call (ih (by omega)) ?_
    rintro r s' ⟨⟨hlen, hr⟩, rfl⟩
    refine (wp_pure _ _ _).2 ⟨⟨by rw [List.length_cons, hlen], fun j hj => ?_⟩, rfl⟩
    cases j with
    | zero => exact hshown
    | succ j =>
      have hstep := hr j (Nat.lt_of_succ_lt_succ hj)
      rw [show i + 1 + j + 1 = i + (j + 1 + 1) by omega] at hstep
      exact hstep

/-- In every run `mm_checkheap` returns and changes nothing. For each of the nine lists it prints
the free blocks of the list's sizes, each once and in the order of the links, or that there is
none. -/
theorem seglist_checkheap {cap : ℕ} (hcap : cap ≤ 2 ^ 32) {s : State}
    (hs : Reachable allocator cap Legal s) :
    ∃ (bs : Layout) (shown : List Shown), s.seg.brk = 4 * (13 + len bs) ∧
      Tagged s.seg.word 13 bs ∧ (mmCheckheap s.heapPtr).run s.seg = some (shown, s.seg) ∧
      shown.length = 9 ∧
      ∀ j (hj : j < shown.length), shown[j].Shows bs s.heapPtr (j + 1) := by
  obtain ⟨bs, hruns⟩ := contract.runs_of_reachable hcap (fun _ _ h => h) hs
  obtain ⟨shown, seg, hrun, ⟨hlen, hshows⟩, rfl⟩ :=
    showLists_spec hruns.inv (show 9 + 0 ≤ 9 from le_rfl)
  rw [hruns.heapPtr]
  refine ⟨bs, shown, hruns.inv.tiles.brk, hruns.inv.tiles.tags, hrun, hlen, fun j hj => ?_⟩
  have hj' := hshows j hj
  rwa [Nat.zero_add] at hj'

theorem seglist_checkheap_sample :
    ∃ (bs : Layout) (shown : List Shown), sample.seg.brk = 4 * (13 + len bs) ∧
      Tagged sample.seg.word 13 bs ∧
      (mmCheckheap sample.heapPtr).run sample.seg = some (shown, sample.seg) ∧
      shown.length = 9 ∧
      ∀ j (hj : j < shown.length), shown[j].Shows bs sample.heapPtr (j + 1) :=
  seglist_checkheap (by norm_num) reachable_sample

end Seglist

end Malloclab
end SystemsLabs
