import SystemsLabs.Malloclab.ListRuns

/-!
# Searching the lists of `mm-seglist.c`

`find_fit` begins at the list for the size that is asked for and takes the first block that is
large enough. Since every free block is on the list for its size, the lists that are skipped have
only blocks that are too small, so `malloc` fails only when it has to. Behind 4 GiB a link that is
cut to 32 bits may lead past a free block (`search_incomplete_unbounded`).
-/

namespace SystemsLabs
namespace Malloclab
namespace Seglist

open Memory Layout ListBased

/-- The nine chains of the heap, each of which ends where it first comes to the epilogue. -/
def Chains (s : State) (l : ℕ → List ℕ) : Prop :=
  ∀ i, 1 ≤ i → i ≤ 9 → Chain (next s) (prev s) (s.heapPtr + i) (l i) 12 ∧ 12 ∉ l i

/-- The chains `i, ..., 9`, one after the other. -/
def searched (l : ℕ → List ℕ) (i : ℕ) : List ℕ := (List.range' i (10 - i)).flatMap l

/-- The first block that is searched and has at least `size` bytes. -/
def firstFit (s : State) (l : ℕ → List ℕ) (size : ℕ) : Option ℕ :=
  (searched l (getSegListIndex size)).find? fun q => size ≤ s.blockSize (q + 1)

/-- Some free block has at least `size` bytes. -/
def Fits (bs : Layout) (size : ℕ) : Prop :=
  ∃ x b, At 13 bs x b ∧ b.alloc = false ∧ size ≤ b.size

/-- What a request for `size` bytes comes to in a heap of the blocks `bs` with the chains `l`. -/
structure Complete (s : State) (bs : Layout) (l : ℕ → List ℕ) (size : ℕ) : Prop where
  /-- The search returns the payload of the first block that is large enough. -/
  first : (findFit s.heapPtr (getMallocSize size)).run s.seg =
    some ((firstFit s l (getMallocSize size)).map (· + 1), s.seg)
  /-- It returns `NULL` exactly when no free block of the heap is. -/
  none_iff : firstFit s l (getMallocSize size) = none ↔ ¬ Fits bs (getMallocSize size)
  /-- `malloc` returns `NULL` exactly when moreover memlib refuses, and then changes nothing. -/
  malloc : ∀ grant, ∃ r seg, (malloc s.heapPtr grant size).run s.seg = some (r, seg) ∧
    (r = none ↔ ¬ Fits bs (getMallocSize size) ∧
      ¬ Grants grant s.seg (max (getMallocSize size) CHUNKSIZE)) ∧ (r = none → seg = s.seg)
  /-- A `realloc` that fails changes nothing. -/
  realloc : ∀ env p s', (s.live p).isSome →
    serve allocator env s (.realloc (some p) size) = some (none, s') → s' = s

section Search
variable {s : Segment} {bs : Layout} {l : ℕ → List ℕ}

/-- A chain with its members, and short enough to be walked along. -/
structure Walkable (s : Segment) (bs : Layout) (i : ℕ) (l : List ℕ) : Prop where
  chain : Chain (format.nxt s.word) (prv s.word) (1 + i) l 12
  mem : ∀ q, q ∈ l ↔ Listed format 13 bs (1 + i) q
  length : l.length < s.brk

lemma exists_walkable (h : Inv format s bs) :
    ∃ l : ℕ → List ℕ, ∀ i, 1 ≤ i → i ≤ 9 → Walkable s bs i (l i) := by
  have hone : ∀ i, ∃ l, 1 ≤ i → i ≤ 9 → Walkable s bs i l := by
    intro i
    by_cases hi : 1 ≤ i ∧ i ≤ 9
    · have hmem : 1 + i ∈ format.heads := by
        obtain ⟨h1, h9⟩ := hi
        interval_cases i <;> decide
      obtain ⟨l, -, hl, hchain, hlen⟩ := h.list hmem
      exact ⟨l, fun _ _ => ⟨hchain, hl, by omega⟩⟩
    · exact ⟨[], fun h1 h9 => absurd ⟨h1, h9⟩ hi⟩
  choose l hl using hone
  exact ⟨l, hl⟩

/-- The first block of a list, or the epilogue. -/
lemma Walkable.head {i : ℕ} {l : List ℕ} (hl : Walkable s bs i l) (h : Inv format s bs)
    (hi : 1 ≤ i) (hi' : i ≤ 9) :
    fixAddress (s.word (1 + i)) = format.nxt s.word (1 + i) ∧
      4 * format.nxt s.word (1 + i) + 4 ≤ s.brk := by
  have hslot : format.slot (1 + i) = 1 + i := if_pos ⟨by omega, by omega⟩
  have hbrk := h.tiles.brk
  have hfirst : format.first = 13 := rfl
  refine ⟨by rw [fixAddress_eq (s.word_lt _), Format.nxt, hslot], ?_⟩
  rcases hl.chain.nxt_eq with hmem | hlast
  · have := ((hl.mem _).1 hmem).bounds
    omega
  · omega

/-- One list is searched to its first block that is large enough. -/
lemma findInList_find {i : ℕ} {l : List ℕ} (hl : Walkable s bs i l) (h : Inv format s bs)
    (hi : 1 ≤ i) (hi' : i ≤ 9) (size : ℕ) :
    wp (findInList (format.nxt s.word (1 + i)) size)
      (fun r s' => r = (l.find? fun q => size ≤ s.word q / 8 * 8).map (· + 1) ∧ s' = s) s := by
  have hfree : ∀ q ∈ l, ∃ e, At format.first bs q e ∧ e.alloc = false := by
    intro q hq
    obtain ⟨e, he, hfree, -⟩ := (hl.mem q).1 hq
    exact ⟨e, he, hfree⟩
  obtain ⟨-, hin⟩ := hl.head h hi hi'
  simp only [findInList, wp_bind, wp_blockSize, wp_length]
  exact ⟨hin, findLoop_find size s.brk h.tiles hfree hl.chain hl.length⟩

/-- The lists are searched one after the other. -/
lemma findFitLoop_find (h : Inv format s bs) (hl : ∀ i, 1 ≤ i → i ≤ 9 → Walkable s bs i (l i))
    (size : ℕ) {count i : ℕ} (hcount : count + i = 10) (hi : 1 ≤ i) :
    wp (findFitLoop 1 size count i) (fun r s' =>
      r = (((List.range' i count).flatMap l).find? fun q => size ≤ s.word q / 8 * 8).map (· + 1) ∧
        s' = s) s := by
  induction count generalizing i with
  | zero => exact (wp_pure _ _ _).2 ⟨rfl, rfl⟩
  | succ count ih =>
    have hi' : i ≤ 9 := by omega
    obtain ⟨hhead, -⟩ := (hl i hi hi').head h hi hi'
    obtain ⟨r, t, hrun, rfl, rfl⟩ := findInList_find (hl i hi hi') h hi hi' size
    have hbrk := h.tiles.brk
    have hfirst : format.first = 13 := rfl
    rw [List.range'_succ, List.flatMap_cons, List.find?_append]
    simp only [findFitLoop, wp_bind, wp_load, hhead]
    refine ⟨by omega, ?_⟩
    rw [wp_of_run hrun]
    cases (l i).find? fun q => size ≤ t.word q / 8 * 8 with
    | none => exact ih (by omega) (by omega)
    | some q => exact (wp_pure _ _ _).2 ⟨rfl, rfl⟩

lemma findFit_firstFit {s : State} (h : Inv format s.seg bs)
    (hl : ∀ i, 1 ≤ i → i ≤ 9 → Walkable s.seg bs i (l i)) {size : ℕ} (hlt : size < 2 ^ 32) :
    (findFit 1 size).run s.seg = some ((firstFit s l size).map (· + 1), s.seg) := by
  have hpos := getSegListIndex_pos size
  have hle := getSegListIndex_le size
  simp only [firstFit, State.blockSize, Nat.add_sub_cancel, and_not_seven (s.seg.word_lt _)]
  rw [run_eq_some_iff, findFit, Nat.mod_eq_of_lt hlt]
  exact findFitLoop_find h hl size (by omega) hpos

lemma chains_of_walkable {s : State} (h : Runs 13 (Inv format) s bs)
    (hl : ∀ i, 1 ≤ i → i ≤ 9 → Walkable s.seg bs i (l i)) : Chains s l := by
  intro i hi hi'
  rw [next_eq h.heapPtr, prev_eq, h.heapPtr]
  refine ⟨(hl i hi hi').chain, fun hmem => ?_⟩
  have := (((hl i hi hi').mem 12).1 hmem).bounds
  omega

lemma findsFit_none_iff {size : ℕ} : FindsFit 13 bs size none ↔ ¬ Fits bs size := by
  simp only [FindsFit, Fits, not_exists, not_and, not_le]

/-- A `realloc` that returns `NULL` returns to the state it was called in. -/
lemma realloc_fails {s s' : State} (h : Runs 13 (Inv format) s bs) (env : Env) {p n : ℕ}
    (hpos : 0 < n) (hn : n < 2 ^ 31) (hp : (s.live p).isSome)
    (hserve : serve allocator env s (.realloc (some p) n) = some (none, s')) : s' = s := by
  obtain ⟨x, b, rfl, hx⟩ := h.exists_live hp
  obtain ⟨seg, heapPtr, live⟩ := s
  obtain rfl : heapPtr = 1 := h.heapPtr
  obtain ⟨r, seg', hrun, hr⟩ := contract.realloc env.grant env.junk n h.inv hx hpos hn
  rw [serve, hrun] at hserve
  cases hserve
  obtain rfl : seg' = seg := hr
  simp [hpos.ne']

end Search

/-- In every heap a run can lead to, the search is complete and failure is clean. -/
theorem seglist_search_complete {cap : ℕ} (hcap : cap ≤ 2 ^ 32) {s : State}
    (hs : Reachable allocator cap Legal s) :
    ∃ (bs : Layout) (l : ℕ → List ℕ), s.seg.brk = 4 * (13 + len bs) ∧ Tagged s.seg.word 13 bs ∧
      Chains s l ∧ ∀ size, 0 < size → size < 2 ^ 31 → Complete s bs l size := by
  obtain ⟨bs, hruns⟩ := contract.runs_of_reachable hcap (fun _ _ h => h) hs
  have hinv := hruns.inv
  obtain ⟨l, hl⟩ := exists_walkable hinv
  refine ⟨bs, l, hinv.tiles.brk, hinv.tiles.tags, chains_of_walkable hruns hl, ?_⟩
  intro size hpos hsize
  have hlt := getMallocSize_lt_of_lt hsize
  have hfirst := findFit_firstFit hinv hl (show getMallocSize size < 2 ^ 32 by omega)
  refine ⟨hruns.heapPtr ▸ hfirst, ?_, ?_, fun env p s' => realloc_fails hruns env hpos hsize⟩
  · have hfit := (wp_elim (findFit_finds hinv (getMallocSize size)) hfirst).2
    rw [← findsFit_none_iff, ← Option.map_eq_none_iff]
    exact hfit.none_iff
  · intro grant
    rw [hruns.heapPtr]
    obtain ⟨r, seg, hrun, hr⟩ := malloc_mallocs grant hinv (show size ≤ 2 ^ 64 - 16 by omega)
    have hnone := none_iff_of_run (fun t => malloc_eq_none_iff grant hinv hpos) hrun
    rw [findsFit_none_iff] at hnone
    exact ⟨r, seg, hrun, hnone⟩

/-- A heap with two free blocks, on different lists. -/
theorem seglist_search_complete_sample :
    ∃ (bs : Layout) (l : ℕ → List ℕ), sample.seg.brk = 4 * (13 + len bs) ∧
      Tagged sample.seg.word 13 bs ∧ Chains sample l ∧
        ∀ size, 0 < size → size < 2 ^ 31 → Complete sample bs l size :=
  seglist_search_complete (by norm_num) reachable_sample

/-- The last block is free and lies behind the first 4 GiB, so that the link to it leads to the
block behind the first one. -/
def beyond : State :=
  (after allocator (2 ^ 33) [.malloc (2 ^ 31 - 1), .malloc (2 ^ 31 - 1), .malloc 5000,
    .free (some 1073741906)]).get (by decide +kernel)

/-- The blocks of that heap. -/
def beyondBlocks : Layout :=
  [⟨256, false, by norm_num, by norm_num⟩, ⟨2 ^ 31 + 8, true, by norm_num, by norm_num⟩,
    ⟨2 ^ 31 + 8, true, by norm_num, by norm_num⟩, ⟨5008, false, by norm_num, by norm_num⟩]

lemma tagged_beyond : Tagged beyond.seg.word 13 beyondBlocks := by
  simp only [beyondBlocks, tagged_cons, tagged_nil, and_true]
  decide +kernel

/-- On a heap of more than 4 GiB the search may miss a block that is large enough. -/
theorem search_incomplete_unbounded :
    ¬ ∀ cap s, Reachable allocator cap Legal s →
      ∃ (bs : Layout) (l : ℕ → List ℕ), s.seg.brk = 4 * (13 + len bs) ∧
        Tagged s.seg.word 13 bs ∧ Chains s l ∧
          ∀ size, 0 < size → size < 2 ^ 31 → Complete s bs l size := by
  intro h
  obtain ⟨bs, l, hbrk, htags, -, hcomplete⟩ := h (2 ^ 33) beyond (reachable_after _)
  have hlen : beyond.seg.brk = 4 * (13 + len beyondBlocks) := by decide +kernel
  obtain rfl := htags.unique tagged_beyond (by omega)
  obtain ⟨hfirst, hnone, -, -⟩ := hcomplete 5000 (by norm_num) (by norm_num)
  have hmisses : ((findFit beyond.heapPtr (getMallocSize 5000)).run beyond.seg).map Prod.fst =
      some none := by
    decide +kernel
  rw [hfirst, Option.map_some, Option.some.injEq, Option.map_eq_none_iff] at hmisses
  have hlast : At 13 beyondBlocks 1073741905 ⟨5008, false, by norm_num, by norm_num⟩ :=
    .inr (.inr (.inr (.inl ⟨by decide +kernel, rfl⟩)))
  exact hnone.1 hmisses ⟨_, _, hlast, rfl, by decide +kernel⟩

end Seglist
end Malloclab
end SystemsLabs
