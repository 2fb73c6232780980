import SystemsLabs.Malloclab.ImplicitRuns
import SystemsLabs.Malloclab.SeglistSearch

/-!
# What `realloc` copies

Both forms of `realloc` end with a `memcpy`, whose length is not the length of the old payload.
To say what it reads, the functions are defined here once more with `memcpy` as a parameter, and
are run with one that goes wrong where the bounds are not kept: for `mm-implicit.c` and
`mm-explicit.c` the source has to lie inside the old payload, and for `mm-seglist.c` source and
destination have to lie inside the heap without overlapping.
-/

namespace SystemsLabs
namespace Malloclab

open Memory Layout

/-! ## `mm-implicit.c` and `mm-explicit.c` -/

/-- `realloc(oldptr, size)` of `mm-implicit.c` and `mm-explicit.c`, over `memcpy` too. -/
def reallocCopyWith (memcpy : ℕ → ℕ → ℕ → HeapM Unit) (malloc : ℕ → HeapM (Option ℕ))
    (free : Option ℕ → HeapM Unit) (oldptr : Option ℕ) (size : ℕ) : HeapM (Option ℕ) := do
  if size = 0 then
    free oldptr
    return none
  else
    match oldptr with
    | none => malloc size
    | some oldptr =>
      match ← malloc size with
      | none => return none
      | some newptr =>
        let oldsize ← blockSize (getHeader oldptr)
        let oldsize := if size < oldsize then size else oldsize
        memcpy newptr oldptr oldsize
        free (some oldptr)
        return some newptr

lemma reallocCopyWith_memcpy (malloc : ℕ → HeapM (Option ℕ)) (free : Option ℕ → HeapM Unit)
    (junk : ℕ → UInt8) : reallocCopyWith (memcpy junk) malloc free = reallocCopy malloc free junk :=
  rfl

/-- A `memcpy` that may read only the bytes `lo, ..., hi - 1`. -/
def memcpyWithin (lo hi : ℕ) (junk : ℕ → UInt8) (dst src n : ℕ) : HeapM Unit :=
  if lo ≤ WSIZE * src ∧ WSIZE * src + n ≤ hi then memcpy junk dst src n else stuck

lemma wp_memcpyWithin {lo hi dst src n : ℕ} {junk : ℕ → UInt8} {Q : Unit → Segment → Prop}
    {s : Segment} : wp (memcpyWithin lo hi junk dst src n) Q s ↔
      (lo ≤ WSIZE * src ∧ WSIZE * src + n ≤ hi) ∧ wp (memcpy junk dst src n) Q s := by
  rw [memcpyWithin, wp_ite]
  split
  · next h => exact (and_iff_right h).symm
  · next h => exact iff_of_false (wp_stuck _ _) fun h' => h h'.1

lemma isSome_run {α : Type} {x : HeapM α} {s : Segment} :
    (x.run s).isSome ↔ wp x (fun _ _ => True) s := by
  constructor
  · intro h
    obtain ⟨⟨a, s'⟩, hrun⟩ := Option.isSome_iff_exists.1 h
    exact ⟨a, s', hrun, trivial⟩
  · rintro ⟨a, s', hrun, -⟩
    rw [hrun]
    rfl

/-- The source that `realloc(p, n)` passes to `memcpy` is inside the payload of `p`, which is
inside the heap. -/
def CopiesPayload (A : Allocator) (env : Env) (s : State) (p n : ℕ) : Prop :=
  ((reallocCopyWith (memcpyWithin (WSIZE * p) (WSIZE * p + s.payloadSize p) env.junk)
    (A.malloc s.heapPtr env.grant) (A.free s.heapPtr) (some p) n).run s.seg).isSome ∧
  WSIZE * p + s.payloadSize p ≤ s.seg.brk

/-- `malloc(n)` succeeds. -/
def Succeeds (A : Allocator) (env : Env) (s : State) (n : ℕ) : Prop :=
  ∃ q seg, (A.malloc s.heapPtr env.grant n).run s.seg = some (some q, seg)

lemma succeeds_of_isSome (A : Allocator) (env : Env) (s : State) (n : ℕ)
    (h : (((A.malloc s.heapPtr env.grant n).run s.seg).bind Prod.fst).isSome) :
    Succeeds A env s n := by
  obtain ⟨q, hq⟩ := Option.isSome_iff_exists.1 h
  obtain ⟨⟨r, seg⟩, hrun, rfl⟩ := Option.bind_eq_some_iff.1 hq
  exact ⟨q, seg, hrun⟩

/-- Where a move copies what fits of the old block, with its tags, it copies the payload only
for a request that the payload would have served. -/
lemma copiesPayload_iff {A : Allocator} {a : ℕ} {Inv : Segment → Layout → Prop}
    (hA : Contract A a Inv)
    (hrealloc : A.realloc = fun hp grant junk => reallocCopy (A.malloc hp grant) (A.free hp) junk)
    {s : State} {bs : Layout} (h : Runs a Inv s bs) {env : Env} {p n : ℕ}
    (hp : (s.live p).isSome) (hpos : 0 < n) (hn : n < 2 ^ 31) (hmalloc : Succeeds A env s n) :
    CopiesPayload A env s p n ↔ n + 8 ≤ s.blockSize p := by
  obtain ⟨x, b, rfl, hx⟩ := h.exists_live hp
  have hsize := blockSize_of_tag (hA.tagged h.inv x b hx.1).1
  have hpayload := payloadSize_of_tag (hA.tagged h.inv x b hx.1).1
  have hbounds := hx.1.bounds
  have hinside := hA.inside h.inv
  have h4 := b.four_words
  have hle := b.le
  rw [CopiesPayload, isSome_run, hsize, hpayload]
  obtain ⟨q, seg, hmalloc⟩ := hmalloc
  rw [h.heapPtr] at hmalloc ⊢
  -- the block is where it was when its size is read
  obtain ⟨bs₁, z, c, rfl, hinv₁, -, -, hlive₁, -⟩ := wp_elim (hA.malloc env.grant n h.inv hn) hmalloc
  have htag₁ := (hA.tagged hinv₁ x b ((hlive₁ x b).2 (.inl hx)).1).1
  -- without the bounds `realloc` returns
  have hreturns : wp (reallocCopy (A.malloc 1 env.grant) (A.free 1) env.junk (some (x + 1)) n)
      (fun _ _ => True) s.seg := by
    have hspec := hA.realloc env.grant env.junk n h.inv hx hpos hn
    rw [hrealloc] at hspec
    exact wp_mono hspec fun _ _ _ => trivial
  rw [reallocCopy, if_neg hpos.ne', wp_bind, wp_of_run hmalloc] at hreturns
  rw [reallocCopyWith, if_neg hpos.ne', wp_bind, wp_of_run hmalloc]
  simp only [wp_bind, getHeader, Nat.add_sub_cancel, wp_blockSize, htag₁, b.tag_div,
    wp_memcpyWithin] at hreturns ⊢
  unfold WSIZE
  constructor
  · rintro ⟨⟨-, hwithin, -⟩, -⟩
    split at hwithin <;> omega
  · intro hfits
    rw [if_pos (by omega)] at hreturns ⊢
    exact ⟨⟨hreturns.1, ⟨le_rfl, by omega⟩, hreturns.2⟩, by omega⟩

/-- `realloc` of `mm-explicit.c` and `mm-implicit.c` copies from inside the old payload exactly
for the requests that the old block would have served. -/
theorem copies_payload_iff {cap : ℕ} (hcap : cap ≤ 2 ^ 32) :
    (∀ s, Reachable Explicit.allocator cap Legal s → ∀ env p n, (s.live p).isSome →
      0 < n → n < 2 ^ 31 → Succeeds Explicit.allocator env s n →
      (CopiesPayload Explicit.allocator env s p n ↔ n + 8 ≤ s.blockSize p)) ∧
    (∀ s, Reachable Implicit.allocator cap Legal s → ∀ env p n, (s.live p).isSome →
      0 < n → n < 2 ^ 31 → Succeeds Implicit.allocator env s n →
      (CopiesPayload Implicit.allocator env s p n ↔ n + 8 ≤ s.blockSize p)) := by
  constructor
  · intro s hs env p n hp hpos hn hmalloc
    obtain ⟨bs, hruns⟩ := Explicit.contract.runs_of_reachable hcap (fun _ _ h => h) hs
    exact copiesPayload_iff Explicit.contract rfl hruns hp hpos hn hmalloc
  · intro s hs env p n hp hpos hn hmalloc
    obtain ⟨bs, hruns⟩ := Implicit.contract.runs_of_reachable hcap (fun _ _ h => h) hs
    exact copiesPayload_iff Implicit.contract rfl hruns hp hpos hn hmalloc

/-- A block of 200 bytes that becomes smaller. -/
theorem copies_payload_iff_sample :
    (CopiesPayload Explicit.allocator ⟨true, fun _ => 0⟩ Explicit.sample 34 100 ↔
      100 + 8 ≤ Explicit.sample.blockSize 34) ∧
    (CopiesPayload Implicit.allocator ⟨true, fun _ => 0⟩ Implicit.sample 32 100 ↔
      100 + 8 ≤ Implicit.sample.blockSize 32) := by
  have h := copies_payload_iff (show 2 ^ 14 ≤ 2 ^ 32 by norm_num)
  exact ⟨h.1 _ Explicit.reachable_sample ⟨true, fun _ => 0⟩ 34 100 (by decide +kernel)
      (by norm_num) (by norm_num) (succeeds_of_isSome _ _ _ _ (by decide +kernel)),
    h.2 _ Implicit.reachable_sample ⟨true, fun _ => 0⟩ 32 100 (by decide +kernel)
      (by norm_num) (by norm_num) (succeeds_of_isSome _ _ _ _ (by decide +kernel))⟩

/-- When it becomes larger, the footer is copied with it, and what comes behind. -/
theorem not_copies_payload :
    (Reachable Explicit.allocator (2 ^ 14) Legal Explicit.sample ∧
      (Explicit.sample.live 34).isSome ∧
      Succeeds Explicit.allocator ⟨true, fun _ => 0⟩ Explicit.sample 300 ∧
      ¬ CopiesPayload Explicit.allocator ⟨true, fun _ => 0⟩ Explicit.sample 34 300) ∧
    (Reachable Implicit.allocator (2 ^ 14) Legal Implicit.sample ∧
      (Implicit.sample.live 32).isSome ∧
      Succeeds Implicit.allocator ⟨true, fun _ => 0⟩ Implicit.sample 300 ∧
      ¬ CopiesPayload Implicit.allocator ⟨true, fun _ => 0⟩ Implicit.sample 32 300) := by
  refine ⟨⟨Explicit.reachable_sample, by decide +kernel, succeeds_of_isSome _ _ _ _ (by decide +kernel),
    fun h => ?_⟩, ⟨Implicit.reachable_sample, by decide +kernel,
    succeeds_of_isSome _ _ _ _ (by decide +kernel), fun h => ?_⟩⟩
  · exact absurd h.1 (by decide +kernel)
  · exact absurd h.1 (by decide +kernel)

/-! ## `mm-seglist.c` -/

namespace Seglist

open ListBased

/-- `realloc(oldptr, size)`, over `memcpy` too. -/
def reallocWith (memcpy : ℕ → ℕ → ℕ → HeapM Unit) (heapPtr : ℕ) (grant : Bool)
    (oldptr : Option ℕ) (size : ℕ) : HeapM (Option ℕ) := do
  if size = 0 then
    free heapPtr oldptr
    return none
  else
    match oldptr with
    | none => malloc heapPtr grant size
    | some oldptr =>
      let oldsize ← blockSize (oldptr - 1)
      let newsize := getMallocSize size
      if newsize = oldsize then
        return some oldptr
      else if shrinks oldsize newsize then
        let oldheader := oldptr - 1
        put oldheader (pack newsize 1)
        put (← getFooterEl oldheader) (pack newsize 1)
        let newheader := (← getFooterEl oldheader) + 1
        put newheader (pack (szSub oldsize newsize) 0)
        put (← getFooterEl newheader) (pack (szSub oldsize newsize) 0)
        let _ ← coalesce heapPtr newheader
        return some oldptr
      else
        let oldsize := size
        match ← malloc heapPtr grant size with
        | none => return none
        | some newptr =>
          memcpy newptr oldptr oldsize
          free heapPtr (some oldptr)
          return some newptr

lemma reallocWith_memcpy (heapPtr : ℕ) (grant : Bool) (junk : ℕ → UInt8) :
    reallocWith (memcpy junk) heapPtr grant = realloc heapPtr grant junk := rfl

/-- Two ranges of `n` bytes in a heap of `brk` bytes, which do not overlap. -/
def Apart (brk dst src n : ℕ) : Prop :=
  WSIZE * dst + n ≤ brk ∧ WSIZE * src + n ≤ brk ∧
    (WSIZE * dst + n ≤ WSIZE * src ∨ WSIZE * src + n ≤ WSIZE * dst)

instance (brk dst src n : ℕ) : Decidable (Apart brk dst src n) :=
  inferInstanceAs (Decidable (_ ∧ _ ∧ (_ ∨ _)))

/-- The new block, at `z`, has room for the bytes. Whether the copy from `x` stays apart from it is
a matter of the distance, and if it lies below, of the end of the heap. -/
lemma apart_iff {brk brk₁ x z v w n : ℕ} (hdisj : x + v ≤ z ∨ z + w ≤ x) (hv : 0 < v)
    (hx : 4 * (x + v) ≤ brk) (hroom : n + 8 ≤ 4 * w) (hz : 4 * (z + w) ≤ brk₁)
    (hgrown : brk₁ = brk ∨ brk ≤ 4 * z) :
    Apart brk₁ (z + 1) (x + 1) n ↔
      if x + 1 ≤ z then WSIZE * (x + 1) + n ≤ WSIZE * (z + 1) else WSIZE * (x + 1) + n ≤ brk := by
  unfold Apart WSIZE
  split <;> omega

/-- A `memcpy` between two such ranges only. -/
def memcpyApart (junk : ℕ → UInt8) (dst src n : ℕ) : HeapM Unit := do
  if Apart (← length) dst src n then memcpy junk dst src n else stuck

lemma wp_memcpyApart {dst src n : ℕ} {junk : ℕ → UInt8} {Q : Unit → Segment → Prop}
    {s : Segment} : wp (memcpyApart junk dst src n) Q s ↔
      Apart s.brk dst src n ∧ wp (memcpy junk dst src n) Q s := by
  rw [memcpyApart, wp_bind, wp_length, wp_ite]
  split
  · next h => exact (and_iff_right h).symm
  · next h => exact iff_of_false (wp_stuck _ _) fun h' => h h'.1

/-- All that `realloc(p, n)` reads and writes is in the heap, and it copies between ranges that
do not overlap. -/
def StaysInHeap (env : Env) (s : State) (p n : ℕ) : Prop :=
  ((reallocWith (memcpyApart env.junk) s.heapPtr env.grant (some p) n).run s.seg).isSome

/-- The block to which a payload for `size` bytes is moved: the first one that fits, or else the
end of the heap. -/
def destination (s : State) (l : ℕ → List ℕ) (grant : Bool) (size : ℕ) : Option ℕ :=
  (firstFit s l size).or
    (if Grants grant s.seg (max size CHUNKSIZE) then some (s.seg.brk / WSIZE) else none)

section Stays
variable {s : Segment} {bs : Layout} {d : Block} {n x : ℕ}

/-- In the cases in which nothing is copied, `memcpy` does not matter. -/
lemma reallocWith_of_not_moves {m₁ m₂ : ℕ → ℕ → ℕ → HeapM Unit} {Q : Option ℕ → Segment → Prop}
    (grant : Bool) (htag : s.word x = d.tag)
    (hmoves : getMallocSize n = d.size ∨ shrinks d.size (getMallocSize n)) :
    wp (reallocWith m₁ 1 grant (some (x + 1)) n) Q s ↔
      wp (reallocWith m₂ 1 grant (some (x + 1)) n) Q s := by
  simp only [reallocWith, Nat.add_sub_cancel, wp_ite, wp_bind, wp_blockSize, htag, d.tag_div]
  rcases hmoves with hsame | hshrinks
  · simp only [hsame, if_true]
  · simp only [hshrinks, if_true]

/-- Otherwise it is called when `malloc` has returned. -/
lemma reallocWith_of_moves {m : ℕ → ℕ → ℕ → HeapM Unit} {Q : Option ℕ → Segment → Prop}
    {r : Option ℕ} {s₁ : Segment} (grant : Bool) (hpos : 0 < n) (htag : s.word x = d.tag)
    (hsame : getMallocSize n ≠ d.size) (hshrinks : ¬ shrinks d.size (getMallocSize n))
    (hrun : (malloc 1 grant n).run s = some (r, s₁)) :
    wp (reallocWith m 1 grant (some (x + 1)) n) Q s ↔ 4 * x + 4 ≤ s.brk ∧
      (r = none → Q none s₁) ∧ ∀ q, r = some q →
        wp (m q (x + 1) n) (fun _ => wp (do free 1 (some (x + 1)); return some q) Q) s₁ := by
  simp only [reallocWith, hpos.ne', if_false, Nat.add_sub_cancel, wp_bind, wp_blockSize, htag,
    d.tag_div, hsame, hshrinks, wp_of_run hrun]
  cases r with
  | none => simp
  | some q =>
    rw [wp_bind]
    simp

/-- Where the new block of a move lies, and how long the heap is then. -/
lemma Answers.destination {s : State} {l : ℕ → List ℕ} {grant : Bool} {r : Option ℕ}
    {s₁ : Segment} (hans : Answers format code CHUNKSIZE grant s.seg bs n r s₁)
    (hinv : Inv format s.seg bs)
    (hfind : (findFit 1 (getMallocSize n)).run s.seg =
      some ((firstFit s l (getMallocSize n)).map (· + 1), s.seg)) :
    r = (destination s l grant (getMallocSize n)).map (· + 1) ∧
      ∀ z, r = some (z + 1) → s₁.brk = s.seg.brk ∨ 13 + len bs ≤ z := by
  have hbrk := hinv.tiles.brk
  have hfirst : format.first = 13 := rfl
  have hval : ∀ {v}, (code.findFit (getMallocSize n)).run s.seg = some (v, s.seg) →
      v = (firstFit s l (getMallocSize n)).map (· + 1) := by
    intro v hv
    have := hv.symm.trans hfind
    cases this
    rfl
  cases hans with
  | refused hrun hgrant =>
    have hno := Option.map_eq_none_iff.1 (hval hrun).symm
    simp [Seglist.destination, hno, hgrant]
  | fit hrun h =>
    rename_i y bs' b
    obtain ⟨z, hz, hzy⟩ := Option.map_eq_some_iff.1 (hval hrun).symm
    obtain rfl : z = y := by omega
    refine ⟨by simp [Seglist.destination, hz], fun _ _ => .inl ?_⟩
    rw [h.inv.tiles.brk, h.allocates.len_eq, hbrk]
  | grown hrun hgrant hkeep he hesize h =>
    have hno := Option.map_eq_none_iff.1 (hval hrun).symm
    have hend : s.seg.brk / WSIZE = 13 + len bs := by
      unfold WSIZE
      omega
    refine ⟨by simp [Seglist.destination, hno, hgrant, hend, hfirst], fun z hz => .inr ?_⟩
    cases hz
    exact le_rfl

end Stays

/-- `realloc` stays in the heap exactly when it does not move the block, or moves it so far up
that the copy does not reach the new block, or down while the heap does not end too soon. -/
theorem stays_in_heap_iff {cap : ℕ} (hcap : cap ≤ 2 ^ 32) {s : State}
    (hs : Reachable allocator cap Legal s) :
    ∃ l, Chains s l ∧ ∀ env p n, (s.live p).isSome → 0 < n → n < 2 ^ 31 →
      (StaysInHeap env s p n ↔
        getMallocSize n = s.blockSize p ∨ shrinks (s.blockSize p) (getMallocSize n) ∨
          ∀ z ∈ destination s l env.grant (getMallocSize n),
            if p ≤ z then WSIZE * p + n ≤ WSIZE * (z + 1) else WSIZE * p + n ≤ s.seg.brk) := by
  obtain ⟨bs, hruns⟩ := contract.runs_of_reachable hcap (fun _ _ h => h) hs
  have hinv := hruns.inv
  obtain ⟨l, hl⟩ := exists_walkable hinv
  refine ⟨l, chains_of_walkable hruns hl, ?_⟩
  intro env p n hp hpos hn
  obtain ⟨x, d, rfl, hx⟩ := hruns.exists_live hp
  have htag := (hinv.tiles.tags x d hx.1).1
  have hsize := blockSize_of_tag htag
  rw [StaysInHeap, isSome_run, hruns.heapPtr, hsize, ← or_assoc]
  -- with the `memcpy` of the source `realloc` returns
  have hreturns : wp (reallocWith (memcpy env.junk) 1 env.grant (some (x + 1)) n)
      (fun _ _ => True) s.seg :=
    wp_mono (contract.realloc env.grant env.junk n hinv hx hpos hn) fun _ _ _ => trivial
  by_cases hmoves : getMallocSize n = d.size ∨ shrinks d.size (getMallocSize n)
  · refine iff_of_true ?_ (.inl hmoves)
    exact (reallocWith_of_not_moves env.grant htag hmoves).2 hreturns
  rw [or_iff_right hmoves]
  obtain ⟨hsame, hshrinks⟩ := not_or.1 hmoves
  obtain ⟨r, s₁, hrun, hans⟩ := malloc_answers env.grant hinv hpos (show n ≤ 2 ^ 64 - 16 by omega)
  have hlt := getMallocSize_lt_of_lt hn
  have hdest := Answers.destination hans hinv (findFit_firstFit hinv hl (by omega))
  have hmallocs := hans.mallocs (by omega)
  rw [reallocWith_of_moves env.grant hpos htag hsame hshrinks hrun] at hreturns ⊢
  obtain ⟨hr, hgrown⟩ := hdest
  cases r with
  | none =>
    have hnone := Option.map_eq_none_iff.1 hr.symm
    exact iff_of_true (by simpa using hreturns.1) (by simp [hnone])
  | some q =>
    obtain ⟨z, hz, hzq⟩ := Option.map_eq_some_iff.1 hr.symm
    subst hzq
    obtain ⟨bs₁, z', c, hzz, hinv₁, hroom, hfresh, hlive₁, -⟩ := hmallocs
    obtain rfl : z = z' := by omega
    have hcopy := hreturns.2.2 (z + 1) rfl
    simp only [reduceCtorEq, false_implies, Option.some_inj, forall_eq', true_and,
      wp_memcpyApart, and_iff_right hreturns.1, and_iff_left hcopy, hz, Option.mem_some_iff]
    have hz₁ := (hlive₁ z c).2 (.inr ⟨rfl, rfl⟩)
    have hbz := hz₁.1.bounds
    have hbx := hx.1.bounds
    have hbrk := hinv.tiles.brk
    have hbrk₁ := hinv₁.tiles.brk
    have hfirst : format.first = 13 := rfl
    have hc4 := c.four_words
    have hdw := d.words_ge
    have hdisj : x + d.words ≤ z ∨ z + c.words ≤ x :=
      (((hlive₁ x d).2 (.inl hx)).1.disjoint hz₁.1).resolve_left fun h => hfresh d (h.1 ▸ hx)
    have hgrown := hgrown z rfl
    exact apart_iff hdisj (by omega) (by omega) (by omega) (by omega) (by omega)

theorem stays_in_heap_iff_sample :
    ∃ l, Chains sample l ∧ ∀ env p n, (sample.live p).isSome → 0 < n → n < 2 ^ 31 →
      (StaysInHeap env sample p n ↔
        getMallocSize n = sample.blockSize p ∨ shrinks (sample.blockSize p) (getMallocSize n) ∨
          ∀ z ∈ destination sample l env.grant (getMallocSize n),
            if p ≤ z then WSIZE * p + n ≤ WSIZE * (z + 1)
            else WSIZE * p + n ≤ sample.seg.brk) :=
  stays_in_heap_iff (by norm_num) reachable_sample

/-- A block of 100 bytes is moved to the one behind it, for 200 bytes. -/
theorem not_stays_in_heap :
    Reachable allocator (2 ^ 14) Legal sample ∧ (sample.live 14).isSome ∧
      ¬ StaysInHeap ⟨true, fun _ => 0⟩ sample 14 200 := by
  refine ⟨reachable_sample, by decide +kernel, ?_⟩
  unfold StaysInHeap
  decide +kernel

end Seglist

end Malloclab
end SystemsLabs
