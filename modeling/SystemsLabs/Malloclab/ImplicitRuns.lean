import SystemsLabs.Malloclab.ImplicitHeap

/-!
# Runs of `mm-implicit.c`

The heap invariant and the refinement of the abstract allocator follow from the contract,
for heaps of at most `2 ^ 32` bytes. Beyond that the 32-bit tags of a merged block wrap
around and live payloads may overlap.

In this allocator the blocks are determined by the length of the heap and by the blocks
that clients hold, since the layout is always coalesced (`layout_unique`). What
`mm_checkheap` prints is that layout.
-/

namespace SystemsLabs
namespace Malloclab
namespace Implicit

open Memory Layout

/-! ## `mm_checkheap` -/

/-- What `mm_checkheap` prints for a block. -/
def printed (b : Block) : ℕ × ℕ := (b.size, b.alloc.toNat)

lemma checkheapLoop_spec {s : Segment} {pre post : Layout} {fuel : ℕ}
    (h : Tiles s (pre ++ post)) (hfuel : post.length < fuel) :
    wp (checkheapLoop fuel (3 + len pre) (nextTag post / 8 * 8))
      (fun r s' => r = post.map printed ++ [(0, 1)] ∧ s' = s) s := by
  -- `pre` has been printed, and `ptr` is at the first block of `post`
  induction post generalizing pre fuel with
  | nil =>
    obtain ⟨fuel, rfl⟩ : ∃ k, fuel = k + 1 := ⟨fuel - 1, by omega⟩
    have hbrk := h.brk
    have hep := h.epilogue
    rw [List.append_nil] at hbrk hep
    simp [checkheapLoop, nextTag, hep]
    omega
  | cons c post ih =>
    rw [List.length_cons] at hfuel
    obtain ⟨fuel, rfl⟩ : ∃ k, fuel = k + 1 := ⟨fuel - 1, by omega⟩
    have hbrk := h.brk
    have hw := c.words_ge
    have hpos : 0 < c.size := by have := c.le; omega
    have hhdr := h.word_header
    have h' : Tiles s ((pre ++ [c]) ++ post) := by simpa using h
    have hnext := h'.word_next
    simp only [len_append, len_cons, len_nil, Nat.add_zero, ← Nat.add_assoc] at hbrk hnext
    have hrest : wp (checkheapLoop fuel (3 + len (pre ++ [c])) (nextTag post / 8 * 8))
        (fun r s' => r = post.map printed ++ [(0, 1)] ∧ s' = s) s := ih h' (by omega)
    simp only [len_append, len_cons, len_nil, Nat.add_zero, ← Nat.add_assoc] at hrest
    simp only [checkheapLoop, nextTag_cons, c.tag_div, gt_iff_lt, hpos, if_true, wp_bind,
      wp_blockFree, hhdr, c.tag_mod, wp_map, blockNext, bind_pure_comp, WSIZE, wp_blockSize,
      Block.size_div_four, hnext]
    refine ⟨by omega, by omega, by omega, wp_mono hrest ?_⟩
    rintro _ _ ⟨rfl, rfl⟩
    exact ⟨rfl, rfl⟩

/-- `mm_checkheap` prints the prologue, the blocks and the epilogue. -/
theorem mmCheckheap_spec {s : Segment} {bs : Layout} (h : Tiles s bs) :
    wp (mmCheckheap 1)
      (fun r s' => r = (8, 1) :: bs.map printed ++ [(0, 1)] ∧ s' = s) s := by
  have hbrk := h.brk
  have hlen := length_le_len bs
  obtain ⟨fuel, hfuel⟩ : ∃ k, s.brk = k + 1 := ⟨s.brk - 1, by omega⟩
  have hnext := (show Tiles s ([] ++ bs) from h).word_next
  have hloop : wp (checkheapLoop fuel (3 + len []) (nextTag bs / 8 * 8))
      (fun r s' => r = bs.map printed ++ [(0, 1)] ∧ s' = s) s :=
    checkheapLoop_spec h (by omega)
  simp only [len_nil, Nat.add_zero] at hnext hloop
  simp only [mmCheckheap, wp_bind, wp_blockSize, wp_length, h.header, hfuel, checkheapLoop]
  simp [blockNext, WSIZE, h.header, hnext]
  refine ⟨by omega, by omega, by omega, wp_mono hloop ?_⟩
  rintro _ _ ⟨rfl, rfl⟩
  exact ⟨rfl, rfl⟩

/-! ## The heap invariant and refinement -/

/-- In every run, after every call, the heap is tiled by blocks that agree at both ends and of
which no two neighbours are free, and every call that a client may make returns. -/
theorem heap_invariant {cap : ℕ} (hcap : cap ≤ 2 ^ 32) {s : State}
    (hs : Reachable allocator cap Legal s) :
    (∃ bs : Layout, s.seg.brk = 4 * (3 + len bs + 1) ∧ Tagged s.seg.word 3 bs ∧
      s.seg.word (3 + len bs) = pack 0 1 ∧ Coalesced bs) ∧
    ∀ env call, Legal s call → (serve allocator env s call).isSome := by
  obtain ⟨bs, hruns⟩ := contract.runs_of_reachable hcap (fun _ _ h => h) hs
  obtain ⟨htiles, hco, -⟩ := hruns.inv
  refine ⟨⟨bs, ?_, htiles.tags, htiles.epilogue, hco⟩, fun env call hcall => ?_⟩
  · rw [htiles.brk]
    omega
  · obtain ⟨r, s', bs', hserve, -⟩ := contract.serve_spec hruns (dvd_zero 8) env hcall
    rw [hserve]
    rfl

/-- A heap with two blocks allocated and a free one before, between and after them. -/
def sample : State :=
  (after allocator (2 ^ 14) [.malloc 100, .malloc 200, .malloc 300, .malloc 400, .free (some 4),
    .free (some 84)]).get (by decide +kernel)

lemma reachable_sample : Reachable allocator (2 ^ 14) Legal sample := reachable_after _

theorem heap_invariant_sample :
    (∃ bs : Layout, sample.seg.brk = 4 * (3 + len bs + 1) ∧ Tagged sample.seg.word 3 bs ∧
      sample.seg.word (3 + len bs) = pack 0 1 ∧ Coalesced bs) ∧
    ∀ env call, Legal sample call → (serve allocator env sample call).isSome :=
  heap_invariant (by norm_num) reachable_sample

/-- A heap of at most 4 GiB from an aligned address is an abstract allocator. -/
theorem refines {cap lo : ℕ} (hcap : cap ≤ 2 ^ 32) (hlo : 8 ∣ lo) :
    RefinesAbstract allocator cap lo :=
  contract.refinesAbstract hcap hlo

theorem refines_sample : 8 ∣ addr (2 ^ 20) 32 ∧ 200 ≤ sample.payloadSize 32 ∧
    WSIZE * 32 + sample.payloadSize 32 ≤ sample.seg.brk :=
  (refines (by norm_num) (by norm_num)).granted sample reachable_sample 32 200 (by decide +kernel)

/-- Calls that merge two blocks of 2 GiB into one whose size wraps around to 16, with a third
block behind them. Before that the client writes into the first two. -/
def wrapCalls (writes : List (Call ℕ)) : List (Call ℕ) :=
  [.malloc (2 ^ 31 - 1), .malloc (2 ^ 31 - 1), .malloc 24] ++ writes ++
    [.free (some 4), .free (some 536870918)]

/-- Behind the 16 bytes the client has written the header of an allocated block that ends two
words before the third block, and there the header of a free one, which `malloc` returns. -/
def overlap : State :=
  (after allocator (2 ^ 34) (wrapCalls [.write 4 12 0xF9, .write 4 13 0xFF, .write 4 14 0xFF,
    .write 4 15 0xFF, .write 536870918 (2 ^ 31 - 4) 24] ++ [.malloc 16])).get (by decide +kernel)

/-- On a heap of more than 4 GiB live payloads may overlap. -/
theorem not_refines_unbounded : ¬ ∀ cap lo, 8 ∣ lo → RefinesAbstract allocator cap lo := by
  intro h
  have hreach : Reachable allocator (2 ^ 34) Legal overlap := reachable_after _
  have hp : overlap.live 1073741832 = some 24 := by decide +kernel
  have hq : overlap.live 1073741830 = some 16 := by decide +kernel
  have hpsize : overlap.payloadSize 1073741832 = 24 := by decide +kernel
  have hqsize : overlap.payloadSize 1073741830 = 16 := by decide +kernel
  -- the second payload begins inside the first
  have hapart := (h (2 ^ 34) 0 (dvd_zero 8)).disjoint overlap hreach 1073741832 1073741830
    (overlap.payload 1073741832) (overlap.payload 1073741830) (by norm_num)
    (by simp [State.payloads, hp]) (by simp [State.payloads, hq])
  simp [Payloads.Apart, length_payload, hpsize, hqsize, addr, WSIZE] at hapart

/-! ## The layout is canonical -/

/-- What `mm_checkheap` prints: every header, from the prologue to the epilogue. -/
def layout (s : State) : Option (List (ℕ × ℕ)) :=
  ((mmCheckheap s.heapPtr).run s.seg).map Prod.fst

/-- The state after `free(p)` for each `p` of `ps` in turn. -/
def frees (env : Env) (s : State) (ps : List ℕ) : Option State :=
  serveAll allocator env s (ps.map fun p => .free (some p))

section Canonical
variable {s t : State} {bs cs : Layout}

lemma layout_eq (h : Runs 3 Inv s bs) :
    layout s = some ((8, 1) :: bs.map printed ++ [(0, 1)]) := by
  obtain ⟨r, seg, hrun, rfl, -⟩ := mmCheckheap_spec h.inv.tiles
  rw [layout, h.heapPtr, hrun]
  rfl

/-- The blocks of a heap are determined by its length and by those that are allocated. -/
lemma layout_congr (h : Runs 3 Inv s bs) (h' : Runs 3 Inv t cs) (hbrk : s.seg.brk = t.seg.brk)
    (hal : s.allocated = t.allocated) : layout s = layout t := by
  have hs := h.inv.tiles.brk
  have ht := h'.inv.tiles.brk
  have hlen : len bs = len cs := by omega
  have hlive : ∀ x b, Live 3 bs x b ↔ Live 3 cs x b := by
    intro x b
    rw [contract.live_iff_allocated h, contract.live_iff_allocated h', hal]
  rw [layout_eq h, layout_eq h', layout_unique h.inv.coalesced h'.inv.coalesced hlen hlive]

/-- Freeing live blocks one after the other takes them from the payloads and nothing else. -/
lemma frees_spec (env : Env) {ps : List ℕ} (h : Runs 3 Inv s bs) (hnd : ps.Nodup)
    (hlive : ∀ p ∈ ps, (s.live p).isSome) :
    ∃ t cs, frees env s ps = some t ∧ Runs 3 Inv t cs ∧ t.seg.brk = s.seg.brk ∧
      ∀ p, t.payloads p = if p ∈ ps then none else s.payloads p := by
  induction ps generalizing s bs with
  | nil => exact ⟨s, bs, rfl, h, rfl, by simp⟩
  | cons p ps ih =>
    have hp := hlive p (by simp)
    obtain ⟨hnot, hnd⟩ := List.nodup_cons.1 hnd
    obtain ⟨s₁, bs₁, hserve, h₁, hpay₁, hbrk₁⟩ := contract.serve_free h env hp
    have hlive₁ : ∀ q ∈ ps, (s₁.live q).isSome := by
      intro q hq
      have hne : q ≠ p := fun h => hnot (h ▸ hq)
      rw [← State.isSome_payloads, hpay₁, Function.update_of_ne hne, State.isSome_payloads]
      exact hlive q (by simp [hq])
    obtain ⟨t, cs, hall, ht, hbrk, hpay⟩ := ih h₁ hnd hlive₁
    refine ⟨t, cs, ?_, ht, hbrk.trans hbrk₁, fun q => ?_⟩
    · rw [frees, List.map_cons, serveAll, if_pos (by simpa [Legal] using hp), hserve]
      exact hall
    · rw [hpay q, hpay₁]
      by_cases hq : q = p
      · simp [hq]
      · simp [hq]

/-- A heap with nothing allocated is one free block. -/
lemma layout_of_none (h : Runs 3 Inv s bs) (hnone : ∀ p, s.payloads p = none) :
    layout s = some [(8, 1), (s.seg.brk - 16, 0), (0, 1)] := by
  have hfree : ∀ x b, At 3 bs x b → b.alloc = false := by
    intro x b hx
    by_contra hb
    rw [Bool.not_eq_false] at hb
    have hal := ((contract.live_iff_allocated h).1 ⟨hx, hb⟩).2
    rw [contract.allocated_eq h, hnone] at hal
    cases hal
  have hpos := h.inv.pos
  have hbrk := h.inv.tiles.brk
  -- two free blocks would be neighbours
  match bs, h with
  | [], _ => simp at hpos
  | [b], h =>
    have hb := hfree 3 b (by simp)
    have h4 := b.four_words
    simp only [len_cons, len_nil] at hbrk
    have hsize : s.seg.brk - 16 = b.size := by omega
    rw [layout_eq h, hsize]
    simp [printed, hb]
  | b :: c :: bs, h =>
    have hco := (List.isChain_cons_cons.1 h.inv.coalesced).1
    rw [hfree 3 b (by simp), hfree (3 + b.words) c (by simp)] at hco
    simp at hco

/-- Freeing the block that `malloc` returned restores the layout, if the heap has not
grown. -/
lemma layout_malloc_free (h : Runs 3 Inv s bs) {env env' : Env} {n p : ℕ} {s₁ : State}
    (hn : n < 2 ^ 31) (hserve : serve allocator env s (.malloc n) = some (some p, s₁))
    (hbrk : s₁.seg.brk = s.seg.brk) :
    ∃ s₂, serve allocator env' s₁ (.free (some p)) = some (none, s₂) ∧ layout s₂ = layout s := by
  obtain ⟨r, s₁', bs₁, hserve', h₁, hstep⟩ :=
    contract.serve_spec h (dvd_zero 8) env (show Legal s (.malloc n) from hn)
  rw [hserve] at hserve'
  cases hserve'
  obtain ⟨c, hgrants, hpay₁⟩ : ∃ c, Payloads.Grants (addr 0) s.payloads p n c ∧
      s₁.payloads = Function.update s.payloads p (some c) := by
    generalize hm : s₁.payloads = m at hstep
    cases hstep with
    | malloc hgrants => exact ⟨_, hgrants, rfl⟩
  have hlive : (s₁.live p).isSome := by
    rw [← State.isSome_payloads, hpay₁, Function.update_self]
    rfl
  obtain ⟨s₂, bs₂, hfree, h₂, hpay₂, hbrk₂⟩ := contract.serve_free h₁ env' hlive
  -- the pointer was fresh, so freeing it leaves the payloads of before
  have hpay : s₂.payloads = s.payloads := by
    rw [hpay₂, hpay₁, Function.update_idem, ← hgrants.fresh, Function.update_eq_self]
  refine ⟨s₂, hfree, layout_congr h₂ h (hbrk₂.trans hbrk) (funext fun q => ?_)⟩
  rw [contract.allocated_eq h₂, contract.allocated_eq h, hpay]

end Canonical

/-- The layout is canonical: the length of the heap and the blocks that clients hold determine
it. So it does not depend on the order of frees, it is one free block once all is freed, and
`malloc` followed by `free` restores it if the heap has not grown. -/
theorem layout_canonical {cap : ℕ} (hcap : cap ≤ 2 ^ 32) {s : State}
    (hs : Reachable allocator cap Legal s) :
    (∀ cap' t, cap' ≤ 2 ^ 32 → Reachable allocator cap' Legal t → s.seg.brk = t.seg.brk →
      s.allocated = t.allocated → (layout s).isSome ∧ layout s = layout t) ∧
    (∀ env ps qs, ps.Nodup → (∀ p ∈ ps, (s.live p).isSome) → ps.Perm qs →
      ∃ t u, frees env s ps = some t ∧ frees env s qs = some u ∧ layout t = layout u) ∧
    (∀ env ps, ps.Nodup → (∀ p, p ∈ ps ↔ (s.live p).isSome) →
      ∃ t, frees env s ps = some t ∧ layout t = some [(8, 1), (s.seg.brk - 16, 0), (0, 1)]) ∧
    (∀ env env' n p s₁, n < 2 ^ 31 → serve allocator env s (.malloc n) = some (some p, s₁) →
      s₁.seg.brk = s.seg.brk → ∃ s₂, serve allocator env' s₁ (.free (some p)) = some (none, s₂) ∧
        layout s₂ = layout s) := by
  obtain ⟨bs, h⟩ := contract.runs_of_reachable hcap (fun _ _ h => h) hs
  refine ⟨fun cap' t hcap' ht hbrk hal => ?_, fun env ps qs hnd hlive hperm => ?_,
    fun env ps hnd hlive => ?_, fun env env' n p s₁ hn hserve hbrk => ?_⟩
  · obtain ⟨cs, h'⟩ := contract.runs_of_reachable hcap' (fun _ _ h => h) ht
    exact ⟨by rw [layout_eq h]; rfl, layout_congr h h' hbrk hal⟩
  · obtain ⟨t, cs, ht, hruns, hbrk, hpay⟩ := frees_spec env h hnd hlive
    obtain ⟨u, ds, hu, hruns', hbrk', hpay'⟩ := frees_spec env h (hperm.nodup_iff.1 hnd)
      fun p hp => hlive p (hperm.mem_iff.2 hp)
    refine ⟨t, u, ht, hu, layout_congr hruns hruns' (hbrk.trans hbrk'.symm) (funext fun p => ?_)⟩
    rw [contract.allocated_eq hruns, contract.allocated_eq hruns', hpay, hpay']
    simp only [hperm.mem_iff]
  · obtain ⟨t, cs, ht, hruns, hbrk, hpay⟩ := frees_spec env h hnd fun p hp => (hlive p).1 hp
    refine ⟨t, ht, ?_⟩
    rw [← hbrk]
    apply layout_of_none hruns
    intro p
    rw [hpay]
    split
    · rfl
    · next hp => simpa [hlive, ← State.isSome_payloads] using hp
  · exact layout_malloc_free h hn hserve hbrk

/-- Freed in either order, the two blocks of `sample` leave the same layout. -/
theorem layout_canonical_sample :
    ∃ t u, frees ⟨true, fun _ => 0⟩ sample [32, 162] = some t ∧
      frees ⟨true, fun _ => 0⟩ sample [162, 32] = some u ∧ layout t = layout u :=
  (layout_canonical (by norm_num) reachable_sample).2.1 _ [32, 162] [162, 32] (by decide)
    (by decide +kernel) (by decide)

/-- Behind the 16 bytes the client has written a free block of 24. -/
def wrapped : State :=
  (after allocator (2 ^ 34) (wrapCalls [.write 4 8 16, .write 4 12 24, .write 4 36 1])).get
    (by decide +kernel)

/-- What `malloc(16)` answers there, and the state after it. -/
def wrappedMalloc : Option ℕ × State :=
  (serve allocator ⟨true, fun _ => 0⟩ wrapped (.malloc 16)).get (by decide +kernel)

/-- On a heap of more than 4 GiB, `malloc` followed by `free` need not restore the layout. -/
theorem layout_not_canonical_unbounded :
    ¬ ∀ cap s, Reachable allocator cap Legal s → ∀ env env' n p s₁, n < 2 ^ 31 →
      serve allocator env s (.malloc n) = some (some p, s₁) → s₁.seg.brk = s.seg.brk →
        ∃ s₂, serve allocator env' s₁ (.free (some p)) = some (none, s₂) ∧
          layout s₂ = layout s := by
  intro h
  have hreach : Reachable allocator (2 ^ 34) Legal wrapped := reachable_after _
  have hptr : wrappedMalloc.1 = some 8 := by decide +kernel
  have hbrk : wrappedMalloc.2.seg.brk = wrapped.seg.brk := by decide +kernel
  have hserve : serve allocator ⟨true, fun _ => 0⟩ wrapped (.malloc 16)
      = some (some 8, wrappedMalloc.2) := by
    have hget : serve allocator ⟨true, fun _ => 0⟩ wrapped (.malloc 16) = some wrappedMalloc := by
      rw [wrappedMalloc, Option.some_get]
    rw [hget, ← hptr]
  obtain ⟨s₂, hs₂, hlayout⟩ := h (2 ^ 34) wrapped hreach _ ⟨true, fun _ => 0⟩ 16 8 _
    (by norm_num) hserve hbrk
  -- `free` merges the two blocks, which coalescing had left apart
  have hbefore : layout wrapped = some [(8, 1), (16, 0), (24, 0), (0, 1)] := by decide +kernel
  have hafter : ((serve allocator ⟨true, fun _ => 0⟩ wrappedMalloc.2 (.free (some 8))).bind
      fun r => layout r.2) = some [(8, 1), (40, 0), (0, 1)] := by
    decide +kernel
  rw [hs₂, Option.bind_some, hlayout, hbefore] at hafter
  simp at hafter

end Implicit
end Malloclab
end SystemsLabs
