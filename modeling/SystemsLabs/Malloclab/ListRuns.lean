import SystemsLabs.Malloclab.ExplicitHeap
import SystemsLabs.Malloclab.SeglistHeap

/-!
# Runs of `mm-explicit.c` and `mm-seglist.c`

The heap invariants and the refinement of the abstract allocator follow from the contracts,
for heaps of at most `2 ^ 32` bytes from `mem_heap_lo()`. Beyond that, links that are cut
to 32 bits are no longer addresses of blocks.
-/

namespace SystemsLabs
namespace Malloclab

open Memory Layout ListBased

/-- The previous link of a block. -/
def prev (s : State) (q : ℕ) : ℕ := fixAddress (s.seg.word (q + 2))

lemma prev_eq (s : State) : prev s = prv s.seg.word :=
  funext fun _ => fixAddress_eq (s.seg.word_lt _)

namespace Explicit

/-- The next link of a block, or of the prologue. -/
def next (s : State) (q : ℕ) : ℕ := fixAddress (s.seg.word (q + 1))

lemma next_eq (s : State) : next s = format.nxt s.seg.word :=
  funext fun _ => fixAddress_eq (s.seg.word_lt _)

/-- In every run, after every call, the heap is tiled by blocks that agree at both ends, the
list that begins at `heap_ptr` is doubly linked, ends at the epilogue and holds the free
blocks, each once, and every call that a client may make returns. -/
theorem explicit_heap_invariant {cap : ℕ} (hcap : cap ≤ 2 ^ 32) {s : State}
    (hs : Reachable allocator cap Legal s) :
    (∃ bs : Layout, s.seg.brk = 4 * (5 + len bs) ∧ Tagged s.seg.word 5 bs ∧
      s.seg.word 4 = pack 0 1 ∧ ∃ l : List ℕ, Chain (next s) (prev s) s.heapPtr l 4 ∧ l.Nodup ∧
        ∀ q, q ∈ l ↔ ∃ b, At 5 bs q b ∧ b.alloc = false) ∧
    ∀ env call, Legal s call → (serve allocator env s call).isSome := by
  obtain ⟨bs, hruns⟩ := contract.runs_of_reachable hcap (fun _ _ h => h) hs
  obtain ⟨l, hnd, hl, hchain, -⟩ := hruns.inv.list (k := 1) (by simp [format])
  refine ⟨⟨bs, hruns.inv.tiles.brk, hruns.inv.tiles.tags, hruns.inv.tiles.last, l, ?_, hnd,
    fun q => ?_⟩, fun env call hcall => ?_⟩
  · rw [next_eq, prev_eq, hruns.heapPtr]
    exact hchain
  · rw [hl]
    constructor
    · rintro ⟨b, hb, hfree, -⟩
      exact ⟨b, hb, hfree⟩
    · rintro ⟨b, hb, hfree⟩
      exact ⟨b, hb, hfree, rfl⟩
  · obtain ⟨r, s', bs', hserve, -⟩ := contract.serve_spec hruns (dvd_zero 8) env hcall
    rw [hserve]
    rfl

/-- A heap with two blocks allocated and a free one before, between and after them. -/
def sample : State :=
  (after allocator (2 ^ 14) [.malloc 100, .malloc 200, .malloc 300, .malloc 400, .free (some 6),
    .free (some 86)]).get (by decide +kernel)

lemma reachable_sample : Reachable allocator (2 ^ 14) Legal sample := reachable_after _

theorem explicit_heap_invariant_sample :
    (∃ bs : Layout, sample.seg.brk = 4 * (5 + len bs) ∧ Tagged sample.seg.word 5 bs ∧
      sample.seg.word 4 = pack 0 1 ∧ ∃ l : List ℕ,
        Chain (next sample) (prev sample) sample.heapPtr l 4 ∧ l.Nodup ∧
          ∀ q, q ∈ l ↔ ∃ b, At 5 bs q b ∧ b.alloc = false) ∧
    ∀ env call, Legal sample call → (serve allocator env sample call).isSome :=
  explicit_heap_invariant (by norm_num) reachable_sample

/-- A heap of at most 4 GiB is an abstract allocator. -/
theorem explicit_refines {cap : ℕ} (hcap : cap ≤ 2 ^ 32) : RefinesAbstract allocator cap heapLo :=
  contract.refinesAbstract hcap (by norm_num [heapLo])

theorem explicit_refines_sample : 8 ∣ addr heapLo 34 ∧ 200 ≤ sample.payloadSize 34 ∧
    WSIZE * 34 + sample.payloadSize 34 ≤ sample.seg.brk :=
  (explicit_refines (by norm_num)).granted sample reachable_sample 34 200 (by decide +kernel)

end Explicit

namespace Seglist

/-- The next link of a block, or of a list's head in the prologue. -/
def next (s : State) (q : ℕ) : ℕ :=
  fixAddress (s.seg.word (if q > s.heapPtr ∧ q < s.heapPtr + 10 then q else q + 1))

lemma next_eq {s : State} (h : s.heapPtr = 1) : next s = format.nxt s.seg.word := by
  funext q
  rw [next, fixAddress_eq (s.seg.word_lt _), h]
  rfl

/-- In every run, after every call, the heap is tiled by blocks that agree at both ends, each
of the nine lists is doubly linked, ends at the epilogue and holds the free blocks of its
sizes, each once, and every call that a client may make returns. -/
theorem seglist_heap_invariant {cap : ℕ} (hcap : cap ≤ 2 ^ 32) {s : State}
    (hs : Reachable allocator cap Legal s) :
    (∃ bs : Layout, s.seg.brk = 4 * (13 + len bs) ∧ Tagged s.seg.word 13 bs ∧
      s.seg.word 12 = pack 0 1 ∧ ∀ i, 1 ≤ i → i ≤ 9 → ∃ l : List ℕ,
        Chain (next s) (prev s) (s.heapPtr + i) l 12 ∧ l.Nodup ∧
          ∀ q, q ∈ l ↔ ∃ b, At 13 bs q b ∧ b.alloc = false ∧ getSegListIndex b.size = i) ∧
    ∀ env call, Legal s call → (serve allocator env s call).isSome := by
  obtain ⟨bs, hruns⟩ := contract.runs_of_reachable hcap (fun _ _ h => h) hs
  refine ⟨⟨bs, hruns.inv.tiles.brk, hruns.inv.tiles.tags, hruns.inv.tiles.last, fun i hi hi' => ?_⟩,
    fun env call hcall => ?_⟩
  · have hmem : 1 + i ∈ format.heads := by interval_cases i <;> decide
    obtain ⟨l, hnd, hl, hchain, -⟩ := hruns.inv.list hmem
    refine ⟨l, ?_, hnd, fun q => ?_⟩
    · rw [next_eq hruns.heapPtr, prev_eq, hruns.heapPtr]
      exact hchain
    · rw [hl]
      simp only [Listed, format, Nat.add_left_cancel_iff]
      rfl
  · obtain ⟨r, s', bs', hserve, -⟩ := contract.serve_spec hruns (dvd_zero 8) env hcall
    rw [hserve]
    rfl

/-- A heap with two free blocks, on different lists. -/
def sample : State :=
  (after allocator (2 ^ 14) [.malloc 100, .malloc 200, .malloc 300, .malloc 400, .free (some 78),
    .realloc (some 142) 100]).get (by decide +kernel)

lemma reachable_sample : Reachable allocator (2 ^ 14) Legal sample := reachable_after _

theorem seglist_heap_invariant_sample :
    (∃ bs : Layout, sample.seg.brk = 4 * (13 + len bs) ∧ Tagged sample.seg.word 13 bs ∧
      sample.seg.word 12 = pack 0 1 ∧ ∀ i, 1 ≤ i → i ≤ 9 → ∃ l : List ℕ,
        Chain (next sample) (prev sample) (sample.heapPtr + i) l 12 ∧ l.Nodup ∧
          ∀ q, q ∈ l ↔ ∃ b, At 13 bs q b ∧ b.alloc = false ∧ getSegListIndex b.size = i) ∧
    ∀ env call, Legal sample call → (serve allocator env sample call).isSome :=
  seglist_heap_invariant (by norm_num) reachable_sample

/-- A heap of at most 4 GiB is an abstract allocator. -/
theorem seglist_refines {cap : ℕ} (hcap : cap ≤ 2 ^ 32) : RefinesAbstract allocator cap heapLo :=
  contract.refinesAbstract hcap (by norm_num [heapLo])

theorem seglist_refines_sample : 8 ∣ addr heapLo 142 ∧ 100 ≤ sample.payloadSize 142 ∧
    WSIZE * 142 + sample.payloadSize 142 ≤ sample.seg.brk :=
  (seglist_refines (by norm_num)).granted sample reachable_sample 142 100 (by decide +kernel)

end Seglist
end Malloclab
end SystemsLabs
