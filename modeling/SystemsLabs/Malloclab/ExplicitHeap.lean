import SystemsLabs.Malloclab.Explicit
import SystemsLabs.Malloclab.ListCalls

/-!
# The contract of `mm-explicit.c`

The heap begins with a word of padding, the prologue block, which is the head of the one
list, and the epilogue at word 4.
-/

namespace SystemsLabs
namespace Malloclab
namespace Explicit

open Memory Layout ListBased

/-- The one list, of the prologue block. -/
def format : Format where
  heads := [1]
  slot q := q + 1
  last := 4
  head _ := 1
  prologue := 17
  head_mem := by simp
  head_lt := by simp
  slot_lt := by simp
  slot_ne := by simp
  slot_inj := by simp
  slot_block _ _ := rfl
  last_even := rfl
  one_lt := by norm_num
  last_lt := by norm_num

/-- The parts of the allocator that its shared functions are made of. -/
def code : Code where
  setNext := setNext
  placeFreeBlock := placeFreeBlock 1
  joinPrev prev := return prev
  afterSplit _ _ := return
  findFit := findFirstFit 1

lemma setsNext : SetsNext format setNext := fun _ _ _ _ => wp_store _ _ _ _

/-- There is one list, on which a block may stay when its size changes. -/
lemma relist_head {rd : ℕ → ℕ} {M : ℕ → ℕ → Prop} {x k n j q : ℕ} (h : Lists format rd M)
    (hk : M k x) : Relist M x (format.head n) j q ↔ M j q := by
  obtain rfl : k = 1 := by simpa [format] using (h.inside hk).1
  exact relist_self h hk

/-- First fit begins with the prologue, which is allocated, and goes on with the list. -/
lemma findFirstFit_spec {s : Segment} {bs : Layout} (h : Inv format s bs) (size : ℕ) :
    wp (findFirstFit 1 size) (fun r s' => s' = s ∧ FindsFit format.first bs size r) s := by
  obtain ⟨l, -, hl, hchain, hlen⟩ := h.list (k := 1) (by simp [format])
  have hbrk := h.tiles.brk
  have hpro : s.word 1 = 17 := h.tiles.prologue
  have hnext : fixAddress (s.word 2) = format.nxt s.word 1 := fixAddress_eq (s.word_lt _)
  obtain ⟨fuel, hfuel⟩ : ∃ k, s.brk = k + 1 := ⟨s.brk - 1, by omega⟩
  have hloop := findLoop_spec size fuel h.tiles
    (fun q hq => by obtain ⟨e, he, hfree, -⟩ := (hl q).1 hq; exact ⟨e, he, hfree⟩) hchain
    (by omega)
  have hin : 4 * format.nxt s.word 1 + 4 ≤ s.brk := by
    rcases hchain.nxt_eq with hmem | hlast
    · have := ((hl _).1 hmem).bounds
      omega
    · have : format.last = 4 := rfl
      have : format.first = 5 := rfl
      omega
  have hbrk' : 20 ≤ s.brk := by
    have : format.first = 5 := rfl
    omega
  simp only [findFirstFit, wp_bind, wp_blockSize, wp_length, hfuel, findLoop, hpro]
  simp [hpro, hnext]
  refine ⟨by omega, by omega, by omega, by omega, wp_mono hloop ?_⟩
  rintro r s' ⟨rfl, hr⟩
  refine ⟨rfl, ?_⟩
  cases r with
  | none => exact fun x e he hfree => hr x ((hl x).2 ⟨e, he, hfree, rfl⟩) e he
  | some bp =>
    obtain ⟨y, -, e, hrest⟩ := hr
    exact ⟨y, e, hrest⟩

theorem implements : Implements format code where
  setNext := setsNext
  placeFreeBlock {s M x} h hlt hin hapart := by
    have hnext : s.word 2 / 4 = format.nxt s.word 1 := rfl
    have hbrk : 12 ≤ s.brk := by
      have : format.last = 4 := rfl
      omega
    have hlink := linkFront_links setsNext h (k := 1) (v := s.word 2) (by simp [format]) hlt hin
      hapart (by rw [Nat.mod_eq_of_lt (s.word_lt 2), hnext])
    simp only [code, placeFreeBlock, wp_bind, wp_load]
    exact ⟨hbrk, hlink⟩
  joinPrev h hx hfree hk :=
    (wp_pure _ _ _).2 ⟨rfl, h.congr_mem fun _ _ => relist_head h.lists hk, Keeps.refl _ _⟩
  afterSplit h hy hfree hk hn :=
    (wp_pure _ _ _).2 ⟨h.congr_mem fun _ _ => relist_head h.lists hk, Keeps.refl _ _⟩
  findFit h size _ := findFirstFit_spec h size

/-- `mm_init` leaves a heap of one free block. -/
theorem mmInit_spec {bytes : Bytes} {cap : ℕ} (grant₁ grant₂ : Bool) (hcap : cap ≤ 2 ^ 32) :
    wp (mmInit grant₁ grant₂) (fun r s' => ∀ hp, r = some hp → hp = 1 ∧
      ∃ e, e.alloc = false ∧ Inv format s' [e]) ⟨bytes, 0, cap⟩ := by
  simp only [mmInit, memSbrk, WSIZE, bind_pure_comp, wp_bind, wp_map, wp_grow]
  split
  · next hgrant =>
    let s : Segment := (((((Segment.mk bytes 0 cap).setBrk 20).setWord 0 0).setWord 1 17
      |>.setWord 2 (address 4)).setWord 3 17).setWord 4 1
    have hs : Inv format s [] := by
      refine inv_nil ⟨rfl, by simp [s], hcap, ?_, ?_, by simp⟩ ?_
      · simp [s, format, Segment.word_setWord]
      · simp [s, format, Segment.word_setWord]
      · simp [s, format, Format.nxt, Segment.word_setWord, address, heapLo, WSIZE]
    let e : Block := ⟨4096, false, by norm_num, by norm_num⟩
    have hext := extendHeap_spec implements grant₂ hs (b := e) rfl (by norm_num [e])
    simp [put, pack, DSIZE]
    refine wp_mono hext ?_
    rintro _ s' (⟨rfl, rfl⟩ | ⟨rfl, hinv, -⟩)
    · simp
    · simpa using ⟨e, rfl, hinv⟩
  · simp

/-- `mm-explicit.c` as its clients see it. -/
def allocator : Allocator where
  mmInit := mmInit
  malloc := malloc
  free := free
  realloc := realloc

section Contract
variable {s : Segment} {bs : Layout} {b : Block} {x n : ℕ}

theorem malloc_spec (grant : Bool) (h : Inv format s bs) (hn : n < 2 ^ 31) :
    wp (malloc 1 grant n) (Serves format code s bs n) s :=
  ListBased.malloc_spec implements grant h hn (by decide) (by decide)

/-- `malloc` of any size whose arithmetic does not wrap. -/
lemma malloc_mallocs (grant : Bool) (h : Inv format s bs) (hn : n ≤ 2 ^ 64 - 16) :
    wp (malloc 1 grant n) (Mallocs 5 (Inv format) s bs n) s := by
  rcases Nat.eq_zero_or_pos n with rfl | hpos
  · exact (wp_pure _ _ _).2 rfl
  · exact wp_mono (ListBased.malloc_answers implements grant h hpos hn (by decide) (by decide)
      (findFirstFit_spec h _)) fun _ _ h => h.mallocs hn

lemma malloc_eq_none_iff {s' : Segment} (grant : Bool) (h : Inv format s bs) (hpos : 0 < n) :
    (malloc 1 grant n).run s = some (none, s') ↔ s' = s ∧ FindsFit 5 bs (getMallocSize n) none ∧
      ¬ Grants grant s (max (getMallocSize n) CHUNKSIZE) :=
  ListBased.malloc_eq_none_iff implements grant h hpos (by decide) (by decide) (by decide)
    (findFirstFit_spec h _)

lemma free_frees (h : Inv format s bs) (hx : Live 5 bs x b) :
    wp (free 1 (some (x + 1))) (fun _ s' => Frees 5 (Inv format) s bs x s') s :=
  ListBased.free_frees (f := format) (c := code) implements h hx

/-- `mm-explicit.c` keeps the contract of an allocator. -/
theorem contract : Contract allocator 5 (Inv format) where
  odd := rfl
  tagged h := h.tiles.tags
  inside h := h.tiles.brk.ge
  write h hx hsame := h.write hx hsame
  mmInit grant₁ grant₂ hcap := by
    refine wp_mono (mmInit_spec grant₁ grant₂ hcap) fun r s' h hp hr => ?_
    obtain ⟨rfl, e, he, hinv⟩ := h hp hr
    exact ⟨rfl, [e], hinv, fun x b hx => at_alloc_false (by simp [he]) hx⟩
  malloc grant n h hn := malloc_mallocs grant h (by omega)
  freeNull h := (wp_pure _ _ _).2 rfl
  free := free_frees
  reallocZeroNull grant junk h := (wp_pure _ _ _).2 ⟨rfl, rfl⟩
  reallocZero grant junk h hx := by
    simpa [allocator, realloc, reallocCopy] using free_frees h hx
  reallocNull grant junk n h hpos hn := by
    simpa [allocator, realloc, reallocCopy, hpos.ne'] using malloc_mallocs grant h (by omega)
  realloc grant junk n h hx hpos hn :=
    reallocCopy_spec (fun h => h.tiles.tags) (fun h => h.tiles.brk.ge)
      (fun h hx hsame => h.write hx hsame) (malloc_mallocs grant h (by omega)) free_frees junk
      hx hpos

end Contract

end Explicit
end Malloclab
end SystemsLabs
