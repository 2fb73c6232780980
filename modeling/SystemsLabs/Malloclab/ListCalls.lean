import SystemsLabs.Malloclab.ListHeap

/-!
# The calls of `mm-explicit.c` and `mm-seglist.c`

What `extend_heap`, `place`, `malloc` and `free` do to the heap of a list-based allocator,
from the specification of the parts that differ (`Implements`). Between calls the lists
hold the free blocks exactly (`Inv`).
-/

namespace SystemsLabs
namespace Malloclab
namespace ListBased

open Memory Layout

/-- The invariant between calls. -/
def Inv (f : Format) (s : Segment) (bs : Layout) : Prop := Heap f s bs (Listed f f.first bs)

section Calls
variable {f : Format} {c : Code} {s : Segment} {bs pre post : Layout} {b d : Block}

/-! ## `extend_heap` -/

/-- The segment grown by the block `b` with its tags. -/
def extended (s : Segment) (x : ℕ) (b : Block) : Segment := (s.setBrk (s.brk + b.size)).retag x b

lemma byte_extended {x i : ℕ} (h : i / 4 < x) : (extended s x b).bytes i = s.bytes i := by
  have hw := b.words_ge
  rw [extended, Segment.retag, Segment.byte_setWord_ne _ _ (by omega),
    Segment.byte_setWord_ne _ _ (by omega)]
  rfl

/-- The heap grows by a free block, which is on no list yet. -/
lemma Inv.extend (h : Inv f s bs) (hb : b.alloc = false) (hle : s.brk + b.size ≤ 2 ^ 32) :
    Heap f (extended s (f.first + len bs) b) (bs ++ [b])
      (Others f (bs ++ [b]) (f.first + len bs)) := by
  have hw := b.words_ge
  have h4 := b.four_words
  have hbrk := h.tiles.brk
  have hfirst : f.first = f.last + 1 := rfl
  have hone := f.one_lt
  have hlt : b.tag < 2 ^ 32 := by
    rw [Block.tag_of_free hb]
    omega
  have hout : ∀ i, i < f.first + len bs → (extended s (f.first + len bs) b).word i = s.word i :=
    fun i hi => Bytes.word_congr fun a ha => byte_extended (by omega)
  have hmem : ∀ j q, Others f (bs ++ [b]) (f.first + len bs) j q ↔ Listed f f.first bs j q := by
    intro j q
    simp only [Others, listed_append, listed_cons, listed_nil, or_false]
    constructor
    · rintro ⟨hq | hq, hne⟩
      · exact hq
      · exact absurd hq.1 hne
    · intro hq
      have := hq.bounds
      exact ⟨.inl hq, by omega⟩
  have htiles : Tiles f (extended s (f.first + len bs) b) (bs ++ [b]) := by
    refine ⟨?_, hle, h.tiles.cap, ?_, ?_, ?_⟩
    · simp only [extended, Segment.brk_retag, Segment.brk_setBrk, len_append, len_cons, len_nil]
      omega
    · rw [hout 1 (by omega), h.tiles.prologue]
    · rw [hout f.last (by omega), h.tiles.last]
    · rw [tagged_append]
      exact ⟨h.tiles.tags.congr_range fun i _ hi => hout i hi, tagged_retag _ _ hlt⟩
  refine Heap.congr_mem ⟨htiles, h.lists.congr fun i hi => hout i ?_, ?_, fun {j q} hq => ?_⟩ hmem
  · rcases h.cells.link hi with hi | ⟨z, m, hz, -, -, hi⟩
    · omega
    · have := hz.bounds
      omega
  · intro j q hq
    obtain ⟨z, m, hz, hrest⟩ := h.cells j q hq
    exact ⟨z, m, by simp [hz], hrest⟩
  · have := hq.bounds
    rw [hout q (by omega)]
    exact h.free hq

/-- The heap is extended by `b`, which is not merged with what comes before it, if memlib
serves the request. -/
theorem extendHeap_answers (hc : Implements f c) (grant : Bool) (h : Inv f s bs)
    (hb : b.alloc = false) (hsize : b.size < 2 ^ 64) :
    wp (extendHeapWith c.coalesce grant b.words) (fun r s' =>
      (r = none ∧ s' = s ∧ ¬ Grants grant s b.size) ∨
        (r = some (f.first + len bs) ∧ Inv f s' (bs ++ [b]) ∧ Keeps (Live f.first bs) s s' ∧
          Grants grant s b.size)) s := by
  have heven := b.words_even
  have h4 := b.four_words
  have hw := b.words_ge
  have hbrk := h.tiles.brk
  have hmul : szMul b.words 4 = b.size := by rw [szMul_eq] <;> omega
  simp only [extendHeapWith, heven, hmul, WSIZE, ne_eq, not_true_eq_false, if_false,
    bind_pure_comp, wp_bind, wp_memSbrk]
  split
  · next hgrant =>
    have hle : s.brk + b.size ≤ 2 ^ 32 := hgrant.2.trans h.tiles.cap
    have hfirst : f.first = f.last + 1 := rfl
    have hdiv : s.brk / 4 = f.first + len bs := by omega
    have hmod : b.size % 4294967296 = b.size := Nat.mod_eq_of_lt (by omega)
    have hco := coalesce_spec hc (h.extend hb hle) hb
    have hkeeps : Keeps (Live f.first bs) s (extended s (f.first + len bs) b) :=
      keeps_of_lt fun i hi => byte_extended hi
    generalize hx : f.first + len bs = x at *
    simp only [extended, Segment.retag, Block.tag_of_free hb] at hco hkeeps
    simp [hdiv, getFooterEl, WSIZE, pack_zero, Segment.word_setWord, hmod]
    refine ⟨by omega, by omega, wp_mono hco ?_⟩
    rintro r s' ⟨bs', hpost⟩
    -- the block that is received is the last one, so it is not merged
    obtain ⟨rfl, rfl⟩ := hpost.last rfl
    refine ⟨hx, hpost.heap, hkeeps.trans (hpost.keeps.mono fun y d hy => ?_), hgrant⟩
    exact (live_append_free hb).2 hy
  · next hgrant => exact (wp_pure _ _ _).2 (.inl ⟨rfl, rfl, hgrant⟩)

theorem extendHeap_spec (hc : Implements f c) (grant : Bool) (h : Inv f s bs)
    (hb : b.alloc = false) (hsize : b.size < 2 ^ 64) :
    wp (extendHeapWith c.coalesce grant b.words) (fun r s' => (r = none ∧ s' = s) ∨
      (r = some (f.first + len bs) ∧ Inv f s' (bs ++ [b]) ∧ Keeps (Live f.first bs) s s')) s := by
  refine wp_mono (extendHeap_answers hc grant h hb hsize) ?_
  rintro r s' (⟨hr, hs, -⟩ | ⟨hr, hinv, hkeep, -⟩)
  · exact .inl ⟨hr, hs⟩
  · exact .inr ⟨hr, hinv, hkeep⟩

/-! ## `place` -/

/-- What `place` does: the front of the free block at `y` is allocated, with a size of at
least `n`, and the whole block if too little would be left of it. -/
structure Places (f : Format) (s : Segment) (bs : Layout) (y n : ℕ) (s' : Segment) (bs' : Layout)
    (b : Block) : Prop where
  inv : Inv f s' bs'
  allocates : Allocates f.first bs bs' y b
  size : n ≤ b.size
  keeps : Keeps (Live f.first bs) s s'
  whole : ∀ d, At f.first bs y d → (b.words = d.words ↔ d.size < n + 16)

/-- The free blocks after `b` has taken the front of `c`. -/
lemma listed_allocate {a j q : ℕ} {rest : Layout} (hb : b.alloc = true)
    (hlen : b.words + len rest = d.words) :
    Listed f a (pre ++ b :: rest ++ post) j q ↔
      (Listed f a (pre ++ d :: post) j q ∧ q ≠ a + len pre) ∨
        Listed f (a + len pre + b.words) rest j q := by
  have hpost : a + (len pre + (b.words + len rest)) = a + len pre + d.words := by omega
  have hw := b.words_ge
  have hdw := d.words_ge
  simp only [listed_append, listed_cons, len_append, len_cons, hb, hpost, Bool.true_eq_false,
    false_and, and_false, false_or]
  constructor
  · rintro ((hq | hq) | hq)
    · have := hq.bounds
      exact .inl ⟨.inl hq, by omega⟩
    · exact .inr hq
    · have := hq.bounds
      exact .inl ⟨.inr (.inr hq), by omega⟩
  · rintro (⟨hq | ⟨hq, -⟩ | hq, hne⟩ | hq)
    · exact .inl (.inl hq)
    · exact absurd hq hne
    · exact .inr hq
    · exact .inl (.inr hq)

/-- Tags written over a free block, and not over its links, leave the lists alone. -/
lemma Inv.tagless {s₁ : Segment} {x : ℕ} (h : Inv f s (pre ++ d :: post))
    (hx : x = f.first + len pre)
    (hsame : s.SameBut (fun i => i = x ∨ Between (x + 3) (x + d.words) i) s₁) :
    Tagless f s₁ (Listed f f.first (pre ++ d :: post)) x ∧
      ∀ {j q}, Listed f f.first (pre ++ d :: post) j q → q = x ∨ q + 4 ≤ x ∨ x + d.words ≤ q := by
  have hfirst : f.first = f.last + 1 := rfl
  have hone := f.one_lt
  have hout : ∀ {j q}, Listed f f.first (pre ++ d :: post) j q →
      q = x ∨ q + 4 ≤ x ∨ x + d.words ≤ q := by
    rintro j q ⟨e, he, -⟩
    have hew := e.words_ge
    have hd : At f.first (pre ++ d :: post) x d := by simp [hx]
    rcases he.disjoint hd with h | h | h
    · exact .inl h.1
    · omega
    · exact .inr (.inr h)
  have hword : ∀ {i}, i ≠ x → (i < x + 3 ∨ x + d.words ≤ i) → s₁.word i = s.word i :=
    fun hne hi => hsame.word fun hw => by
      rcases hw with hw | ⟨h1, h2⟩
      · exact hne hw
      · omega
  refine ⟨⟨h.lists.congr fun i hi => ?_, hsame.brk ▸ h.tiles.le,
    fun hq => hsame.brk ▸ h.inside hq, ?_, fun {j q} hq hne => ?_⟩, hout⟩
  · rcases hi with ⟨k, hk, rfl⟩ | ⟨k, q, hq, hi⟩
    · have := f.slot_lt k hk
      exact hword (by omega) (by omega)
    · have := hout hq
      exact hword (by omega) (by omega)
  · rw [hword (by omega) (by omega), h.tiles.last]
  · have := hout hq
    rw [hword hne (by omega), h.free hq]

lemma Tiles.even {j q : ℕ} (h : Tiles f s bs) (hq : Listed f f.first bs j q) :
    s.word q % 2 = 0 := by
  obtain ⟨e, he, hfree, -⟩ := hq
  have := e.dvd
  rw [(h.tags q e he).1, Block.tag_of_free hfree]
  omega

/-- When the tags say that the whole block is allocated, it leaves its list. -/
lemma whole_links (hc : Implements f c) (h : Inv f s (pre ++ d :: post)) (hfree : d.alloc = false) :
    wp (dropLinks c.setNext (f.first + len pre))
      (fun _ s' => Inv f s' (pre ++ d.mark true :: post) ∧
        Keeps (Live f.first (pre ++ d.mark true :: post))
          (s.retag (f.first + len pre) (d.mark true)) s')
      (s.retag (f.first + len pre) (d.mark true)) := by
  have hw := d.words_ge
  have hmid : Tiles f s (pre ++ [d] ++ post) := by simpa using h.tiles
  have htiles := hmid.retag (m := d.mark true) (by simp)
  have hM : (fun j q => Listed f f.first (pre ++ d :: post) j q ∧ q ≠ f.first + len pre) =
      Listed f f.first (pre ++ d.mark true :: post) := by
    funext j q
    have hlisted : Listed f f.first (pre ++ d.mark true :: [] ++ post) j q ↔ _ :=
      listed_allocate (d := d) rfl (by simp)
    simpa using hlisted.symm
  -- the links of `d` are intact
  obtain ⟨htagless, -⟩ := h.tagless rfl (s.sameBut_retag (d.mark true) (.inl rfl)
    (.inr (by constructor <;> simp <;> omega)))
  have hdrop := dropLinks_links hc.setNext htagless ⟨d, by simp, hfree, rfl⟩
  rw [hM] at hdrop
  apply wp_mono hdrop
  rintro _ s' ⟨hlists, hsame⟩
  exact Heap.relink htiles hlists cells_listed hsame htiles.even

/-- A free block from which too little would be left is allocated whole. -/
lemma place_whole (hc : Implements f c) (h : Inv f s (pre ++ d :: post)) (hfree : d.alloc = false)
    (hle : b.size ≤ d.size) (hlt : d.size < b.size + 16) :
    wp (placeWith c.setNext c.afterSplit (f.first + len pre + 1) b.size)
      (fun _ s' => Places f s (pre ++ d :: post) (f.first + len pre) b.size s'
        (pre ++ d.mark true :: [] ++ post) (d.mark true)) s := by
  have hfirst : f.first = f.last + 1 := rfl
  have hbrk := h.tiles.brk
  have hbound := h.tiles.le
  have hhdr := h.tiles.word_header
  have hw := d.words_ge
  have h4 := d.four_words
  have hsub : szSub d.size b.size = d.size - b.size := by
    simp only [len_append, len_cons] at hbrk
    exact szSub_eq hle (by omega)
  have hkeep : Keeps (Live f.first (pre ++ [d] ++ post)) s
      (s.retag (f.first + len pre) (d.mark true)) :=
    keeps_replace (by simp [hfree]) (sameBut_retag s (d.mark true) le_rfl (by simp))
  rw [Block.tag_of_free hfree] at hhdr
  simp only [len_append, len_cons] at hbrk
  have hmod : (d.size + 1) % 4294967296 = d.size + 1 := Nat.mod_eq_of_lt (by omega)
  have hdiv : (d.size + 1) / 8 * 8 = d.size := (d.mark true).tag_div
  have hsmall : ¬ 16 ≤ d.size - b.size := by omega
  have hall : Allocates f.first (pre ++ d :: post) (pre ++ d.mark true :: [] ++ post)
      (f.first + len pre) (d.mark true) :=
    ⟨pre, d, [], post, rfl, rfl, rfl, hfree, rfl, by simp, by simp, by simp⟩
  -- the block is marked as a whole, and taken off its list
  have hpost : wp (dropLinks c.setNext (f.first + len pre))
      (fun _ s' => Places f s (pre ++ d :: post) (f.first + len pre) b.size s'
        (pre ++ d.mark true :: [] ++ post) (d.mark true))
      (s.retag (f.first + len pre) (d.mark true)) := by
    apply wp_mono (whole_links hc h hfree)
    rintro _ s' ⟨hinv, hkeep'⟩
    refine ⟨by simpa using hinv, hall, hle, Keeps.trans (by simpa using hkeep)
      (hkeep'.mono fun y g hy => by simpa using hall.live_iff.2 (.inl hy)), fun g hg => ?_⟩
    rw [hg.unique (show At f.first (pre ++ d :: post) (f.first + len pre) d by simp)]
    simpa using hlt
  generalize hx : f.first + len pre = x at *
  simp only [Segment.retag, Block.mark_words, Block.tag_of_alloc (Block.mark_alloc d true),
    Block.mark_size] at hpost
  simp [placeWith, getFooterEl, WSIZE, DSIZE, hhdr, hsub, hsmall, pack_one d.dvd,
    Segment.word_setWord, hmod, hdiv]
  exact ⟨by omega, by omega, by simpa using hpost⟩

/-- When the tags say that the front of a free block is allocated, the rest of it takes the
place of the block on its list, and is moved to the list for its size. -/
lemma split_links {e : Block} {y : ℕ} (hc : Implements f c) (h : Inv f s (pre ++ d :: post))
    (hfree : d.alloc = false) (hb : b.alloc = true) (hefree : e.alloc = false)
    (hew : b.words + e.words = d.words) (hy : f.first + len pre + b.words = y) :
    wp (do moveLinks c.setNext (f.first + len pre) (y + 1); c.afterSplit d.size y)
      (fun _ s' => Inv f s' (pre ++ b :: [e] ++ post) ∧
        Keeps (Live f.first (pre ++ b :: [e] ++ post))
          ((s.retag (f.first + len pre) b).retag y e) s')
      ((s.retag (f.first + len pre) b).retag y e) := by
  have hfirst : f.first = f.last + 1 := rfl
  have hbrk := h.tiles.brk
  have hbound := h.tiles.le
  have hbw := b.words_ge
  have hew4 := e.words_ge
  have h4 := d.four_words
  simp only [len_append, len_cons] at hbrk
  have hye : At f.first (pre ++ b :: [e] ++ post) y e := by simp [← hy]
  have htiles : Tiles f ((s.retag (f.first + len pre) b).retag y e) (pre ++ b :: [e] ++ post) :=
    hy ▸ h.tiles.cut hew
  -- the links of `d` are intact, and the remainder `e` takes them over
  obtain ⟨htagless, hout⟩ := h.tagless rfl
    ((s.sameBut_retag b (Or.inl rfl) (Or.inr ⟨by omega, by omega⟩)).trans
      ((s.retag (f.first + len pre) b).sameBut_retag (x := y) e (Or.inr ⟨by omega, by omega⟩)
        (Or.inr ⟨by omega, by omega⟩)))
  have hmove := moveLinks_links hc.setNext htagless ⟨d, by simp, hfree, rfl⟩ (y := y) (by omega)
    (by simp only [Segment.brk_retag]; omega) fun {j q} hq => by have := hout hq; omega
  have hM : ∀ j q, Listed f f.first (pre ++ b :: [e] ++ post) j q ↔ _ := fun j q =>
    listed_allocate (d := d) hb (by simpa using hew)
  simp only [hy, listed_cons, listed_nil, or_false, hefree, true_and] at hM
  apply wp_call hmove
  rintro _ s₂ ⟨hlists, hsame₂⟩
  have h₂ := Heap.relink htiles hlists ?_ hsame₂ ?_
  · apply wp_mono (hc.afterSplit (n := d.size) h₂.1 hye hefree (.inr ⟨rfl, rfl⟩) (by omega))
    rintro _ s₃ ⟨h₃, hk₃⟩
    refine ⟨h₃.congr_mem fun j q => ?_, h₂.2.trans hk₃⟩
    rw [hM]
    constructor
    · rintro (hq | ⟨rfl, rfl⟩)
      · exact .inl ⟨.inl hq, by have := hout hq.1; omega⟩
      · exact .inr ⟨rfl, rfl⟩
    · rintro (⟨hq | ⟨-, hq⟩, hne⟩ | ⟨rfl, rfl⟩)
      · exact .inl hq
      · exact absurd hq hne
      · exact .inr ⟨rfl, rfl⟩
  · rintro j q (hq | ⟨rfl, rfl⟩)
    · exact cells_listed j q ((hM j q).2 (.inl hq))
    · exact ⟨q, e, hye, hefree, le_rfl, by omega⟩
  · rintro j q (hq | ⟨rfl, rfl⟩)
    · exact htiles.even ((hM j q).2 (.inl hq))
    · exact htiles.even ⟨e, hye, hefree, rfl⟩

/-- The front of a free block is allocated, and what is left of it takes its place. -/
lemma place_split (hc : Implements f c) (h : Inv f s (pre ++ d :: post)) (hfree : d.alloc = false)
    (hb : b.alloc = true) {e : Block} (hsize : e.size = d.size - b.size) (hefree : e.alloc = false)
    (hew : b.words + e.words = d.words) :
    wp (placeWith c.setNext c.afterSplit (f.first + len pre + 1) b.size)
      (fun _ s' => Places f s (pre ++ d :: post) (f.first + len pre) b.size s'
        (pre ++ b :: [e] ++ post) b) s := by
  have hbrk := h.tiles.brk
  have hbound := h.tiles.le
  have hhdr := h.tiles.word_header
  have hbw := b.words_ge
  have hew4 := e.words_ge
  have h4 := d.four_words
  have hb4 := b.four_words
  have he4 := e.four_words
  have hall : Allocates f.first (pre ++ d :: post) (pre ++ b :: [e] ++ post)
      (f.first + len pre) b :=
    ⟨pre, d, [e], post, rfl, rfl, rfl, hfree, hb, by simp, by simp [hefree], by simpa using hew⟩
  obtain ⟨y, hy⟩ : ∃ y, f.first + len pre + b.words = y := ⟨_, rfl⟩
  have hkeep : Keeps (Live f.first (pre ++ [d] ++ post)) s
      ((s.retag (f.first + len pre) b).retag y e) :=
    hy ▸ keeps_replace (by simp [hfree]) (sameBut_retag_retag s _ hew)
  -- what `split_links` says, as a placement
  have hpost : wp (do moveLinks c.setNext (f.first + len pre) (y + 1); c.afterSplit d.size y)
      (fun _ s' => Places f s (pre ++ d :: post) (f.first + len pre) b.size s'
        (pre ++ b :: [e] ++ post) b) ((s.retag (f.first + len pre) b).retag y e) := by
    apply wp_mono (split_links hc h hfree hb hefree hew hy)
    rintro _ s' ⟨hinv, hkeep'⟩
    refine ⟨hinv, hall, le_rfl, Keeps.trans (by simpa using hkeep)
      (hkeep'.mono fun z g hz => hall.live_iff.2 (.inl hz)), fun g hg => ?_⟩
    rw [hg.unique (show At f.first (pre ++ d :: post) (f.first + len pre) d by simp)]
    have := e.le
    omega
  simp only [len_append, len_cons] at hbrk
  rw [Block.tag_of_free hfree] at hhdr
  have hsub : szSub d.size b.size = e.size := by rw [hsize, szSub_eq (by omega) (by omega)]
  have hmod : (b.size + 1) % 4294967296 = b.size + 1 := Nat.mod_eq_of_lt (by omega)
  have hmod' : e.size % 4294967296 = e.size := Nat.mod_eq_of_lt (by omega)
  have hge : 16 ≤ e.size := e.le
  have hdiv : (b.size + 1) / 8 * 8 = b.size := by
    have := b.tag_div
    rwa [Block.tag_of_alloc hb] at this
  -- the rest computes the words that `place` writes
  generalize hx : f.first + len pre = x at *
  have hne : x ≠ y - 1 := by omega
  have hend : x + b.words - 1 = y - 1 := by omega
  have hback : y - 1 + 1 = y := by omega
  have htemp : y - 1 + 2 = y + 1 := by omega
  have hfoot : y - 1 + e.words = y + e.words - 1 := by omega
  simp only [Segment.retag, Block.tag_of_alloc hb, Block.tag_of_free hefree, hend,
    List.append_assoc, List.cons_append, List.nil_append] at hpost ⊢
  simp [placeWith, getFooterEl, WSIZE, DSIZE, hhdr, hsub, hge, pack_one b.dvd, pack_zero,
    Segment.word_setWord, hmod, hmod', hdiv, hend, hback, htemp, hne]
  refine ⟨by omega, by omega, by omega, by omega, by omega, ?_⟩
  rwa [hfoot, ← wp_bind]

theorem place_spec {y : ℕ} (hc : Implements f c) (h : Inv f s bs) (hd : At f.first bs y d)
    (hfree : d.alloc = false) (hb : b.alloc = true) (hle : b.size ≤ d.size) :
    wp (placeWith c.setNext c.afterSplit (y + 1) b.size)
      (fun _ s' => ∃ bs' e, Places f s bs y b.size s' bs' e) s := by
  obtain ⟨pre, post, rfl, rfl⟩ := at_iff_split.1 hd
  by_cases hsplit : b.size + 16 ≤ d.size
  · exact wp_mono (place_split hc h hfree hb (d.rest_size b hsplit) rfl (d.rest_words b hsplit))
      fun _ _ h => ⟨_, _, h⟩
  · exact wp_mono (place_whole hc h hfree hle (by omega)) fun _ _ h => ⟨_, _, h⟩

/-! ## The first heap, and writes of the clients -/

/-- An empty heap, in which every list leads to the epilogue. -/
lemma inv_nil (h : Tiles f s []) (hnext : ∀ k ∈ f.heads, f.nxt s.word k = f.last) :
    Inv f s [] := by
  have hno : ∀ {j q}, ¬ Listed f f.first [] j q := listed_nil
  exact ⟨h, ⟨fun k hk => ⟨[], List.nodup_nil, fun q => by simp, by simpa using hnext k hk⟩,
    fun hq => absurd hq hno, fun hq => absurd hq hno⟩, cells_listed, fun hq => absurd hq hno⟩

/-- No link is stored in an allocated block. -/
lemma Inv.link_out {x i : ℕ} (h : Inv f s bs) (hx : Live f.first bs x b)
    (hi : Link f (Listed f f.first bs) i) : i < x ∨ x + b.words ≤ i := by
  have hbounds := hx.1.bounds
  have hfirst : f.first = f.last + 1 := rfl
  rcases h.cells.link hi with hi | ⟨z, m, hz, hfree, hi1, hi2⟩
  · omega
  · rcases hz.disjoint hx.1 with ⟨-, rfl⟩ | hd | hd
    · rw [hx.2] at hfree
      cases hfree
    · omega
    · omega

/-- Payloads may be written. -/
lemma Inv.write {s' : Segment} {x : ℕ} (h : Inv f s bs) (hx : Live f.first bs x b)
    (hsame : s.SameBut (Between (x + 1) (x + b.words - 1)) s') : Inv f s' bs := by
  have htiles := h.tiles.write hx.1 hsame
  refine ⟨htiles, h.lists.congr fun i hi => hsame.word fun hbetween => ?_, cells_listed,
    htiles.even⟩
  obtain ⟨h1, h2⟩ := hbetween
  have := h.link_out hx hi
  omega

/-- An allocated block is cut in two, of which the second is free and on no list yet. -/
lemma Inv.shrink {e : Block} (h : Inv f s (pre ++ d :: post)) (hd : d.alloc = true)
    (hb : b.alloc = true) (he : e.alloc = false) (hlen : b.words + e.words = d.words) :
    Heap f ((s.retag (f.first + len pre) b).retag (f.first + len pre + b.words) e)
      (pre ++ [b] ++ e :: post)
      (Others f (pre ++ [b] ++ e :: post) (f.first + len (pre ++ [b]))) := by
  have hw := b.words_ge
  have hew := e.words_ge
  have hsame := sameBut_retag_retag s (f.first + len pre) hlen
  have htiles := h.tiles.cut hlen
  have hM : ∀ j q, Others f (pre ++ [b] ++ e :: post) (f.first + len (pre ++ [b])) j q ↔
      Listed f f.first (pre ++ d :: post) j q := by
    intro j q
    have hpost : f.first + (len pre + b.words) + e.words = f.first + len pre + d.words := by omega
    simp only [Others, listed_append, listed_cons, listed_nil, len_append, len_cons, len_nil, hd,
      hb, he, hpost, Bool.true_eq_false, false_and, and_false, false_or, or_false, true_and,
      Nat.add_zero]
    constructor
    · rintro ⟨hq | ⟨hq, -⟩ | hq, hne⟩
      · exact .inl hq
      · exact absurd hq hne
      · exact .inr hq
    · rintro (hq | hq)
      · have := hq.bounds
        exact ⟨.inl hq, by omega⟩
      · have := hq.bounds
        exact ⟨.inr (.inr hq), by omega⟩
  have htiles' : Tiles f ((s.retag (f.first + len pre) b).retag (f.first + len pre + b.words) e)
      (pre ++ [b] ++ e :: post) := by simpa using htiles
  refine Heap.congr_mem ⟨htiles', h.lists.congr fun i hi => hsame.word fun hbetween => ?_,
    fun j q hq => ?_, fun {j q} hq => htiles'.even ((hM j q).2 hq).1⟩ hM
  · -- the tags are written where a block was allocated, and there no link is stored
    obtain ⟨h1, h2⟩ := hbetween
    have hx : Live f.first (pre ++ d :: post) (f.first + len pre) d := ⟨by simp, hd⟩
    have := h.link_out hx hi
    simp only [len_cons, len_nil] at h2
    omega
  · exact cells_listed j q ((hM j q).2 hq).1

/-! ## `malloc` -/

/-- What `malloc(n)` does: it fails, or it places a block in a free one that the search
finds, or in one that the heap is extended by. -/
inductive Serves (f : Format) (c : Code) (s : Segment) (bs : Layout) (n : ℕ) :
    Option ℕ → Segment → Prop
  | null (hfind : 0 < n → (c.findFit (getMallocSize n)).run s = some (none, s)) :
      Serves f c s bs n none s
  | fit {y s' bs' b} (hfind : (c.findFit (getMallocSize n)).run s = some (some (y + 1), s))
      (h : Places f s bs y (getMallocSize n) s' bs' b) : Serves f c s bs n (some (y + 1)) s'
  | grown {s₁ s' bs' e b} (hfind : (c.findFit (getMallocSize n)).run s = some (none, s))
      (hkeep : Keeps (Live f.first bs) s s₁) (he : e.alloc = false)
      (h : Places f s₁ (bs ++ [e]) (f.first + len bs) (getMallocSize n) s' bs' b) :
      Serves f c s bs n (some (f.first + len bs + 1)) s'

lemma Places.mallocs {s₁ s' : Segment} {bs₁ bs' : Layout} {y k n : ℕ}
    (h : Places f s₁ bs₁ y k s' bs' b) (hkeep : Keeps (Live f.first bs) s s₁)
    (hlive : ∀ x d, Live f.first bs₁ x d ↔ Live f.first bs x d) (hn : n + 8 ≤ k) :
    Mallocs f.first (Inv f) s bs n (some (y + 1)) s' := by
  refine ⟨bs', y, b, rfl, h.inv, hn.trans h.size,
    fun d hd => h.allocates.fresh d ((hlive y d).2 hd), fun x d => ?_, ?_⟩
  · rw [h.allocates.live_iff, hlive]
  · exact hkeep.trans (h.keeps.mono fun x d hx => (hlive x d).2 hx)

lemma Serves.mallocs {n : ℕ} {r : Option ℕ} {s' : Segment} (h : Serves f c s bs n r s')
    (hn : n < 2 ^ 31) : Mallocs f.first (Inv f) s bs n r s' := by
  obtain ⟨b, hb, -, hroom, -⟩ := exists_block_getMallocSize hn
  rw [hb] at hroom
  cases h with
  | null _ => exact rfl
  | fit hfind h => exact h.mallocs (Keeps.refl _ _) (fun _ _ => Iff.rfl) hroom
  | grown _ hkeep he h => exact h.mallocs hkeep (fun _ _ => live_append_free he) hroom

/-- What `malloc(n)` does when its arithmetic does not wrap, and when it does which. -/
inductive Answers (f : Format) (c : Code) (chunksize : ℕ) (grant : Bool) (s : Segment)
    (bs : Layout) (n : ℕ) : Option ℕ → Segment → Prop
  | refused (hfind : (c.findFit (getMallocSize n)).run s = some (none, s))
      (hgrant : ¬ Grants grant s (max (getMallocSize n) chunksize)) :
      Answers f c chunksize grant s bs n none s
  | fit {y s' bs' b} (hfind : (c.findFit (getMallocSize n)).run s = some (some (y + 1), s))
      (h : Places f s bs y (getMallocSize n) s' bs' b) :
      Answers f c chunksize grant s bs n (some (y + 1)) s'
  | grown {s₁ s' bs' e b} (hfind : (c.findFit (getMallocSize n)).run s = some (none, s))
      (hgrant : Grants grant s (max (getMallocSize n) chunksize))
      (hkeep : Keeps (Live f.first bs) s s₁) (he : e.alloc = false)
      (hesize : e.size = max (getMallocSize n) chunksize)
      (h : Places f s₁ (bs ++ [e]) (f.first + len bs) (getMallocSize n) s' bs' b) :
      Answers f c chunksize grant s bs n (some (f.first + len bs + 1)) s'

/-- `malloc` of any size whose arithmetic does not wrap, from what the search for it finds. -/
theorem malloc_answers {n chunksize : ℕ} (hc : Implements f c) (grant : Bool) (h : Inv f s bs)
    (hpos : 0 < n) (hn : n ≤ 2 ^ 64 - 16) (hdvd : 8 ∣ chunksize) (hlt : chunksize < 2 ^ 32)
    (hsearch : wp (c.findFit (getMallocSize n))
      (fun r s' => s' = s ∧ FindsFit f.first bs (getMallocSize n) r) s) :
    wp (mallocWith c.coalesce c.findFit (placeWith c.setNext c.afterSplit) chunksize grant n)
      (Answers f c chunksize grant s bs n) s := by
  rw [mallocWith, if_neg hpos.ne']
  obtain ⟨b, hb, halloc, hroom, hsize, -⟩ := exists_block_of_le hn
  rw [← hb] at hsearch ⊢
  obtain ⟨r, s₁, hrun, rfl, hfit⟩ := hsearch
  rw [wp_bind, wp_of_run hrun]
  cases r with
  | none =>
    -- no block fits: the heap is extended by at least `chunksize`
    let e := chunk b chunksize hdvd
    have hesize : e.size < 2 ^ 64 := max_lt (by omega) (by omega)
    refine wp_call (extendHeap_answers hc grant h (b := e) rfl hesize) ?_
    rintro _ s₂ (⟨rfl, rfl, hgrant⟩ | ⟨rfl, h₂, hkeep, hgrant⟩)
    · exact (wp_pure _ _ _).2 (.refused (hb ▸ hrun) (hb ▸ hgrant))
    · refine wp_call (place_spec hc h₂ (d := e) (by simp) rfl halloc (le_max_left _ _)) ?_
      rintro _ s₃ ⟨bs₃, d, hplaces⟩
      exact (wp_pure _ _ _).2
        (.grown (e := e) (hb ▸ hrun) (hb ▸ hgrant) hkeep rfl (hb ▸ rfl) (hb ▸ hplaces))
  | some bp =>
    obtain ⟨y, d, rfl, hd, hfree, hle⟩ := hfit
    refine wp_call (place_spec hc h hd hfree halloc hle) ?_
    rintro _ s₃ ⟨bs₃, d', hplaces⟩
    exact (wp_pure _ _ _).2 (.fit (hb ▸ hrun) (hb ▸ hplaces))

lemma Answers.mallocs {n chunksize : ℕ} {grant : Bool} {r : Option ℕ} {s' : Segment}
    (h : Answers f c chunksize grant s bs n r s') (hn : n ≤ 2 ^ 64 - 16) :
    Mallocs f.first (Inv f) s bs n r s' := by
  obtain ⟨b, hb, -, hroom, -⟩ := exists_block_of_le hn
  rw [hb] at hroom
  cases h with
  | refused _ _ => exact rfl
  | fit _ h => exact h.mallocs (Keeps.refl _ _) (fun _ _ => Iff.rfl) hroom
  | grown _ _ hkeep he _ h => exact h.mallocs hkeep (fun _ _ => live_append_free he) hroom

/-- `malloc` of any size returns `NULL` exactly when no block fits and memlib refuses to grow
the heap. -/
theorem malloc_eq_none_iff {n chunksize : ℕ} {s' : Segment} (hc : Implements f c) (grant : Bool)
    (h : Inv f s bs) (hpos : 0 < n) (hdvd : 8 ∣ chunksize) (hle : 16 ≤ chunksize)
    (hlt : chunksize < 2 ^ 32)
    (hsearch : wp (c.findFit (getMallocSize n))
      (fun r s' => s' = s ∧ FindsFit f.first bs (getMallocSize n) r) s) :
    (mallocWith c.coalesce c.findFit (placeWith c.setNext c.afterSplit) chunksize grant n).run s =
        some (none, s') ↔
      s' = s ∧ FindsFit f.first bs (getMallocSize n) none ∧
        ¬ Grants grant s (max (getMallocSize n) chunksize) := by
  rw [mallocWith, if_neg hpos.ne']
  obtain ⟨r, t, hrun, rfl, hfit⟩ := hsearch
  obtain ⟨e, hefree, hesize⟩ := exists_chunk n hdvd hle
  have hlt' := getMallocSize_lt_two_pow n
  have hext : wp (extendHeapWith c.coalesce grant (max (getMallocSize n) chunksize / WSIZE))
      (fun r s' => (r = none ∧ s' = t ∧ ¬ Grants grant t (max (getMallocSize n) chunksize)) ∨
        (r ≠ none ∧ Grants grant t (max (getMallocSize n) chunksize))) t := by
    rw [← hesize]
    refine wp_mono (extendHeap_answers hc grant h hefree (by omega)) ?_
    rintro r' s₁ (hr | ⟨rfl, -, -, hserved⟩)
    · exact .inl hr
    · exact .inr ⟨Option.some_ne_none _, hserved⟩
  rw [← hfit.none_iff]
  exact searchThenExtend_none (k := 1) hrun hext

theorem malloc_spec {n chunksize : ℕ} (hc : Implements f c) (grant : Bool) (h : Inv f s bs)
    (hn : n < 2 ^ 31) (hdvd : 8 ∣ chunksize) (hlt : chunksize < 2 ^ 32) :
    wp (mallocWith c.coalesce c.findFit (placeWith c.setNext c.afterSplit) chunksize grant n)
      (Serves f c s bs n) s := by
  rcases Nat.eq_zero_or_pos n with rfl | hpos
  · rw [mallocWith, if_pos rfl]
    exact (wp_pure _ _ _).2 (.null fun hpos => absurd hpos (lt_irrefl 0))
  obtain ⟨b, hb, -, -, hsize⟩ := exists_block_getMallocSize hn
  have hsearch := hc.findFit h (getMallocSize n) (by omega)
  refine wp_mono (malloc_answers hc grant h hpos (by omega) hdvd hlt hsearch) ?_
  intro r s' hr
  cases hr with
  | refused hfind _ => exact .null fun _ => hfind
  | fit hfind h => exact .fit hfind h
  | grown hfind _ hkeep he _ h => exact .grown hfind hkeep he h

/-! ## `free` -/

/-- A free block is made of an allocated one, which is on no list yet. -/
lemma Inv.release (h : Inv f s (pre ++ b :: post)) (hb : b.alloc = true) :
    Heap f (s.retag (f.first + len pre) (b.mark false)) (pre ++ b.mark false :: post)
      (Others f (pre ++ b.mark false :: post) (f.first + len pre)) := by
  have hmid : Heap f s (pre ++ [b] ++ post) (Listed f f.first (pre ++ b :: post)) := by
    simpa [Inv] using h
  apply (hmid.retag (m := b.mark false) (by simp) rfl).congr_mem
  intro j q
  have hw := b.words_ge
  simp only [Others, listed_append, listed_cons, Block.mark_words, hb, Bool.true_eq_false,
    false_and, and_false, false_or]
  constructor
  · rintro ⟨hq | ⟨hq, -⟩ | hq, hne⟩
    · exact .inl hq
    · exact absurd hq hne
    · exact .inr hq
  · rintro (hq | hq)
    · have := hq.bounds
      exact ⟨.inl hq, by omega⟩
    · have := hq.bounds
      exact ⟨.inr (.inr hq), by omega⟩

lemma keeps_release : Keeps (Live f.first (pre ++ b.mark false :: post)) s
    (s.retag (f.first + len pre) (b.mark false)) := by
  have : Keeps (Live f.first (pre ++ [b.mark false] ++ post)) s
      (s.retag (f.first + len pre) (b.mark false)) :=
    keeps_replace (by simp) (sameBut_retag s _ le_rfl (by simp))
  simpa using this

/-- `free` marks the block and coalesces it with its neighbours. -/
theorem free_spec (hc : Implements f c) (h : Inv f s (pre ++ b :: post)) (hb : b.alloc = true) :
    wp (freeWith c.coalesce (some (f.first + len pre + 1))) (fun _ s' => ∃ r bs',
      Coalesces f (s.retag (f.first + len pre) (b.mark false)) pre (b.mark false) post r s' bs')
      s := by
  have hbrk := h.tiles.brk
  simp only [len_append, len_cons] at hbrk
  simp only [freeWith, Nat.add_sub_cancel, bind_pure_comp]
  refine wp_call (P := fun _ s' => s' = s.retag (f.first + len pre) (b.mark false))
    (wp_blockMark false h.tiles.word_header (by omega) rfl) ?_
  rintro _ s₁ rfl
  rw [wp_map]
  exact wp_mono (coalesce_spec hc (h.release hb) rfl) fun r s₂ hpost => ⟨r, hpost⟩

lemma Coalesces.frees {r : ℕ} {s' : Segment} {bs' : Layout} (h : Inv f s (pre ++ b :: post))
    (hco : Coalesces f (s.retag (f.first + len pre) (b.mark false)) pre (b.mark false) post r s'
      bs') : Frees f.first (Inv f) s (pre ++ b :: post) (f.first + len pre) s' := by
  refine ⟨bs', hco.heap, fun y d => ?_, ?_, ?_⟩
  · rw [hco.merges.live_iff, live_mark_free]
  · apply (keeps_release.trans hco.keeps).mono
    intro y d hy
    rwa [← hco.merges.live_iff]
  · rw [hco.heap.tiles.brk, hco.merges.len_eq, h.tiles.brk]
    simp only [len_append, len_cons, Block.mark_words]

/-- What `free` does for the clients. -/
theorem free_frees {x : ℕ} (hc : Implements f c) (h : Inv f s bs) (hx : Live f.first bs x b) :
    wp (freeWith c.coalesce (some (x + 1))) (fun _ s' => Frees f.first (Inv f) s bs x s') s := by
  obtain ⟨pre, post, rfl, rfl⟩ := at_iff_split.1 hx.1
  exact wp_mono (free_spec hc h hx.2) fun _ s' ⟨r, bs', hco⟩ => hco.frees h

/-! ## Searching a list -/

/-- What the search for `size` bytes on the list `l` answers: one of its blocks that is large
enough, or that there is none. -/
def FindsOn (f : Format) (bs : Layout) (l : List ℕ) (size : ℕ) : Option ℕ → Prop
  | none => ∀ q ∈ l, ∀ e, At f.first bs q e → e.size < size
  | some bp => ∃ q ∈ l, ∃ e, bp = q + 1 ∧ At f.first bs q e ∧ e.alloc = false ∧ size ≤ e.size

/-- The walk along a list stops at the first block that is large enough. -/
lemma findLoop_find {l : List ℕ} {a : ℕ} (size fuel : ℕ) (h : Tiles f s bs)
    (hl : ∀ q ∈ l, ∃ e, At f.first bs q e ∧ e.alloc = false)
    (hchain : Chain (f.nxt s.word) (prv s.word) a l f.last) (hfuel : l.length < fuel) :
    wp (findLoop size fuel (f.nxt s.word a) (s.word (f.nxt s.word a) / 8 * 8))
      (fun r s' => r = (l.find? fun q => size ≤ s.word q / 8 * 8).map (· + 1) ∧ s' = s) s := by
  induction l generalizing a fuel with
  | nil =>
    obtain ⟨fuel, rfl⟩ : ∃ k, fuel = k + 1 := ⟨fuel - 1, by rw [List.length_nil] at hfuel; omega⟩
    rw [chain_nil] at hchain
    simp [findLoop, hchain, h.last]
  | cons q l ih =>
    rw [List.length_cons] at hfuel
    obtain ⟨fuel, rfl⟩ : ∃ k, fuel = k + 1 := ⟨fuel - 1, by omega⟩
    obtain ⟨hq, -, hrest⟩ := chain_cons.1 hchain
    obtain ⟨e, he, hfree⟩ := hl q (by simp)
    have hbounds := he.bounds
    have hbrk := h.brk
    have hw := e.words_ge
    have hpos : 0 < e.size := by have := e.le; omega
    have hdvd := e.dvd
    have hfirst : f.first = f.last + 1 := rfl
    have htag : s.word q = e.size := (h.tags q e he).1.trans (Block.tag_of_free hfree)
    have hnext : fixAddress (s.word (q + 1)) = f.nxt s.word q := by
      rw [fixAddress_eq (s.word_lt _), Format.nxt, f.slot_block q (by omega)]
    have hrest' := ih fuel (fun r hr => hl r (by simp [hr])) hrest (by omega)
    -- the walk reads the header of the next member, or of the epilogue, whose size is 0
    have hin : 4 * f.nxt s.word q + 4 ≤ s.brk := by
      rcases hrest.nxt_eq with hmem | hlast
      · obtain ⟨d, hd, -⟩ := hl _ (List.mem_cons_of_mem _ hmem)
        have := hd.bounds
        have := d.words_ge
        omega
      · omega
    rw [hq, findLoop]
    simp only [htag, Block.size_div, gt_iff_lt, hpos, if_true, wp_bind, wp_blockFree, wp_ite,
      wp_pure, wp_load, wp_blockSize, hnext]
    refine ⟨by omega, ?_⟩
    split
    · next hfit =>
      rw [List.find?_cons_of_pos (by simpa [htag] using hfit.1)]
      exact ⟨rfl, trivial⟩
    · next hfit =>
      rw [List.find?_cons_of_neg (by rw [htag, e.size_div, decide_eq_true_iff]; omega)]
      exact ⟨by omega, hin, hrest'⟩

lemma findLoop_spec {l : List ℕ} {a : ℕ} (size fuel : ℕ) (h : Tiles f s bs)
    (hl : ∀ q ∈ l, ∃ e, At f.first bs q e ∧ e.alloc = false)
    (hchain : Chain (f.nxt s.word) (prv s.word) a l f.last) (hfuel : l.length < fuel) :
    wp (findLoop size fuel (f.nxt s.word a) (s.word (f.nxt s.word a) / 8 * 8))
      (fun r s' => s' = s ∧ FindsOn f bs l size r) s := by
  refine wp_mono (findLoop_find size fuel h hl hchain hfuel) ?_
  rintro r s' ⟨rfl, rfl⟩
  refine ⟨rfl, ?_⟩
  have hsize : ∀ q e, At f.first bs q e → s'.word q / 8 * 8 = e.size := fun q e he => by
    rw [(h.tags q e he).1, e.tag_div]
  cases hfind : l.find? fun q => size ≤ s'.word q / 8 * 8 with
  | none =>
    intro q hq e he
    have := List.find?_eq_none.mp hfind q hq
    rw [decide_eq_true_iff, hsize q e he] at this
    omega
  | some q =>
    obtain ⟨e, he, hfree⟩ := hl q (List.mem_of_find?_eq_some hfind)
    have hle := List.find?_some hfind
    rw [decide_eq_true_iff, hsize q e he] at hle
    exact ⟨q, List.mem_of_find?_eq_some hfind, e, rfl, he, hfree, hle⟩

/-- The list of a head, with its members. -/
lemma Inv.list {k : ℕ} (h : Inv f s bs) (hk : k ∈ f.heads) :
    ∃ l : List ℕ, l.Nodup ∧ (∀ q, q ∈ l ↔ Listed f f.first bs k q) ∧
      Chain (f.nxt s.word) (prv s.word) k l f.last ∧ l.length + 1 < s.brk := by
  obtain ⟨l, hnd, hl, hchain⟩ := h.lists.chain k hk
  refine ⟨l, hnd, hl, hchain, ?_⟩
  -- members are distinct words of the heap, so the walk over them ends in time
  have hsub : l ⊆ List.range (f.first + len bs) := by
    intro q hq
    have := ((hl q).1 hq).bounds
    rw [List.mem_range]
    omega
  have hlen := (hnd.subperm hsub).length_le
  have hbrk := h.tiles.brk
  have hfirst : f.first = f.last + 1 := rfl
  rw [List.length_range] at hlen
  omega

end Calls

end ListBased
end Malloclab
end SystemsLabs
