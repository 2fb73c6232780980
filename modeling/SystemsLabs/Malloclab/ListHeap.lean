import SystemsLabs.Malloclab.FreeLists
import SystemsLabs.Malloclab.Contract

/-!
# The heaps of `mm-explicit.c` and `mm-seglist.c`

`Heap f s bs M` says that the segment `s` is tiled by the blocks `bs` from the word after
the epilogue to its end, and that the blocks at the words that `M` lists are on the free
lists. In between, when a block has been merged in the tags but not yet taken from its
list, a listed block need only lie inside a free one. At the end of every call the lists
hold the free blocks exactly: `M` is `Listed f bs`.

Tags and links are different words, so a function is specified in two steps: a change of
tags keeps the links (`Heap.retag`), and a change of links keeps the tags (`Tiles.relink`).
-/

namespace SystemsLabs
namespace Malloclab

open Memory Layout

/-- The first block. -/
def Format.first (f : Format) : ℕ := f.last + 1

namespace ListBased

/-- The blocks `bs` tile the segment from the word after the epilogue to the end. -/
structure Tiles (f : Format) (s : Segment) (bs : Layout) : Prop where
  brk : s.brk = 4 * (f.first + len bs)
  le : s.brk ≤ 2 ^ 32
  cap : s.cap ≤ 2 ^ 32
  prologue : s.word 1 = f.prologue
  last : s.word f.last = 1
  tags : Tagged s.word f.first bs

/-- Listed blocks lie inside free ones. -/
def Cells (f : Format) (bs : Layout) (M : ℕ → ℕ → Prop) : Prop :=
  ∀ h q, M h q → ∃ z m, At f.first bs z m ∧ m.alloc = false ∧ z ≤ q ∧ q + 4 ≤ z + m.words

/-- The tiled segment with the members `M` of its free lists. -/
structure Heap (f : Format) (s : Segment) (bs : Layout) (M : ℕ → ℕ → Prop) : Prop where
  tiles : Tiles f s bs
  lists : Lists f s.word M
  cells : Cells f bs M
  free : ∀ {h q}, M h q → s.word q % 2 = 0

/-- The block at `q` is free, and belongs on the list of `h`. -/
def Listed (f : Format) (a : ℕ) (bs : Layout) (h q : ℕ) : Prop :=
  ∃ c, At a bs q c ∧ c.alloc = false ∧ f.head c.size = h

section Listed
variable {f : Format} {a h q : ℕ} {b : Block} {bs cs : Layout}

@[simp] lemma listed_nil : ¬ Listed f a [] h q := fun ⟨_, hc, _⟩ => hc

@[simp] lemma listed_cons : Listed f a (b :: bs) h q ↔
    (q = a ∧ b.alloc = false ∧ f.head b.size = h) ∨ Listed f (a + b.words) bs h q := by
  constructor
  · rintro ⟨c, ⟨rfl, rfl⟩ | hc, hfree, hh⟩
    · exact .inl ⟨rfl, hfree, hh⟩
    · exact .inr ⟨c, hc, hfree, hh⟩
  · rintro (⟨rfl, hfree, hh⟩ | ⟨c, hc, hfree, hh⟩)
    · exact ⟨b, .inl ⟨rfl, rfl⟩, hfree, hh⟩
    · exact ⟨c, .inr hc, hfree, hh⟩

@[simp] lemma listed_append :
    Listed f a (bs ++ cs) h q ↔ Listed f a bs h q ∨ Listed f (a + len bs) cs h q := by
  simp only [Listed, at_append, or_and_right, exists_or]

lemma Listed.bounds (hq : Listed f a bs h q) : a ≤ q ∧ q + 4 ≤ a + len bs := by
  obtain ⟨c, hc, -⟩ := hq
  have := hc.bounds
  have := c.words_ge
  omega

/-- The free blocks after `mid` has given way to one free block. -/
lemma listed_merge {pre mid post : Layout} {m : Block} (hfree : m.alloc = false)
    (hm : m.words = len mid) : Listed f a (pre ++ m :: post) h q ↔
      (Listed f a (pre ++ mid ++ post) h q ∧ ¬ (a + len pre ≤ q ∧ q < a + len pre + len mid)) ∨
        (h = f.head m.size ∧ q = a + len pre) := by
  simp only [listed_append, listed_cons, len_append, hm, hfree, true_and, Nat.add_assoc]
  constructor
  · rintro (hq | ⟨rfl, rfl⟩ | hq)
    · have := hq.bounds
      exact .inl ⟨.inl (.inl hq), by omega⟩
    · exact .inr ⟨rfl, rfl⟩
    · have := hq.bounds
      exact .inl ⟨.inr hq, by omega⟩
  · rintro (⟨(hq | hq) | hq, hout⟩ | ⟨rfl, rfl⟩)
    · exact .inl hq
    · have := hq.bounds
      omega
    · exact .inr (.inr hq)
    · exact .inr (.inl ⟨rfl, rfl⟩)

lemma cells_listed : Cells f bs (Listed f f.first bs) := by
  rintro h q ⟨c, hc, hfree, -⟩
  exact ⟨q, c, hc, hfree, le_rfl, by have := c.words_ge; omega⟩

lemma Cells.bounds {M : ℕ → ℕ → Prop} (hM : Cells f bs M) (hq : M h q) :
    f.first ≤ q ∧ q + 4 ≤ f.first + len bs := by
  obtain ⟨z, m, hz, -, h1, h2⟩ := hM h q hq
  have := hz.bounds
  omega

end Listed

namespace Tiles

variable {f : Format} {s s' : Segment} {bs pre mid post : Layout} {b m : Block} {x : ℕ}
  {M : ℕ → ℕ → Prop}

/-- Blocks whose tags are written over a stretch of others replace them in the heap. -/
lemma replace {mid' : Layout} (h : Tiles f s (pre ++ mid ++ post)) (hlen : len mid' = len mid)
    (hmid : Tagged s'.word (f.first + len pre) mid')
    (hsame : s.SameBut (Between (f.first + len pre) (f.first + len pre + len mid)) s') :
    Tiles f s' (pre ++ mid' ++ post) := by
  have hlt := f.one_lt
  refine ⟨?_, ?_, ?_, ?_, ?_, h.tags.replace hlen hmid hsame⟩
  · rw [hsame.brk, h.brk]
    simp only [len_append, hlen]
  · rw [hsame.brk]
    exact h.le
  · rw [hsame.cap]
    exact h.cap
  · rw [hsame.word fun hb => absurd hb.1 (by unfold Format.first; omega), h.prologue]
  · rw [hsame.word fun hb => absurd hb.1 (by unfold Format.first; omega), h.last]

/-- A tag of a block of the heap is a 32-bit word. -/
lemma tag_lt (h : Tiles f s (pre ++ mid ++ post)) (hm : m.words ≤ len mid) :
    m.tag < 2 ^ 32 := by
  have hsize := m.four_words
  have hbrk := h.brk
  have hle := h.le
  have := m.alloc.toNat_lt
  unfold Format.first at hbrk
  simp only [len_append] at hbrk
  unfold Block.tag
  omega

/-- Blocks `mid` give way to one block of the same length. -/
lemma retag (h : Tiles f s (pre ++ mid ++ post)) (hm : m.words = len mid) :
    Tiles f (s.retag (f.first + len pre) m) (pre ++ m :: post) := by
  have : Tiles f (s.retag (f.first + len pre) m) (pre ++ [m] ++ post) :=
    h.replace (by simp [hm]) (tagged_retag s _ (h.tag_lt hm.le))
      (sameBut_retag s m le_rfl (by omega))
  simpa using this

/-- A block gives way to two. -/
lemma cut {d e : Block} (h : Tiles f s (pre ++ d :: post)) (hlen : b.words + e.words = d.words) :
    Tiles f ((s.retag (f.first + len pre) b).retag (f.first + len pre + b.words) e)
      (pre ++ [b, e] ++ post) := by
  have hmid : Tiles f s (pre ++ [d] ++ post) := by simpa using h
  apply hmid.replace (by simpa using hlen) _ (sameBut_retag_retag s _ hlen)
  exact tagged_retag_retag s _ (hmid.tag_lt (by simp; omega)) (hmid.tag_lt (by simp; omega))

/-- Payloads may be written. -/
lemma write (h : Tiles f s bs) (hx : At f.first bs x b)
    (hsame : s.SameBut (Between (x + 1) (x + b.words - 1)) s') : Tiles f s' bs := by
  have hbounds := hx.bounds
  have hlt := f.one_lt
  unfold Format.first at hbounds
  refine ⟨?_, ?_, ?_, ?_, ?_, h.tags.write hx hsame⟩
  · rw [hsame.brk, h.brk]
  · rw [hsame.brk]
    exact h.le
  · rw [hsame.cap]
    exact h.cap
  · rw [hsame.word fun hi => absurd hi.1 (by omega), h.prologue]
  · rw [hsame.word fun hi => absurd hi.1 (by omega), h.last]

lemma word_header (h : Tiles f s (pre ++ b :: post)) : s.word (f.first + len pre) = b.tag :=
  (h.tags _ b (by simp)).1

lemma word_footer (h : Tiles f s (pre ++ b :: post)) :
    s.word (f.first + len pre + b.words - 1) = b.tag :=
  (h.tags _ b (by simp)).2

end Tiles

section Links
variable {f : Format} {s s' : Segment} {bs pre mid post : Layout} {m : Block}
  {M M' : ℕ → ℕ → Prop} {i : ℕ}

/-- A link is stored before the blocks or between the tags of a free one. -/
lemma Cells.link (hM : Cells f bs M) (hi : Link f M i) :
    (i < f.last ∧ i ≠ 1) ∨
      ∃ z m, At f.first bs z m ∧ m.alloc = false ∧ z < i ∧ i < z + m.words - 1 := by
  rcases hi with ⟨h, hh, rfl⟩ | ⟨h, q, hq, hi⟩
  · exact .inl ⟨f.slot_lt h hh, f.slot_ne h hh⟩
  · obtain ⟨z, m, hz, hfree, h1, h2⟩ := hM h q hq
    exact .inr ⟨z, m, hz, hfree, by omega, by omega⟩

/-- A change of links keeps the tags and what is allocated. -/
lemma Tiles.relink (h : Tiles f s bs) (hM : Cells f bs M) (hsame : s.SameBut (Link f M) s') :
    Tiles f s' bs ∧ Keeps (Live f.first bs) s s' := by
  have hlt := f.one_lt
  have hfirst : f.first = f.last + 1 := rfl
  have hno : ∀ {x b}, At f.first bs x b → ∀ i, x ≤ i → i < x + b.words →
      (b.alloc = true ∨ i = x ∨ i = x + b.words - 1) → ¬ Link f M i := by
    -- a link is inside a free block and no tag of it, and two blocks do not overlap
    intro x b hx i h1 h2 hout hi
    have hbx := hx.bounds
    rcases hM.link hi with hi | ⟨z, m, hz, hfree, h3, h4⟩
    · omega
    · rcases hx.disjoint hz with ⟨rfl, rfl⟩ | hd | hd
      · rw [hfree] at hout
        rcases hout with hout | hout | hout
        · cases hout
        · omega
        · omega
      · omega
      · omega
  constructor
  · refine ⟨hsame.brk.trans h.brk, hsame.brk ▸ h.le, hsame.cap ▸ h.cap, ?_, ?_,
      h.tags.congr fun x b hx => ?_⟩
    · rw [hsame.word fun hi => ?_, h.prologue]
      rcases hM.link hi with hi | ⟨z, m, hz, -, h1, -⟩
      · exact hi.2 rfl
      · have := hz.bounds
        omega
    · rw [hsame.word fun hi => ?_, h.last]
      rcases hM.link hi with hi | ⟨z, m, hz, -, h1, -⟩
      · omega
      · have := hz.bounds
        omega
    · have hw := b.words_ge
      exact ⟨hsame.word (hno hx x le_rfl (by omega) (.inr (.inl rfl))),
        hsame.word (hno hx _ (by omega) (by omega) (.inr (.inr rfl)))⟩
  · rintro x b ⟨hx, hb⟩ i h1 h2
    exact hsame.bytes i (hno hx _ h1 h2 (.inl hb))

namespace Heap

lemma congr_mem (h : Heap f s bs M) (hM : ∀ j q, M' j q ↔ M j q) : Heap f s bs M' := by
  obtain rfl : M' = M := funext fun j => funext fun q => propext (hM j q)
  exact h

lemma inside (h : Heap f s bs M) {j q : ℕ} (hq : M j q) : 4 * (q + 4) ≤ s.brk := by
  have := h.cells.bounds hq
  rw [h.tiles.brk]
  omega

/-- A change of links, after which the lists have the members `M'`. -/
lemma relink (h : Tiles f s bs) (hlists : Lists f s'.word M') (hM : Cells f bs M')
    (hsame : s.SameBut (Link f M') s') (hfree : ∀ {j q}, M' j q → s.word q % 2 = 0) :
    Heap f s' bs M' ∧ Keeps (Live f.first bs) s s' := by
  obtain ⟨htiles, hkeep⟩ := h.relink hM hsame
  refine ⟨⟨htiles, hlists, hM, fun {j q} hq => ?_⟩, hkeep⟩
  -- the header of a listed block holds no link
  rw [hsame.word fun hi => ?_, hfree hq]
  rcases hi with ⟨k, hk, rfl⟩ | ⟨k, r, hr, hi⟩
  · have := f.slot_lt k hk
    have := (hlists.inside hq).2
    omega
  · have := hlists.apart hq hr
    omega

/-- Tags written over the blocks `mid` keep the lists, if they make one free block of
them. -/
lemma retag (h : Heap f s (pre ++ mid ++ post) M) (hm : m.words = len mid)
    (hfree : m.alloc = false) :
    Heap f (s.retag (f.first + len pre) m) (pre ++ m :: post) M := by
  have hw := m.words_ge
  have hfirst : f.first = f.last + 1 := rfl
  -- a listed block is clear of the tags that are written, but for its header
  have hq : ∀ {j q}, M j q → q + 3 < f.first + len pre ∨ f.first + len pre + len mid ≤ q ∨
      (f.first + len pre ≤ q ∧ q + 4 ≤ f.first + len pre + len mid) := by
    intro j q hq
    obtain ⟨z, c, hz, -, h1, h2⟩ := h.cells j q hq
    simp only [at_append, len_append, or_assoc] at hz
    rcases hz with hz | hz | hz
    · have := hz.bounds
      omega
    · have := hz.bounds
      omega
    · have := hz.bounds
      omega
  refine ⟨h.tiles.retag hm, h.lists.congr fun i hi => ?_, fun j q hmem => ?_, fun {j q} hmem => ?_⟩
  · rw [Segment.retag, Segment.word_setWord_ne, Segment.word_setWord_ne]
    all_goals
      rcases hi with ⟨k, hk, rfl⟩ | ⟨k, q, hmem, hi⟩
      · have := f.slot_lt k hk
        omega
      · have := hq hmem
        omega
  · obtain ⟨z, c, hz, hc, h1, h2⟩ := h.cells j q hmem
    simp only [at_append, len_append, or_assoc] at hz
    simp only [at_append, at_cons, hm]
    rcases hz with hz | hz | hz
    · exact ⟨z, c, .inl hz, hc, h1, h2⟩
    · have := hz.bounds
      exact ⟨f.first + len pre, m, .inr (.inl ⟨rfl, rfl⟩), hfree, by omega, by omega⟩
    · refine ⟨z, c, .inr (.inr ?_), hc, h1, h2⟩
      rwa [Nat.add_assoc]
  · -- a header that is written over is that of the merged block, which is free too
    have hpar := h.free hmem
    have hrange := hq hmem
    rw [Segment.retag, Segment.word_setWord_ne _ _ (by omega), Segment.word_setWord]
    split
    · have := m.dvd
      rw [Block.tag_of_free hfree]
      omega
    · exact hpar

lemma tagless (h : Heap f s bs M) (x : ℕ) : Tagless f s M x where
  lists := h.lists
  le := h.tiles.le
  inside := h.inside
  last := by rw [h.tiles.last]
  free hq _ := h.free hq

end Heap

end Links

/-! ## The parts that differ -/

/-- The parts in which the two files differ. -/
structure Code where
  setNext : ℕ → ℕ → HeapM Unit
  placeFreeBlock : ℕ → HeapM ℕ
  joinPrev : ℕ → HeapM ℕ
  afterSplit : ℕ → ℕ → HeapM Unit
  findFit : ℕ → HeapM (Option ℕ)

/-- `x` is on the list of `k` now. -/
def Relist (M : ℕ → ℕ → Prop) (x k j q : ℕ) : Prop := (M j q ∧ q ≠ x) ∨ (j = k ∧ q = x)

/-- A member may stay on its list. -/
lemma relist_self {f : Format} {rd : ℕ → ℕ} {M : ℕ → ℕ → Prop} {x k j q : ℕ} (h : Lists f rd M)
    (hk : M k x) : Relist M x k j q ↔ M j q := by
  constructor
  · rintro (hq | ⟨rfl, rfl⟩)
    · exact hq.1
    · exact hk
  · intro hq
    by_cases hqx : q = x
    · exact .inr ⟨h.head_eq hk (hqx ▸ hq), hqx⟩
    · exact .inl ⟨hq, hqx⟩

/-- A block that is on no list is put on the one for its size. -/
def PlacesFree (f : Format) (placeFreeBlock : ℕ → HeapM ℕ) : Prop :=
  ∀ {s M x}, Tagless f s M x → f.last < x → 4 * (x + 4) ≤ s.brk →
    (∀ {j q}, M j q → q + 4 ≤ x ∨ x + 4 ≤ q) →
    wp (placeFreeBlock x) (fun r s' => r = x ∧
      Lists f s'.word (fun j q => M j q ∨ (j = f.head (s.word x / 8 * 8) ∧ q = x)) ∧
      s.SameBut (Link f fun j q => M j q ∨ (j = f.head (s.word x / 8 * 8) ∧ q = x)) s') s

/-- What these parts do. -/
structure Implements (f : Format) (c : Code) : Prop where
  setNext : SetsNext f c.setNext
  placeFreeBlock : PlacesFree f c.placeFreeBlock
  /-- A listed block that has grown goes to the list for its size. -/
  joinPrev : ∀ {s bs M x k m}, Heap f s bs M → At f.first bs x m → m.alloc = false → M k x →
    wp (c.joinPrev x) (fun r s' => r = x ∧ Heap f s' bs (Relist M x (f.head m.size)) ∧
      Keeps (Live f.first bs) s s') s
  /-- What is left of a block goes to the list for its size. -/
  afterSplit : ∀ {s bs M y d n}, Heap f s bs M → At f.first bs y d → d.alloc = false →
    M (f.head n) y → n < 2 ^ 32 →
    wp (c.afterSplit n y) (fun _ s' => Heap f s' bs (Relist M y (f.head d.size)) ∧
      Keeps (Live f.first bs) s s') s
  findFit : ∀ {s bs}, Heap f s bs (Listed f f.first bs) → ∀ size < 2 ^ 32,
    wp (c.findFit size) (fun r s' => s' = s ∧ FindsFit f.first bs size r) s

namespace Heap

variable {f : Format} {s : Segment} {bs : Layout} {M : ℕ → ℕ → Prop} {k x : ℕ} {m : Block}

/-- A listed block is taken from its list. -/
lemma removeBlock {setNext : ℕ → ℕ → HeapM Unit} (hset : SetsNext f setNext)
    (h : Heap f s bs M) (hx : M k x) :
    wp (removeBlockWith setNext x) (fun _ s' => Heap f s' bs (fun j q => M j q ∧ q ≠ x) ∧
      Keeps (Live f.first bs) s s') s := by
  refine wp_mono (removeBlock_links hset (h.tagless x) hx) ?_
  rintro _ s' ⟨hlists, hsame⟩
  exact relink h.tiles hlists (fun j q hq => h.cells j q hq.1) hsame fun hq => h.free hq.1

/-- A free block is put on the list for its size. -/
lemma placeFree {placeFreeBlock : ℕ → HeapM ℕ} (hplace : PlacesFree f placeFreeBlock)
    (h : Heap f s bs M) (hx : At f.first bs x m) (hfree : m.alloc = false)
    (hapart : ∀ {j q}, M j q → q + 4 ≤ x ∨ x + 4 ≤ q) :
    wp (placeFreeBlock x) (fun r s' => r = x ∧
      Heap f s' bs (fun j q => M j q ∨ (j = f.head m.size ∧ q = x)) ∧
      Keeps (Live f.first bs) s s') s := by
  have hbounds := hx.bounds
  have hw := m.words_ge
  have hfirst : f.first = f.last + 1 := rfl
  have htag := (h.tiles.tags x m hx).1
  have hin : 4 * (x + 4) ≤ s.brk := by
    rw [h.tiles.brk]
    omega
  refine wp_mono (hplace (h.tagless x) (by omega) hin hapart) ?_
  rw [htag, m.tag_div]
  rintro r s' ⟨rfl, hlists, hsame⟩
  refine ⟨rfl, relink h.tiles hlists ?_ hsame ?_⟩
  · rintro j q (hq | ⟨rfl, rfl⟩)
    · exact h.cells j q hq
    · exact ⟨q, m, hx, hfree, le_rfl, by omega⟩
  · rintro j q (hq | ⟨rfl, rfl⟩)
    · exact h.free hq
    · have := m.dvd
      rw [htag, Block.tag_of_free hfree]
      omega

end Heap

/-! ## `coalesce` -/

/-- `coalesce(block)`. -/
def Code.coalesce (c : Code) : ℕ → HeapM ℕ :=
  coalesceWith (removeBlockWith c.setNext) c.placeFreeBlock c.joinPrev

section Cases
variable {f : Format} {c : Code} {s : Segment} {pre post : Layout} {b p n : Block} {x : ℕ}
  {Q : ℕ → Segment → Prop}

/-- The word before a block tells whether the previous block is allocated. -/
lemma Tiles.prev_alloc (h : Tiles f s (pre ++ post)) :
    s.word (f.first + len pre - 1) % 2 = 1 ↔ ∀ q ∈ pre.getLast?, q.alloc = true := by
  rcases List.eq_nil_or_concat' pre with rfl | ⟨pre, p, rfl⟩
  · simp [Format.first, h.last]
  · rw [List.append_assoc] at h
    have hw := p.words_ge
    have hfoot : f.first + len (pre ++ [p]) - 1 = f.first + len pre + p.words - 1 := by
      simp only [len_append, len_cons, len_nil]
      omega
    rw [hfoot, h.word_footer, p.tag_mod]
    cases hp : p.alloc <;> simp [hp]

/-- The last block of the heap is not merged. -/
lemma coalesce_last (h : Tiles f s (pre ++ [b])) (hx : x = f.first + len pre)
    (hb : b.alloc = false) (hQ : wp (c.placeFreeBlock x) Q s) : wp (c.coalesce x) Q s := by
  have hbrk := h.brk
  have hhdr := h.word_header
  have hw := b.words_ge
  simp only [len_append, len_cons, len_nil] at hbrk
  rw [Block.tag_of_free hb, ← hx] at hhdr
  have hend : x + b.words - 1 + 1 = x + b.words := by omega
  -- the word behind the footer is outside the heap, so `in_heap` fails
  have hout : ¬ 4 * (x + b.words) < s.brk := by omega
  simpa [Code.coalesce, coalesceWith, getFooterEl, WSIZE, hhdr, hend, hout] using
    ⟨by omega, hQ⟩

/-- Both neighbours are allocated: nothing is merged. -/
lemma coalesce_none (h : Tiles f s (pre ++ b :: n :: post)) (hx : x = f.first + len pre)
    (hb : b.alloc = false) (hp : s.word (x - 1) % 2 = 1) (hn : n.alloc = true)
    (hQ : wp (c.placeFreeBlock x) Q s) : wp (c.coalesce x) Q s := by
  have hbrk := h.brk
  have hhdr := h.word_header
  have hnext := (show Tiles f s ((pre ++ [b]) ++ n :: post) by simpa using h).word_header
  have hw := b.words_ge
  have hnw := n.words_ge
  simp only [len_append, len_cons, len_nil, Nat.add_zero, ← Nat.add_assoc] at hbrk hnext
  rw [Block.tag_of_free hb, ← hx] at hhdr
  rw [← hx] at hbrk hnext
  have hend : x + b.words - 1 + 1 = x + b.words := by omega
  have hin : 4 * (x + b.words) < s.brk := by omega
  have hodd : n.tag % 2 = 1 := by rw [n.tag_mod, hn]; rfl
  simp [Code.coalesce, coalesceWith, getFooterEl, WSIZE, hhdr, hend, hin, hnext, hp, hodd]
  exact ⟨by omega, by omega, by omega, by omega, by omega, hQ⟩

/-- Only the next block is free: the tags of both become those of one block. -/
lemma coalesce_next (h : Tiles f s (pre ++ b :: n :: post)) (hx : x = f.first + len pre)
    (hb : b.alloc = false) (hp : s.word (x - 1) % 2 = 1) (hn : n.alloc = false)
    (hQ : wp (do removeBlockWith c.setNext (x + b.words); c.placeFreeBlock x) Q
      (s.retag x (b.join n))) : wp (c.coalesce x) Q s := by
  have hbrk := h.brk
  have hle := h.le
  have hhdr := h.word_header
  have hnext := (show Tiles f s ((pre ++ [b]) ++ n :: post) by simpa using h).word_header
  have hw := b.words_ge
  have hnw := n.words_ge
  have hb4 := b.four_words
  have hn4 := n.four_words
  simp only [len_append, len_cons, len_nil, Nat.add_zero, ← Nat.add_assoc] at hbrk hnext
  rw [Block.tag_of_free hb, ← hx] at hhdr
  rw [← hx] at hbrk hnext
  rw [Block.tag_of_free hn] at hnext
  have hodd : n.size % 2 = 0 := by have := n.dvd; omega
  have hadd : szAdd b.size n.size = (b.join n).size := szAdd_eq (by omega)
  -- `z` is the successor's header
  obtain ⟨z, hz⟩ : ∃ z, x + b.words = z := ⟨_, rfl⟩
  rw [hz] at hnext hbrk hQ
  have hin : 4 * z < s.brk := by omega
  have hend : x + b.words - 1 + 1 = z := by omega
  have hne : z ≠ x := by omega
  have hfoot : x + (b.words + n.words) - 1 = z + n.words - 1 := by omega
  have hfoot' : x + b.words - 1 + n.words = z + n.words - 1 := by omega
  simp [Segment.retag, hfoot] at hQ
  simp [Code.coalesce, coalesceWith, getFooterEl, WSIZE, hhdr, hend, hin, hnext, hp, hodd, hadd,
    pack_zero, Segment.word_setWord, hne, hfoot']
  exact ⟨by omega, by omega, by omega, by omega, by omega, by omega, by omega, by omega, by omega,
    hQ⟩

/-- Only the previous block is free: the tags of both become those of one block. -/
lemma coalesce_prev (h : Tiles f s (pre ++ p :: b :: n :: post)) (hx : x = f.first + len pre)
    (hb : b.alloc = false) (hp : p.alloc = false) (hn : n.alloc = true)
    (hQ : wp (c.joinPrev x) Q (s.retag x (p.join b))) : wp (c.coalesce (x + p.words)) Q s := by
  have hbrk := h.brk
  have hle := h.le
  have hphdr := h.word_header
  have hpftr := h.word_footer
  have hhdr := (show Tiles f s ((pre ++ [p]) ++ b :: n :: post) by simpa using h).word_header
  have hnext := (show Tiles f s ((pre ++ [p, b]) ++ n :: post) by simpa using h).word_header
  simp only [len_append, len_cons, len_nil, Nat.add_zero, ← Nat.add_assoc] at hbrk hhdr hnext
  rw [← hx] at hbrk hphdr hpftr hhdr hnext
  rw [Block.tag_of_free hb] at hhdr
  rw [Block.tag_of_free hp] at hphdr hpftr
  have hb4 := b.four_words
  have hp4 := p.four_words
  have hpw := p.words_ge
  have hw := b.words_ge
  have hnw := n.words_ge
  have hodd : p.size % 2 = 0 := by have := p.dvd; omega
  have hodd' : n.tag % 2 = 1 := by rw [n.tag_mod, hn]; rfl
  have hadd : szAdd b.size p.size = (p.join b).size := by
    rw [Block.join_size, szAdd_eq (by omega), Nat.add_comm]
  -- `y` is the block's header
  obtain ⟨y, hy⟩ : ∃ y, x + p.words = y := ⟨_, rfl⟩
  rw [hy] at hhdr hpftr hnext hbrk ⊢
  have hin : 4 * (y + b.words) < s.brk := by omega
  have hend : y + b.words - 1 + 1 = y + b.words := by omega
  have hne : y ≠ x := by omega
  have hhere : y - p.words = x := by omega
  have hfoot : x + (p.words + b.words) - 1 = y + b.words - 1 := by omega
  simp [Segment.retag, hfoot] at hQ
  simp [Code.coalesce, coalesceWith, getFooterEl, WSIZE, hhdr, hphdr, hpftr, hend, hin, hnext,
    hodd, hodd', hadd, pack_zero, Segment.word_setWord, hne, hhere]
  exact ⟨by omega, by omega, by omega, by omega, by omega, by omega, by omega, by omega, by omega,
    hQ⟩

/-- Both neighbours are free: the tags of all three become those of one block. -/
lemma coalesce_both (h : Tiles f s (pre ++ p :: b :: n :: post)) (hx : x = f.first + len pre)
    (hb : b.alloc = false) (hp : p.alloc = false) (hn : n.alloc = false)
    (hQ : wp (do
      removeBlockWith c.setNext x
      removeBlockWith c.setNext (x + p.words + b.words)
      c.placeFreeBlock x) Q (s.retag x ((p.join b).join n))) :
    wp (c.coalesce (x + p.words)) Q s := by
  have hbrk := h.brk
  have hle := h.le
  have hphdr := h.word_header
  have hpftr := h.word_footer
  have hhdr := (show Tiles f s ((pre ++ [p]) ++ b :: n :: post) by simpa using h).word_header
  have hnext := (show Tiles f s ((pre ++ [p, b]) ++ n :: post) by simpa using h).word_header
  simp only [len_append, len_cons, len_nil, Nat.add_zero, ← Nat.add_assoc] at hbrk hhdr hnext
  rw [← hx] at hbrk hphdr hpftr hhdr hnext
  rw [Block.tag_of_free hb] at hhdr
  rw [Block.tag_of_free hp] at hphdr hpftr
  rw [Block.tag_of_free hn] at hnext
  have hb4 := b.four_words
  have hp4 := p.four_words
  have hn4 := n.four_words
  have hpw := p.words_ge
  have hw := b.words_ge
  have hnw := n.words_ge
  have hodd : p.size % 2 = 0 := by have := p.dvd; omega
  have hodd' : n.size % 2 = 0 := by have := n.dvd; omega
  have hadd : szAdd b.size (uAdd p.size n.size) = ((p.join b).join n).size := by
    rw [Block.join_size, Block.join_size, uAdd_eq (by omega), szAdd_eq (by omega)]
    omega
  -- `y` and `z` are the headers of the block and of its successor
  obtain ⟨y, hy⟩ : ∃ y, x + p.words = y := ⟨_, rfl⟩
  rw [hy] at hhdr hpftr hnext hbrk hQ ⊢
  obtain ⟨z, hz⟩ : ∃ z, y + b.words = z := ⟨_, rfl⟩
  rw [hz] at hnext hbrk hQ
  have hin : 4 * z < s.brk := by omega
  have hend : y + b.words - 1 + 1 = z := by omega
  have hne : z ≠ x := by omega
  have hhere : y - p.words = x := by omega
  have hfoot : x + (p.words + b.words + n.words) - 1 = z + n.words - 1 := by omega
  have hfoot' : y + b.words - 1 + n.words = z + n.words - 1 := by omega
  simp [Segment.retag, hfoot] at hQ
  simp [Code.coalesce, coalesceWith, getFooterEl, WSIZE, hhdr, hphdr, hpftr, hend, hin, hnext,
    hodd, hodd', hadd, pack_zero, Segment.word_setWord, hne, hhere, hfoot']
  exact ⟨by omega, by omega, by omega, by omega, by omega, by omega, by omega, by omega, by omega,
    by omega, by omega, hQ⟩

end Cases

/-- What `coalesce` does when it is called on the free block `b` between `pre` and `post`,
which is on no list, and returns `r`: free neighbours are merged unless `b` is the last block,
the lists hold all free blocks, and no allocated block is touched. -/
structure Coalesces (f : Format) (s : Segment) (pre : Layout) (b : Block) (post : Layout) (r : ℕ)
    (s' : Segment) (bs' : Layout) : Prop where
  heap : Heap f s' bs' (Listed f f.first bs')
  merges : Merges (pre ++ b :: post) bs'
  keeps : Keeps (Live f.first (pre ++ b :: post)) s s'
  block : ∃ m, At f.first bs' r m ∧ m.alloc = false ∧ b.size ≤ m.size
  last : post = [] → bs' = pre ++ [b] ∧ r = f.first + len pre
  coalesced : post ≠ [] → Coalesced pre → Coalesced post → Coalesced bs'

section Coalesce
variable {f : Format} {c : Code} {s : Segment} {pre post : Layout} {b p n : Block} {x : ℕ}

/-- The free blocks but for the one at `x`. -/
def Others (f : Format) (bs : Layout) (x h q : ℕ) : Prop := Listed f f.first bs h q ∧ q ≠ x

/-- A block that is merged with nothing is put on its list. -/
lemma coalesces_alone (hc : Implements f c)
    (h : Heap f s (pre ++ b :: post) (Others f (pre ++ b :: post) x))
    (hx : x = f.first + len pre) (hb : b.alloc = false)
    (hco : post ≠ [] → Coalesced pre → Coalesced post → Coalesced (pre ++ b :: post)) :
    wp (c.placeFreeBlock x) (fun r s' => ∃ bs', Coalesces f s pre b post r s' bs') s := by
  have hw := b.words_ge
  have hxb : At f.first (pre ++ b :: post) x b := by simp [hx]
  have hapart : ∀ {j q}, Others f (pre ++ b :: post) x j q → q + 4 ≤ x ∨ x + 4 ≤ q := by
    rintro j q ⟨⟨d, hd, -⟩, hne⟩
    have := d.words_ge
    rcases hd.disjoint hxb with ⟨heq, -⟩ | h | h
    · exact absurd heq hne
    · omega
    · omega
  refine wp_mono (h.placeFree hc.placeFreeBlock hxb hb hapart) ?_
  rintro r s' ⟨rfl, hheap, hkeep⟩
  refine ⟨_, hheap.congr_mem fun j q => ?_, merges_self hb, hkeep, ⟨b, hxb, hb, le_rfl⟩,
    fun hpost => ⟨by rw [hpost], hx⟩, hco⟩
  constructor
  · intro hq
    by_cases hqr : q = r
    · obtain ⟨d, hd, -, hj⟩ := hq
      obtain rfl := (hqr ▸ hd).unique hxb
      exact .inr ⟨hj.symm, hqr⟩
    · exact .inl ⟨hq, hqr⟩
  · rintro (hq | ⟨rfl, rfl⟩)
    · exact hq.1
    · exact ⟨b, hxb, hb, rfl⟩

/-- Blocks `mid` that have become one block `m`, on the list for its size, are merged. -/
lemma coalesces_merged {pre' mid post' : Layout} {m : Block} {s₁ s' : Segment}
    {M : ℕ → ℕ → Prop} (hbs : pre ++ b :: post = pre' ++ mid ++ post') (hpost : post ≠ [])
    (hfree : ∀ d ∈ mid, d.alloc = false) (hm : m.words = len mid) (hmfree : m.alloc = false)
    (hsize : b.size ≤ m.size) (hs₁ : s₁ = s.retag (f.first + len pre') m)
    (hheap : Heap f s' (pre' ++ m :: post') M)
    (hM : ∀ j q, M j q ↔ (Listed f f.first (pre' ++ mid ++ post') j q ∧
      ¬ (f.first + len pre' ≤ q ∧ q < f.first + len pre' + len mid)) ∨
        (j = f.head m.size ∧ q = f.first + len pre'))
    (hkeep : Keeps (Live f.first (pre' ++ m :: post')) s₁ s')
    (hco : Coalesced pre → Coalesced post → Coalesced (pre' ++ m :: post')) :
    Coalesces f s pre b post (f.first + len pre') s' (pre' ++ m :: post') := by
  have hmerges : Merges (pre ++ b :: post) (pre' ++ m :: post') :=
    ⟨pre', mid, m, post', hbs, rfl, hfree, hmfree, hm⟩
  refine ⟨hheap.congr_mem fun j q => ?_, hmerges, ?_, ⟨m, by simp, hmfree, hsize⟩,
    fun h => absurd h hpost, fun _ => hco⟩
  · rw [hM, listed_merge hmfree hm]
  · -- tags are written over free blocks only, and then nothing that is allocated changes
    refine Keeps.trans ?_ (hkeep.mono fun y d hy => hmerges.live_iff.2 hy)
    rw [hs₁, hbs]
    exact keeps_replace hfree (sameBut_retag s m le_rfl (by omega))

lemma coalesces_next (hc : Implements f c)
    (h : Heap f s (pre ++ b :: n :: post) (Others f (pre ++ b :: n :: post) (f.first + len pre)))
    (hb : b.alloc = false) (hp : ∀ q ∈ pre.getLast?, q.alloc = true) (hn : n.alloc = false) :
    wp (c.coalesce (f.first + len pre))
      (fun r s' => ∃ bs', Coalesces f s pre b (n :: post) r s' bs') s := by
  have hw := b.words_ge
  have hnw := n.words_ge
  have hmid : pre ++ b :: n :: post = pre ++ [b, n] ++ post := by simp
  -- the blocks that stay on their lists are apart from the two that are merged
  have hrest : ∀ {j q}, Listed f f.first (pre ++ b :: n :: post) j q →
      (q + 4 ≤ f.first + len pre ∨ f.first + len pre + b.words + n.words ≤ q) ∨
        q = f.first + len pre ∨ q = f.first + len pre + b.words := by
    intro j q hq
    simp only [listed_append, listed_cons] at hq
    rcases hq with hq | hq | hq | hq
    · exact .inl (.inl hq.bounds.2)
    · exact .inr (.inl hq.1)
    · exact .inr (.inr hq.1)
    · exact .inl (.inr hq.bounds.1)
  apply coalesce_next h.tiles rfl hb (h.tiles.prev_alloc.2 hp) hn
  -- the tags are merged first, while the next block is still on its list
  have h₁ := (hmid ▸ h).retag (m := b.join n) (by simp) rfl
  rw [← hmid] at h₁
  have hy : Others f (pre ++ b :: n :: post) (f.first + len pre) (f.head n.size)
      (f.first + len pre + b.words) := ⟨by simp [hn], by omega⟩
  refine wp_call (h₁.removeBlock hc.setNext hy) ?_
  rintro _ s₂ ⟨h₂, hk₂⟩
  refine wp_mono (h₂.placeFree hc.placeFreeBlock (m := b.join n) (by simp) rfl fun {j q} hq => ?_) ?_
  · have := hrest hq.1.1
    have := hq.1.2
    have := hq.2
    omega
  rintro _ s₃ ⟨rfl, h₃, hk₃⟩
  refine ⟨_, coalesces_merged hmid (by simp) (by simp [hb, hn]) (by simp) rfl (by simp) rfl h₃
    (fun j q => or_congr_left ?_) (hk₂.trans hk₃) fun hpre hpost => ?_⟩
  · rw [← hmid, Others, and_assoc]
    apply and_congr_right
    intro hq
    have := hrest hq
    simp only [len_cons, len_nil]
    omega
  · exact hpre.insert _ hpost.tail hp (hpost.head_alloc hn)

lemma coalesces_prev (hc : Implements f c)
    (h : Heap f s (pre ++ p :: b :: n :: post)
      (Others f (pre ++ p :: b :: n :: post) (f.first + len pre + p.words)))
    (hb : b.alloc = false) (hp : p.alloc = false) (hn : n.alloc = true) :
    wp (c.coalesce (f.first + len pre + p.words))
      (fun r s' => ∃ bs', Coalesces f s (pre ++ [p]) b (n :: post) r s' bs') s := by
  have hpw := p.words_ge
  have hw := b.words_ge
  have hmid : pre ++ p :: b :: n :: post = pre ++ [p, b] ++ n :: post := by simp
  have hbs : pre ++ [p] ++ b :: n :: post = pre ++ [p, b] ++ n :: post := by simp
  have hrest : ∀ {j q}, Listed f f.first (pre ++ p :: b :: n :: post) j q →
      (q + 4 ≤ f.first + len pre ∨ f.first + len pre + p.words + b.words ≤ q) ∨
        q = f.first + len pre ∨ q = f.first + len pre + p.words := by
    intro j q hq
    simp only [listed_append, listed_cons] at hq
    rcases hq with hq | hq | hq | hq | hq
    · exact .inl (.inl hq.bounds.2)
    · exact .inr (.inl hq.1)
    · exact .inr (.inr hq.1)
    · exact .inl (.inr hq.1.ge)
    · have := hq.bounds
      exact .inl (.inr (by omega))
  apply coalesce_prev h.tiles rfl hb hp hn
  -- the previous block has grown, and is still on the list for its old size
  have h₁ := (hmid ▸ h).retag (m := p.join b) (by simp) rfl
  rw [← hmid] at h₁
  have hx : Others f (pre ++ p :: b :: n :: post) (f.first + len pre + p.words)
      (f.head p.size) (f.first + len pre) := ⟨by simp [hp], by omega⟩
  refine wp_mono (hc.joinPrev h₁ (m := p.join b) (by simp) rfl hx) ?_
  rintro _ s₂ ⟨rfl, h₂, hk₂⟩
  refine ⟨_, coalesces_merged hbs (by simp) (by simp [hb, hp]) (by simp) rfl (by simp) rfl h₂
    (fun j q => or_congr_left ?_) hk₂ fun hpre hpost => ?_⟩
  · rw [← hmid, Others, and_assoc]
    apply and_congr_right
    intro hq
    have := hrest hq
    simp only [len_cons, len_nil]
    omega
  · exact hpre.left.insert _ hpost (hpre.last_alloc hp) (by simpa using hn)

lemma coalesces_both (hc : Implements f c)
    (h : Heap f s (pre ++ p :: b :: n :: post)
      (Others f (pre ++ p :: b :: n :: post) (f.first + len pre + p.words)))
    (hb : b.alloc = false) (hp : p.alloc = false) (hn : n.alloc = false) :
    wp (c.coalesce (f.first + len pre + p.words))
      (fun r s' => ∃ bs', Coalesces f s (pre ++ [p]) b (n :: post) r s' bs') s := by
  have hpw := p.words_ge
  have hw := b.words_ge
  have hnw := n.words_ge
  have hmid : pre ++ p :: b :: n :: post = pre ++ [p, b, n] ++ post := by simp
  have hbs : pre ++ [p] ++ b :: n :: post = pre ++ [p, b, n] ++ post := by simp
  -- a member is one of the three blocks or is apart from them
  have hrest : ∀ {j q}, Listed f f.first (pre ++ p :: b :: n :: post) j q →
      (q + 4 ≤ f.first + len pre ∨ f.first + len pre + p.words + b.words + n.words ≤ q) ∨
        q = f.first + len pre ∨ q = f.first + len pre + p.words ∨
          q = f.first + len pre + p.words + b.words := by
    intro j q hq
    simp only [listed_append, listed_cons] at hq
    rcases hq with hq | hq | hq | hq | hq
    · exact .inl (.inl hq.bounds.2)
    · exact .inr (.inl hq.1)
    · exact .inr (.inr (.inl hq.1))
    · exact .inr (.inr (.inr hq.1))
    · exact .inl (.inr hq.bounds.1)
  apply coalesce_both h.tiles rfl hb hp hn
  have h₁ := (hmid ▸ h).retag (m := (p.join b).join n) (by simp [Nat.add_assoc]) rfl
  rw [← hmid] at h₁
  -- the one in front is taken off its list
  have hx : Others f (pre ++ p :: b :: n :: post) (f.first + len pre + p.words)
      (f.head p.size) (f.first + len pre) := ⟨by simp [hp], by omega⟩
  refine wp_call (h₁.removeBlock hc.setNext hx) ?_
  rintro _ s₂ ⟨h₂, hk₂⟩
  -- then the one behind
  have hz : Others f (pre ++ p :: b :: n :: post) (f.first + len pre + p.words)
      (f.head n.size) (f.first + len pre + p.words + b.words) ∧
        f.first + len pre + p.words + b.words ≠ f.first + len pre :=
    ⟨⟨by simp [hn], by omega⟩, by omega⟩
  refine wp_call (h₂.removeBlock hc.setNext hz) ?_
  rintro _ s₃ ⟨h₃, hk₃⟩
  refine wp_mono (h₃.placeFree hc.placeFreeBlock (m := (p.join b).join n) (by simp) rfl
    fun {j q} hq => ?_) ?_
  · have := hrest hq.1.1.1
    have := hq.1.1.2
    have := hq.1.2
    have := hq.2
    omega
  rintro _ s₄ ⟨rfl, h₄, hk₄⟩
  refine ⟨_, coalesces_merged hbs (by simp) (by simp [hb, hp, hn])
    (by simp [Nat.add_assoc]) rfl (by simp only [Block.join_size]; omega) rfl h₄
    (fun j q => or_congr_left ?_) ((hk₂.trans hk₃).trans hk₄) fun hpre hpost => ?_⟩
  · rw [← hmid, Others, and_assoc, and_assoc]
    apply and_congr_right
    intro hq
    have := hrest hq
    simp only [len_cons, len_nil]
    omega
  · exact hpre.left.insert _ hpost.tail (hpre.last_alloc hp) (hpost.head_alloc hn)

/-- `coalesce` merges a free block with its free neighbours, unless it is the last one. -/
theorem coalesce_spec (hc : Implements f c)
    (h : Heap f s (pre ++ b :: post) (Others f (pre ++ b :: post) (f.first + len pre)))
    (hb : b.alloc = false) :
    wp (c.coalesce (f.first + len pre)) (fun r s' => ∃ bs', Coalesces f s pre b post r s' bs') s := by
  cases post with
  | nil =>
    exact coalesce_last h.tiles rfl hb (coalesces_alone hc h rfl hb fun h => absurd rfl h)
  | cons n post =>
    by_cases hp : ∀ q ∈ pre.getLast?, q.alloc = true <;> cases hn : n.alloc
    · exact coalesces_next hc h hb hp hn
    · apply coalesce_none h.tiles rfl hb (h.tiles.prev_alloc.2 hp) hn
      apply coalesces_alone hc h rfl hb
      intro _ hpre hpost
      exact hpre.insert b hpost hp (by simpa using hn)
    -- the previous block is free, so there is one
    all_goals
      obtain ⟨pre, p, rfl, hpfree⟩ : ∃ pre' p, pre = pre' ++ [p] ∧ p.alloc = false := by
        rcases List.eq_nil_or_concat' pre with rfl | ⟨pre', p, rfl⟩
        · simp at hp
        · exact ⟨pre', p, rfl, by simpa using hp⟩
      have hx : f.first + len (pre ++ [p]) = f.first + len pre + p.words := by
        simp [Nat.add_assoc]
      rw [List.append_assoc, List.singleton_append, hx] at h
      rw [hx]
    · exact coalesces_both hc h hb hpfree hn
    · exact coalesces_prev hc h hb hpfree hn

end Coalesce

end ListBased
end Malloclab
end SystemsLabs
