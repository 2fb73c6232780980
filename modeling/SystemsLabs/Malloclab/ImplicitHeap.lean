import SystemsLabs.Malloclab.Implicit
import SystemsLabs.Malloclab.Contract

/-!
# The heap of `mm-implicit.c`

`Tiles s bs` says that the segment `s` is the heap of the allocator with the blocks `bs`:
a prologue of one empty block at words 1 and 2, the blocks from word 3 on, and the
epilogue in the last word. Each function of the allocator is specified by what it does to
`bs`, once, and callers use only that.
-/

namespace SystemsLabs
namespace Malloclab
namespace Implicit

open Memory Layout

/-- The heap: prologue, blocks from word 3, epilogue in the last word. -/
structure Tiles (s : Segment) (bs : Layout) : Prop where
  brk : s.brk = 4 * (4 + len bs)
  le : s.brk ≤ 2 ^ 32
  cap : s.cap ≤ 2 ^ 32
  header : s.word 1 = 9
  footer : s.word 2 = 9
  tags : Tagged s.word 3 bs
  epilogue : s.word (3 + len bs) = 1

/-- The tag before the block that follows `pre`: its last block's, or the prologue's. -/
def prevTag (pre : Layout) : ℕ := (pre.getLast?.map Block.tag).getD 9

/-- The tag after the block that `post` follows: its first block's, or the epilogue. -/
def nextTag (post : Layout) : ℕ := (post.head?.map Block.tag).getD 1

@[simp] lemma nextTag_nil : nextTag [] = 1 := rfl

@[simp] lemma nextTag_cons (n : Block) (post : Layout) : nextTag (n :: post) = n.tag := rfl

lemma prevTag_odd {pre : Layout} :
    prevTag pre % 2 = 1 ↔ ∀ q ∈ pre.getLast?, q.alloc = true := by
  unfold prevTag
  cases pre.getLast? with
  | none => simp
  | some p => cases h : p.alloc <;> simp [p.tag_mod, h]

lemma nextTag_odd {post : Layout} :
    nextTag post % 2 = 1 ↔ ∀ q ∈ post.head?, q.alloc = true := by
  unfold nextTag
  cases post.head? with
  | none => simp
  | some p => cases h : p.alloc <;> simp [p.tag_mod, h]

namespace Tiles

variable {s : Segment} {pre mid post : Layout} {b m : Block}

/-- Blocks whose tags are written over a stretch of others replace them in the heap. -/
lemma replace {s' : Segment} {mid' : Layout} (h : Tiles s (pre ++ mid ++ post))
    (hlen : len mid' = len mid) (hmid : Tagged s'.word (3 + len pre) mid')
    (hsame : s.SameBut (Between (3 + len pre) (3 + len pre + len mid)) s') :
    Tiles s' (pre ++ mid' ++ post) := by
  have hep := h.epilogue
  simp only [len_append] at hep
  refine ⟨?_, ?_, ?_, ?_, ?_, h.tags.replace hlen hmid hsame, ?_⟩
  · rw [hsame.brk, h.brk]
    simp only [len_append, hlen]
  · rw [hsame.brk]
    exact h.le
  · rw [hsame.cap]
    exact h.cap
  · rw [hsame.word fun hb => absurd hb.1 (by omega), h.header]
  · rw [hsame.word fun hb => absurd hb.1 (by omega), h.footer]
  · simp only [len_append, hlen]
    rw [hsame.word fun hb => absurd hb.2 (by omega), hep]

/-- A tag of a block of the heap is a 32-bit word. -/
lemma tag_lt (h : Tiles s (pre ++ mid ++ post)) (hm : m.words ≤ len mid) :
    m.tag < 2 ^ 32 := by
  have hsize := m.four_words
  have hbrk := h.brk
  have hle := h.le
  have := m.alloc.toNat_lt
  simp only [len_append] at hbrk
  unfold Block.tag
  omega

/-- Blocks `mid` give way to one block of the same length. -/
lemma retag (h : Tiles s (pre ++ mid ++ post)) (hm : m.words = len mid) :
    Tiles (s.retag (3 + len pre) m) (pre ++ m :: post) := by
  have : Tiles (s.retag (3 + len pre) m) (pre ++ [m] ++ post) :=
    h.replace (by simp [hm]) (tagged_retag s _ (h.tag_lt hm.le))
      (sameBut_retag s m le_rfl (by omega))
  simpa using this

/-- A block gives way to two. -/
lemma cut {d e : Block} (h : Tiles s (pre ++ d :: post)) (hlen : b.words + e.words = d.words) :
    Tiles ((s.retag (3 + len pre) b).retag (3 + len pre + b.words) e) (pre ++ [b, e] ++ post) := by
  have hmid : Tiles s (pre ++ [d] ++ post) := by simpa using h
  apply hmid.replace (by simpa using hlen) _ (sameBut_retag_retag s _ hlen)
  exact tagged_retag_retag s _ (hmid.tag_lt (by simp; omega)) (hmid.tag_lt (by simp; omega))

/-- Payloads may be written. -/
lemma write {s' : Segment} {bs : Layout} {x : ℕ} (h : Tiles s bs) (hx : At 3 bs x b)
    (hsame : s.SameBut (Between (x + 1) (x + b.words - 1)) s') : Tiles s' bs := by
  have hw := b.words_ge
  have hbounds := hx.bounds
  refine ⟨?_, ?_, ?_, ?_, ?_, h.tags.write hx hsame, ?_⟩
  · rw [hsame.brk, h.brk]
  · rw [hsame.brk]
    exact h.le
  · rw [hsame.cap]
    exact h.cap
  · rw [hsame.word fun hi => absurd hi.1 (by omega), h.header]
  · rw [hsame.word fun hi => absurd hi.1 (by omega), h.footer]
  · rw [hsame.word fun hi => absurd hi.2 (by omega), h.epilogue]

lemma word_header (h : Tiles s (pre ++ b :: post)) : s.word (3 + len pre) = b.tag :=
  (h.tags _ b (by simp)).1

lemma word_footer (h : Tiles s (pre ++ b :: post)) :
    s.word (3 + len pre + b.words - 1) = b.tag :=
  (h.tags _ b (by simp)).2

/-- The word before a block, and the header that it leads to, hold the previous tag. -/
lemma word_prev (h : Tiles s (pre ++ post)) :
    s.word (3 + len pre - 1) = prevTag pre ∧
      s.word (3 + len pre - prevTag pre / 8 * 8 / 4) = prevTag pre := by
  rcases List.eq_nil_or_concat' pre with rfl | ⟨pre, p, rfl⟩
  · exact ⟨h.footer, h.header⟩
  · rw [List.append_assoc] at h
    have hw := p.words_ge
    have h1 := h.word_header
    have h2 := h.word_footer
    simp only [prevTag, List.getLast?_append, List.getLast?_singleton, Option.some_or,
      Option.map_some, Option.getD_some, p.tag_div, Block.size_div_four, len_append, len_cons,
      len_nil, Nat.add_zero]
    rw [show 3 + (len pre + p.words) - p.words = 3 + len pre by omega]
    exact ⟨by rw [← h2]; congr 1; omega, h1⟩

/-- The word after a block holds the next tag. -/
lemma word_next (h : Tiles s (pre ++ post)) : s.word (3 + len pre) = nextTag post := by
  cases post with
  | nil => simpa [nextTag] using h.epilogue
  | cons n post => simpa [nextTag] using h.word_header

end Tiles

/-! ## `coalesce` -/

/-- What `coalesce` does when it is called on the free block `b` of the layout `bs` and
returns `r`: it merges free neighbours until none is left, `r` points into the block that
`b` is part of now, and no allocated block is touched. -/
structure Coalesces (s : Segment) (bs : Layout) (b : Block) (r : ℕ) (s' : Segment)
    (bs' : Layout) : Prop where
  tiles : Tiles s' bs'
  coalesced : Coalesced bs'
  merges : Merges bs bs'
  keeps : Keeps (Live 3 bs) s s'
  cap : s'.cap = s.cap
  block : ∃ y m, r = y + 1 ∧ At 3 bs' y m ∧ m.alloc = false ∧ b.size ≤ m.size

lemma coalesces_retag {s : Segment} {pre mid post : Layout} {b m : Block}
    (h : Tiles s (pre ++ mid ++ post)) (hmid : ∀ c ∈ mid, c.alloc = false)
    (hm : m.words = len mid) (hfree : m.alloc = false) (hco : Coalesced (pre ++ m :: post))
    (hsize : b.size ≤ m.size) :
    Coalesces s (pre ++ mid ++ post) b (3 + len pre + 1) (s.retag (3 + len pre) m)
      (pre ++ m :: post) where
  tiles := h.retag hm
  coalesced := hco
  merges := ⟨pre, mid, m, post, rfl, rfl, hmid, hfree, hm⟩
  keeps := keeps_replace hmid (sameBut_retag s m le_rfl (by omega))
  cap := rfl
  block := ⟨3 + len pre, m, rfl, by simp, hfree, hsize⟩

section Cases
variable {s : Segment} {pre post : Layout} {b p n : Block}

/-- Both neighbours are allocated: nothing to do. -/
lemma coalesce_none (h : Tiles s (pre ++ b :: post)) (hb : b.alloc = false)
    (hp : prevTag pre % 2 = 1) (hn : nextTag post % 2 = 1) :
    wp (coalesce (3 + len pre + 1)) (fun r s' => r = 3 + len pre + 1 ∧ s' = s) s := by
  have hbrk := h.brk
  have hhdr := h.word_header
  have hprev := h.word_prev
  have hnext := (show Tiles s ((pre ++ [b]) ++ post) by simpa using h).word_next
  simp only [len_append, len_cons, len_nil, Nat.add_zero, ← Nat.add_assoc] at hbrk hnext
  rw [Block.tag_of_free hb] at hhdr
  have hpos := hprev.2
  -- every word that `coalesce` reads is known by now
  generalize hx : 3 + len pre = x at *
  simp [coalesce, blockPrev, blockNext, getHeader, WSIZE, hhdr, hprev, hnext, hp, hn]
  omega

/-- Only the next block is free: both become one block. -/
lemma coalesce_next (h : Tiles s (pre ++ b :: n :: post)) (hb : b.alloc = false)
    (hp : prevTag pre % 2 = 1) (hn : n.alloc = false) :
    wp (coalesce (3 + len pre + 1))
      (fun r s' => r = 3 + len pre + 1 ∧ s' = s.retag (3 + len pre) (b.join n)) s := by
  have hbrk := h.brk
  have hle := h.le
  have hhdr := h.word_header
  have hprev := h.word_prev
  have hnext := (show Tiles s ((pre ++ [b]) ++ n :: post) by simpa using h).word_header
  simp only [len_append, len_cons, len_nil, Nat.add_zero, ← Nat.add_assoc] at hbrk hnext
  rw [Block.tag_of_free hb] at hhdr
  rw [Block.tag_of_free hn] at hnext
  have hb4 := b.four_words
  have hn4 := n.four_words
  have hodd : n.size % 2 = 0 := by have := n.dvd; omega
  have hadd : szAdd b.size n.size = (b.join n).size := szAdd_eq (by omega)
  have hmod : (b.size + n.size) % 4294967296 = b.size + n.size := Nat.mod_eq_of_lt (by omega)
  have hdiv : (b.size + n.size) / 8 * 8 / 4 = b.words + n.words := by
    have := (b.join n).size_div_four
    rwa [← (b.join n).size_div, Block.join_words] at this
  generalize hx : 3 + len pre = x at *
  have hpos := hprev.2
  -- the footer is found through the new header, so it is where `retag` writes it
  have hfoot : x + 1 + (b.words + n.words) - 2 = x + (b.words + n.words) - 1 := by omega
  simp [coalesce, blockPrev, blockNext, getFooter, getHeader, WSIZE, hhdr, hprev, hnext, hp,
    hodd, hadd, pack_zero, Segment.word_setWord_same, hmod, hdiv, hfoot, Segment.retag]
  omega

/-- Only the previous block is free: both become one block. -/
lemma coalesce_prev (h : Tiles s (pre ++ p :: b :: post)) (hb : b.alloc = false)
    (hp : p.alloc = false) (hn : nextTag post % 2 = 1) :
    wp (coalesce (3 + len pre + p.words + 1))
      (fun r s' => r = 3 + len pre + 1 ∧ s' = s.retag (3 + len pre) (p.join b)) s := by
  have hbrk := h.brk
  have hle := h.le
  have hphdr := h.word_header
  have hpftr := h.word_footer
  have hhdr := (show Tiles s ((pre ++ [p]) ++ b :: post) by simpa using h).word_header
  have hnext := (show Tiles s ((pre ++ [p, b]) ++ post) by simpa using h).word_next
  simp only [len_append, len_cons, len_nil, Nat.add_zero, ← Nat.add_assoc] at hbrk hhdr hnext
  rw [Block.tag_of_free hb] at hhdr
  rw [Block.tag_of_free hp] at hphdr hpftr
  have hb4 := b.four_words
  have hp4 := p.four_words
  have hpw := p.words_ge
  have hbw := b.words_ge
  have hodd : p.size % 2 = 0 := by have := p.dvd; omega
  have hadd : szAdd b.size p.size = (p.join b).size := by
    rw [Block.join_size, szAdd_eq (by omega), Nat.add_comm]
  generalize hx : 3 + len pre = x at *
  -- `y` is the block's header
  obtain ⟨y, hy⟩ : ∃ y, x + p.words = y := ⟨_, rfl⟩
  rw [hy] at hhdr hpftr hnext ⊢
  -- the stores miss the block's header and the footer before it, which are read after them
  have hne : y ≠ x := by omega
  have hne₁ : y - 1 ≠ x := by omega
  have hne₂ : y - 1 ≠ y + b.words - 1 := by omega
  have hhere : y - p.words = x := by omega
  have hback : y + 1 - p.words = x + 1 := by omega
  have hfoot : y + 1 + b.words - 2 = y + b.words - 1 := by omega
  have hfoot' : x + (p.words + b.words) - 1 = y + b.words - 1 := by omega
  simp [coalesce, blockPrev, blockNext, getFooter, prevBp, getHeader, WSIZE, hhdr, hphdr, hpftr,
    hnext, hn, hodd, hadd, pack_zero, Segment.word_setWord, hne, hne₁, hne₂, hhere, hback, hfoot,
    hfoot', Segment.retag]
  omega

/-- Both neighbours are free: all three become one block. -/
lemma coalesce_both (h : Tiles s (pre ++ p :: b :: n :: post)) (hb : b.alloc = false)
    (hp : p.alloc = false) (hn : n.alloc = false) :
    wp (coalesce (3 + len pre + p.words + 1))
      (fun r s' => r = 3 + len pre + 1 ∧ s' = s.retag (3 + len pre) ((p.join b).join n)) s := by
  have hbrk := h.brk
  have hle := h.le
  have hphdr := h.word_header
  have hpftr := h.word_footer
  have hhdr := (show Tiles s ((pre ++ [p]) ++ b :: n :: post) by simpa using h).word_header
  have hnext := (show Tiles s ((pre ++ [p, b]) ++ n :: post) by simpa using h).word_header
  simp only [len_append, len_cons, len_nil, Nat.add_zero, ← Nat.add_assoc] at hbrk hhdr hnext
  rw [Block.tag_of_free hb] at hhdr
  rw [Block.tag_of_free hp] at hphdr hpftr
  rw [Block.tag_of_free hn] at hnext
  have hb4 := b.four_words
  have hp4 := p.four_words
  have hn4 := n.four_words
  have hpw := p.words_ge
  have hbw := b.words_ge
  have hnw := n.words_ge
  have hodd : p.size % 2 = 0 := by have := p.dvd; omega
  have hodd' : n.size % 2 = 0 := by have := n.dvd; omega
  have hadd : szAdd b.size (uAdd n.size p.size) = ((p.join b).join n).size := by
    rw [Block.join_size, Block.join_size, uAdd_eq (by omega), szAdd_eq (by omega)]
    omega
  generalize hx : 3 + len pre = x at *
  -- `y` and `z` are the headers of the block and of its successor
  obtain ⟨y, hy⟩ : ∃ y, x + p.words = y := ⟨_, rfl⟩
  rw [hy] at hhdr hpftr hnext ⊢
  obtain ⟨z, hz⟩ : ∃ z, y + b.words = z := ⟨_, rfl⟩
  rw [hz] at hnext
  -- again the stores miss every word that is read after them
  have hne : y ≠ x := by omega
  have hne₁ : y - 1 ≠ x := by omega
  have hne₂ : y - 1 ≠ z + n.words - 1 := by omega
  have hne₃ : z ≠ x := by omega
  have hhere : y - p.words = x := by omega
  have hback : y + 1 - p.words = x + 1 := by omega
  have hthere : y + 1 + b.words = z + 1 := by omega
  have hfoot : z + 1 + n.words - 2 = z + n.words - 1 := by omega
  have hfoot' : x + (p.words + b.words + n.words) - 1 = z + n.words - 1 := by omega
  simp [coalesce, blockPrev, blockNext, getFooter, prevBp, nextBp, getHeader, WSIZE, hhdr, hphdr,
    hpftr, hnext, hodd, hodd', hadd, pack_zero, Segment.word_setWord, hne, hne₁, hne₂, hne₃, hz,
    hhere, hback, hthere, hfoot, hfoot', Segment.retag]
  omega

end Cases

lemma exists_free_last {pre : Layout} (h : ¬ prevTag pre % 2 = 1) :
    ∃ pre' p, pre = pre' ++ [p] ∧ p.alloc = false := by
  rcases List.eq_nil_or_concat' pre with rfl | ⟨pre', p, rfl⟩
  · simp [prevTag] at h
  · simp only [prevTag_odd, List.getLast?_append, List.getLast?_singleton, Option.some_or,
      Option.mem_some_iff, forall_eq', Bool.not_eq_true] at h
    exact ⟨pre', p, rfl, h⟩

lemma exists_free_head {post : Layout} (h : ¬ nextTag post % 2 = 1) :
    ∃ n post', post = n :: post' ∧ n.alloc = false := by
  cases post with
  | nil => simp [nextTag] at h
  | cons n post' =>
    simp only [nextTag_odd, List.head?_cons, Option.mem_some_iff, forall_eq',
      Bool.not_eq_true] at h
    exact ⟨n, post', rfl, h⟩

theorem coalesce_spec {s : Segment} {pre post : Layout} {b : Block}
    (h : Tiles s (pre ++ b :: post)) (hb : b.alloc = false) (hpre : Coalesced pre)
    (hpost : Coalesced post) :
    wp (coalesce (3 + len pre + 1))
      (fun r s' => ∃ bs', Coalesces s (pre ++ b :: post) b r s' bs') s := by
  by_cases hp : prevTag pre % 2 = 1 <;> by_cases hn : nextTag post % 2 = 1
  -- what is left of a neighbour's other side was allocated before, since `pre` and `post` are
  -- coalesced
  · refine wp_mono (coalesce_none h hb hp hn) ?_
    rintro r s' ⟨rfl, rfl⟩
    exact ⟨_, h, hpre.insert b hpost (prevTag_odd.1 hp) (nextTag_odd.1 hn), merges_self hb,
      Keeps.refl _ _, rfl, _, b, rfl, by simp, hb, le_rfl⟩
  · obtain ⟨n, post, rfl, hfree⟩ := exists_free_head hn
    refine wp_mono (coalesce_next h hb hp hfree) ?_
    rintro r s' ⟨rfl, rfl⟩
    have hco := hpre.insert (b.join n) hpost.tail (prevTag_odd.1 hp)
      (hpost.head_alloc hfree)
    have hmid : Tiles s (pre ++ [b, n] ++ post) := by simpa using h
    have := coalesces_retag (b := b) hmid (by simp [hb, hfree]) (by simp) rfl hco
      (Nat.le_add_right _ _)
    exact ⟨_, by simpa using this⟩
  · obtain ⟨pre, p, rfl, hfree⟩ := exists_free_last hp
    have hx : 3 + len (pre ++ [p]) + 1 = 3 + len pre + p.words + 1 := by simp [Nat.add_assoc]
    rw [List.append_assoc, List.singleton_append] at h ⊢
    rw [hx]
    refine wp_mono (coalesce_prev h hb hfree hn) ?_
    rintro r s' ⟨rfl, rfl⟩
    have hco := hpre.left.insert (p.join b) hpost
      (hpre.last_alloc hfree) (nextTag_odd.1 hn)
    have hmid : Tiles s (pre ++ [p, b] ++ post) := by simpa using h
    have := coalesces_retag (b := b) hmid (by simp [hb, hfree]) (by simp) rfl hco
      (Nat.le_add_left _ _)
    exact ⟨_, by simpa using this⟩
  · obtain ⟨pre, p, rfl, hpfree⟩ := exists_free_last hp
    obtain ⟨n, post, rfl, hnfree⟩ := exists_free_head hn
    have hx : 3 + len (pre ++ [p]) + 1 = 3 + len pre + p.words + 1 := by simp [Nat.add_assoc]
    rw [List.append_assoc, List.singleton_append] at h ⊢
    rw [hx]
    refine wp_mono (coalesce_both h hb hpfree hnfree) ?_
    rintro r s' ⟨rfl, rfl⟩
    have hco := hpre.left.insert ((p.join b).join n)
      hpost.tail (hpre.last_alloc hpfree) (hpost.head_alloc hnfree)
    have hmid : Tiles s (pre ++ [p, b, n] ++ post) := by simpa using h
    have := coalesces_retag (b := b) hmid (by simp [hb, hpfree, hnfree])
      (by simp [Nat.add_assoc]) rfl hco (by simp only [Block.join_size]; omega)
    exact ⟨_, by simpa using this⟩

/-! ## `extend_heap` -/

/-- The segment grown by the block `b`, with the tags of `b` and the new epilogue. -/
def extended (s : Segment) (x : ℕ) (b : Block) : Segment :=
  ((s.setBrk (s.brk + b.size)).retag x b).setWord (x + b.words) 1

lemma byte_extended {s : Segment} {x : ℕ} {b : Block} {i : ℕ} (h : i / 4 < x) :
    (extended s x b).bytes i = s.bytes i := by
  have hw := b.words_ge
  rw [extended, Segment.byte_setWord_ne _ _ (by omega), Segment.retag,
    Segment.byte_setWord_ne _ _ (by omega), Segment.byte_setWord_ne _ _ (by omega)]
  rfl

lemma Tiles.extend {s : Segment} {bs : Layout} {b : Block} (h : Tiles s bs)
    (hle : s.brk + b.size ≤ 2 ^ 32) : Tiles (extended s (3 + len bs) b) (bs ++ [b]) := by
  have hw := b.words_ge
  have h4 := b.four_words
  have hbrk := h.brk
  have hlt : b.tag < 2 ^ 32 := by
    have := b.alloc.toNat_lt
    unfold Block.tag
    omega
  have hout : ∀ i, i < 3 + len bs → (extended s (3 + len bs) b).word i = s.word i :=
    fun i hi => Bytes.word_congr fun a ha => byte_extended (by omega)
  refine ⟨?_, hle, h.cap, ?_, ?_, ?_, ?_⟩
  · simp only [extended, Segment.brk_setWord, Segment.brk_retag, Segment.brk_setBrk, len_append,
      len_cons, len_nil]
    omega
  · rw [hout 1 (by omega), h.header]
  · rw [hout 2 (by omega), h.footer]
  · rw [tagged_append]
    refine ⟨h.tags.congr_range fun i _ hi => hout i hi, ?_⟩
    refine (tagged_retag _ _ hlt).congr_range fun i _ hi => Segment.word_setWord_ne _ _ ?_
    simp only [len_cons, len_nil] at hi
    omega
  · simp [extended, Segment.word_setWord_same, ← Nat.add_assoc]

/-- What a successful extension by the block `b` does: the heap is longer by `b`, the
allocated blocks are the same and untouched, and `bp` points to a free block that is at
least as large as `b`. -/
structure Extends (s : Segment) (bs : Layout) (b : Block) (bp : ℕ) (s' : Segment)
    (bs' : Layout) : Prop where
  tiles : Tiles s' bs'
  coalesced : Coalesced bs'
  keeps : Keeps (Live 3 bs) s s'
  live : ∀ x c, Live 3 bs' x c ↔ Live 3 bs x c
  len : len bs' = len bs + b.words
  cap : s'.cap = s.cap
  block : ∃ y m, bp = y + 1 ∧ At 3 bs' y m ∧ m.alloc = false ∧ b.size ≤ m.size

theorem extendHeap_answers {s : Segment} {bs : Layout} {b : Block} (grant : Bool)
    (h : Tiles s bs) (hco : Coalesced bs) (hb : b.alloc = false) (hsize : b.size < 2 ^ 64) :
    wp (extendHeap grant b.words) (fun r s' => (r = none ∧ s' = s ∧ ¬ Grants grant s b.size) ∨
      ((∃ bp bs', r = some bp ∧ Extends s bs b bp s' bs') ∧ Grants grant s b.size)) s := by
  have heven := b.words_even
  have h4 := b.four_words
  have hw := b.words_ge
  have hbrk := h.brk
  have hmul : szMul b.words 4 = b.size := by rw [szMul_eq] <;> omega
  simp only [extendHeap, heven, hmul, WSIZE, ne_eq, not_true_eq_false, if_false,
    bind_pure_comp, wp_bind, wp_memSbrk]
  split
  · -- the header of the new block overwrites the old epilogue
    next hgrant =>
    have hle : s.brk + b.size ≤ 2 ^ 32 := hgrant.2.trans h.cap
    have hdiv : s.brk / 4 = 3 + len bs + 1 := by omega
    have hfoot : 3 + len bs + 1 + b.words - 2 = 3 + len bs + b.words - 1 := by omega
    have hmod : b.size % 4294967296 = b.size := Nat.mod_eq_of_lt (by omega)
    have hco' := coalesce_spec (h.extend hle) hb hco (List.isChain_nil)
    have hkeeps : Keeps (Live 3 bs) s (extended s (3 + len bs) b) :=
      keeps_of_lt fun i hi => byte_extended hi
    generalize hx : 3 + len bs = x at *
    simp only [extended, Segment.retag, Block.tag_of_free hb] at hco' hkeeps
    simp [hdiv, getFooter, getHeader, blockNext, WSIZE, pack_zero, pack_zero_one,
      Segment.word_setWord, hmod, hfoot]
    refine ⟨by omega, by omega, by omega, by omega, wp_mono hco' ?_⟩
    rintro bp s' ⟨bs', hpost⟩
    refine ⟨⟨bs', hpost.tiles, hpost.coalesced, hkeeps.trans (hpost.keeps.mono fun y c hy => ?_),
      fun y c => ?_, ?_, hpost.cap, hpost.block⟩, hgrant⟩
    · exact (live_append_free hb).2 hy
    · rw [hpost.merges.live_iff, live_append_free hb]
    · rw [hpost.merges.len_eq, len_append, len_cons, len_nil, Nat.add_zero]
  · next hgrant => exact (wp_pure _ _ _).2 (.inl ⟨rfl, rfl, hgrant⟩)

theorem extendHeap_spec {s : Segment} {bs : Layout} {b : Block} (grant : Bool)
    (h : Tiles s bs) (hco : Coalesced bs) (hb : b.alloc = false) (hsize : b.size < 2 ^ 64) :
    wp (extendHeap grant b.words) (fun r s' => (r = none ∧ s' = s) ∨
      ∃ bp bs', r = some bp ∧ Extends s bs b bp s' bs') s := by
  refine wp_mono (extendHeap_answers grant h hco hb hsize) ?_
  rintro r s' (⟨hr, hs, -⟩ | ⟨hext, -⟩)
  · exact .inl ⟨hr, hs⟩
  · exact .inr hext

/-! ## `find_first_fit` and `place` -/

lemma findFirstFitLoop_spec {s : Segment} {pre post : Layout} {size fuel : ℕ}
    (h : Tiles s (pre ++ post)) (hfuel : post.length < fuel)
    (hpre : ∀ x c, At 3 pre x c → c.alloc = false → c.size < size) :
    wp (findFirstFitLoop size fuel (3 + len pre) (nextTag post / 8 * 8))
      (fun r s' => s' = s ∧ FindsFit 3 (pre ++ post) size r) s := by
  induction post generalizing pre fuel with
  | nil =>
    rw [List.length_nil] at hfuel
    obtain ⟨fuel, rfl⟩ : ∃ k, fuel = k + 1 := ⟨fuel - 1, by omega⟩
    simpa [findFirstFitLoop, nextTag, FindsFit] using hpre
  | cons c post ih =>
    rw [List.length_cons] at hfuel
    obtain ⟨fuel, rfl⟩ : ∃ k, fuel = k + 1 := ⟨fuel - 1, by omega⟩
    have hbrk := h.brk
    have hw := c.words_ge
    have hpos : 0 < c.size := by have := c.le; omega
    have hhdr := h.word_header
    -- the walk goes on behind `c`, which joins the blocks passed
    have h' : Tiles s ((pre ++ [c]) ++ post) := by simpa using h
    have hnext := h'.word_next
    simp only [len_append, len_cons, len_nil, Nat.add_zero, ← Nat.add_assoc] at hbrk hnext
    simp only [findFirstFitLoop, nextTag_cons, c.tag_div, gt_iff_lt, hpos, if_true, wp_bind,
      wp_blockFree, hhdr, c.tag_mod, Bool.toNat_eq_zero, wp_ite, wp_pure, blockNext, wp_map,
      bind_pure_comp, WSIZE, wp_blockSize, Block.size_div_four, hnext, true_and]
    refine ⟨by omega, ?_⟩
    split
    · next hfit =>
      exact ⟨3 + len pre, c, rfl, by simp, hfit.2, hfit.1⟩
    · next hfit =>
      refine ⟨by omega, by omega, ?_⟩
      have hpre' : ∀ x d, At 3 (pre ++ [c]) x d → d.alloc = false → d.size < size := by
        simp only [at_append, at_cons, at_nil, or_false]
        rintro x d (hd | ⟨-, rfl⟩) hfree
        · exact hpre x d hd hfree
        · simpa [hfree] using hfit
      have hlt : post.length < fuel := by omega
      have := ih h' hlt hpre'
      simpa [Nat.add_assoc] using this

/-- First fit answers truly, and changes nothing. -/
theorem findFirstFit_spec {s : Segment} {bs : Layout} (h : Tiles s bs) (size : ℕ) :
    wp (findFirstFit 1 size) (fun r s' => s' = s ∧ FindsFit 3 bs size r) s := by
  have hbrk := h.brk
  have hlen := length_le_len bs
  have hnext := (show Tiles s ([] ++ bs) from h).word_next
  simp only [len_nil, Nat.add_zero] at hnext
  have hloop : wp (findFirstFitLoop size s.brk (3 + len []) (nextTag bs / 8 * 8))
      (fun r s' => s' = s ∧ FindsFit 3 ([] ++ bs) size r) s :=
    findFirstFitLoop_spec h (by omega) (by simp)
  simp only [findFirstFit, wp_bind, wp_blockSize, wp_length, hnext]
  exact ⟨by omega, hloop⟩

/-- What `place` does: the front of the free block at `y` is allocated, with a size of at
least `n`. -/
structure Places (s : Segment) (bs : Layout) (y n : ℕ) (s' : Segment) (bs' : Layout)
    (b : Block) : Prop where
  tiles : Tiles s' bs'
  allocates : Allocates 3 bs bs' y b
  size : n ≤ b.size
  keeps : Keeps (Live 3 bs) s s'
  cap : s'.cap = s.cap

section Place
variable {s : Segment} {pre post : Layout} {b c : Block}

/-- A block that is large enough to leave another one is split. -/
lemma place_split (h : Tiles s (pre ++ c :: post)) (hfree : c.alloc = false)
    (hb : b.alloc = true) (hsplit : b.size + 16 ≤ c.size) :
    wp (place (3 + len pre + 1) b.size)
      (fun _ s' => ∃ bs' d, Places s (pre ++ c :: post) (3 + len pre) b.size s' bs' d) s := by
  have hbrk := h.brk
  have hbound := h.le
  have hhdr := h.word_header
  have hw := c.words_ge
  have hbw := b.words_ge
  have h4 := c.four_words
  have hb4 := b.four_words
  rw [Block.tag_of_free hfree] at hhdr
  simp only [len_append, len_cons] at hbrk
  have hsub : szSub c.size b.size = c.size - b.size := szSub_eq (by omega) (by omega)
  -- the front is `b`, and `d` is the free block that is left
  have hmod : (b.size + 1) % 4294967296 = b.size + 1 := Nat.mod_eq_of_lt (by omega)
  have hdiv : (b.size + 1) / 8 * 8 = b.size := by
    have := b.tag_div
    rwa [Block.tag_of_alloc hb] at this
  have hge : 16 ≤ c.size - b.size := by omega
  have hdw := c.rest_words b hsplit
  have hsize := c.rest_size b hsplit
  have htag := c.rest_tag b hsplit
  have hdfree := c.rest_alloc b hsplit
  generalize c.rest b hsplit = d at *
  have hd4 := d.four_words
  have hdw4 := d.words_ge
  have hmod' : d.size % 4294967296 = d.size := Nat.mod_eq_of_lt (by omega)
  rw [← hsize] at hsub hge
  have hsame := sameBut_retag_retag s (3 + len pre) hdw
  have htiles := h.cut hdw
  have hplaces : Places s (pre ++ c :: post) (3 + len pre) b.size
      ((s.retag (3 + len pre) b).retag (3 + len pre + b.words) d) (pre ++ b :: [d] ++ post) b :=
    ⟨htiles, ⟨pre, c, [d], post, rfl, rfl, rfl, hfree, hb, by simp, by simp [hdfree],
      by simpa using hdw⟩, le_rfl, by simpa using keeps_replace (by simp [hfree]) hsame, rfl⟩
  generalize hx : 3 + len pre = x at *
  have hfoot : x + 1 + b.words - 2 = x + b.words - 1 := by omega
  have hfoot' : x + 1 + b.words + d.words - 2 = x + b.words + d.words - 1 := by omega
  have hne : x ≠ x + b.words - 1 := by omega
  simp only [Segment.retag, Block.tag_of_alloc hb, htag, ← hsize] at hplaces
  simp [place, getHeader, getFooter, nextBp, WSIZE, DSIZE, hhdr, hsub, hge, pack_one b.dvd,
    pack_zero, Segment.word_setWord, hmod, hmod', hdiv, hfoot, hfoot', hne]
  exact ⟨by omega, by omega, by omega, by omega, by omega, _, _, hplaces⟩

/-- A block that is not is allocated whole. -/
lemma place_whole (h : Tiles s (pre ++ c :: post)) (hfree : c.alloc = false)
    (hle : b.size ≤ c.size) (hsplit : ¬b.size + 16 ≤ c.size) :
    wp (place (3 + len pre + 1) b.size)
      (fun _ s' => ∃ bs' d, Places s (pre ++ c :: post) (3 + len pre) b.size s' bs' d) s := by
  have hbrk := h.brk
  have hbound := h.le
  have hhdr := h.word_header
  have hw := c.words_ge
  have hbw := b.words_ge
  have h4 := c.four_words
  have hb4 := b.four_words
  have hmid : Tiles s (pre ++ [c] ++ post) := by simpa using h
  rw [Block.tag_of_free hfree] at hhdr
  simp only [len_append, len_cons] at hbrk
  have hsub : szSub c.size b.size = c.size - b.size := szSub_eq hle (by omega)
  have hlt : ¬ 16 ≤ c.size - b.size := by omega
  have hmod : (c.size + 1) % 4294967296 = c.size + 1 := Nat.mod_eq_of_lt (by omega)
  have hdiv : (c.size + 1) / 8 * 8 = c.size := (c.mark true).tag_div
  have hsame : s.SameBut (Between (3 + len pre) (3 + len pre + len [c]))
      (s.retag (3 + len pre) (c.mark true)) :=
    sameBut_retag s (c.mark true) le_rfl (by simp)
  have hplaces : Places s (pre ++ c :: post) (3 + len pre) b.size
      (s.retag (3 + len pre) (c.mark true)) (pre ++ c.mark true :: [] ++ post) (c.mark true) :=
    ⟨by simpa using hmid.retag (m := c.mark true) (by simp), ⟨pre, c, [], post, rfl, rfl, rfl,
      hfree, rfl, by simp, by simp, by simp⟩, hle,
      by simpa using keeps_replace (by simp [hfree]) hsame, rfl⟩
  generalize hx : 3 + len pre = x at *
  have hfoot : x + 1 + c.words - 2 = x + c.words - 1 := by omega
  simp only [Segment.retag, Block.mark_words, Block.tag_of_alloc (Block.mark_alloc c true),
    Block.mark_size] at hplaces
  simp [place, getHeader, getFooter, WSIZE, DSIZE, hhdr, hsub, hlt, pack_one c.dvd,
    Segment.word_setWord, hmod, hdiv, hfoot]
  exact ⟨by omega, by omega, _, _, hplaces⟩

end Place

theorem place_spec {s : Segment} {bs : Layout} {y : ℕ} {b c : Block} (h : Tiles s bs)
    (hc : At 3 bs y c) (hfree : c.alloc = false) (hb : b.alloc = true) (hle : b.size ≤ c.size) :
    wp (place (y + 1) b.size) (fun _ s' => ∃ bs' d, Places s bs y b.size s' bs' d) s := by
  obtain ⟨pre, post, rfl, rfl⟩ := at_iff_split.1 hc
  by_cases hsplit : b.size + 16 ≤ c.size
  · exact place_split h hfree hb hsplit
  · exact place_whole h hfree hle hsplit

/-! ## The contract -/

/-- The invariant of the allocator: the heap has at least one block, and none that could be
merged with its neighbour. -/
structure Inv (s : Segment) (bs : Layout) : Prop where
  tiles : Tiles s bs
  coalesced : Coalesced bs
  pos : 0 < len bs

lemma inv_of_block {s : Segment} {bs : Layout} (h : Tiles s bs) (hco : Coalesced bs) {y : ℕ}
    {b : Block} (hy : At 3 bs y b) : Inv s bs := by
  have := hy.bounds
  have := b.words_ge
  exact ⟨h, hco, by omega⟩

lemma Places.mallocs {s s' s₁ : Segment} {bs bs₁ bs' : Layout} {y n k : ℕ} {b : Block}
    (h : Places s₁ bs₁ y n s' bs' b) (hco : Coalesced bs₁)
    (hlive : ∀ x c, Live 3 bs₁ x c ↔ Live 3 bs x c) (hkeep : Keeps (Live 3 bs) s s₁)
    (hn : k + 8 ≤ n) : Mallocs 3 Inv s bs k (some (y + 1)) s' := by
  have hinv := inv_of_block h.tiles (h.allocates.coalesced hco) h.allocates.at_new.1
  refine ⟨bs', y, b, rfl, hinv, hn.trans h.size,
    fun d hd => h.allocates.fresh d ((hlive y d).2 hd), fun x d => ?_, ?_⟩
  · rw [h.allocates.live_iff, hlive]
  · exact hkeep.trans (h.keeps.mono fun x c hx => (hlive x c).2 hx)

/-- `malloc` of any size whose arithmetic does not wrap. -/
theorem malloc_mallocs {s : Segment} {bs : Layout} (grant : Bool) {n : ℕ} (h : Inv s bs)
    (hn : n ≤ 2 ^ 64 - 16) : wp (malloc 1 grant n) (Mallocs 3 Inv s bs n) s := by
  unfold malloc
  split
  · exact (wp_pure _ _ _).2 rfl
  obtain ⟨b, hb, halloc, hroom, hlt, -⟩ := exists_block_of_le hn
  rw [← hb]
  refine wp_call (findFirstFit_spec h.tiles b.size) ?_
  rintro (_ | bp) s₁ ⟨rfl, hfit⟩
  · -- no block fits: the heap is extended by at least `CHUNKSIZE`
    let e := chunk b 4096 (by norm_num)
    have hesize : e.size < 2 ^ 64 := max_lt hlt (by norm_num)
    refine wp_call (extendHeap_spec grant h.tiles h.coalesced (b := e) rfl hesize) ?_
    rintro _ s₂ (⟨rfl, rfl⟩ | ⟨bp, bs₂, rfl, hext⟩)
    · exact (wp_pure _ _ _).2 rfl
    · obtain ⟨y, m, rfl, hm, hfree, hsize⟩ := hext.block
      have hle : b.size ≤ m.size := (le_max_left _ _).trans hsize
      refine wp_call (place_spec hext.tiles hm hfree halloc hle) ?_
      rintro _ s₃ ⟨bs₃, d, hplaces⟩
      exact (wp_pure _ _ _).2 (hplaces.mallocs hext.coalesced hext.live hext.keeps hroom)
  · obtain ⟨y, c, rfl, hc, hfree, hle⟩ := hfit
    refine wp_call (place_spec h.tiles hc hfree halloc hle) ?_
    rintro _ s₃ ⟨bs₃, d, hplaces⟩
    exact (wp_pure _ _ _).2 (hplaces.mallocs h.coalesced (fun _ _ => Iff.rfl) (Keeps.refl _ _) hroom)

theorem malloc_spec {s : Segment} {bs : Layout} (grant : Bool) {n : ℕ} (h : Inv s bs)
    (hn : n < 2 ^ 31) : wp (malloc 1 grant n) (Mallocs 3 Inv s bs n) s :=
  malloc_mallocs grant h (by omega)

/-- `malloc` returns `NULL` exactly when no block fits and memlib refuses to grow the heap. -/
theorem malloc_eq_none_iff {s s' : Segment} {bs : Layout} (grant : Bool) {n : ℕ} (h : Inv s bs)
    (hpos : 0 < n) : (malloc 1 grant n).run s = some (none, s') ↔ s' = s ∧
      FindsFit 3 bs (getMallocSize n) none ∧
      ¬ Grants grant s (max (getMallocSize n) CHUNKSIZE) := by
  rw [malloc, if_neg hpos.ne']
  obtain ⟨r, t, hrun, rfl, hfit⟩ := findFirstFit_spec h.tiles (getMallocSize n)
  obtain ⟨e, hefree, hesize⟩ := exists_chunk n (show 8 ∣ CHUNKSIZE by decide) (by decide)
  have hlt := getMallocSize_lt_two_pow n
  have hext : wp (extendHeap grant (max (getMallocSize n) CHUNKSIZE / WSIZE))
      (fun r s' => (r = none ∧ s' = t ∧ ¬ Grants grant t (max (getMallocSize n) CHUNKSIZE)) ∨
        (r ≠ none ∧ Grants grant t (max (getMallocSize n) CHUNKSIZE))) t := by
    rw [← hesize]
    refine wp_mono (extendHeap_answers grant h.tiles h.coalesced hefree
      (by rw [hesize]; exact max_lt hlt (by decide))) ?_
    rintro r' s₁ (hr | ⟨⟨bp, bs', rfl, -⟩, hserved⟩)
    · exact .inl hr
    · exact .inr ⟨Option.some_ne_none bp, hserved⟩
  rw [← hfit.none_iff]
  exact searchThenExtend_none (k := 0) hrun hext

/-- `free` marks the block and coalesces it with its neighbours. -/
theorem free_spec {s : Segment} {bs : Layout} {x : ℕ} {b : Block} (h : Inv s bs)
    (hx : Live 3 bs x b) :
    wp (free (some (x + 1))) (fun _ s' => Frees 3 Inv s bs x s') s := by
  obtain ⟨pre, post, rfl, rfl⟩ := at_iff_split.1 hx.1
  obtain ⟨htiles, hco, -⟩ := h
  have hmid : Tiles s (pre ++ [b] ++ post) := by simpa using htiles
  have hbrk := htiles.brk
  simp only [len_append, len_cons] at hbrk
  have htiles' := hmid.retag (m := b.mark false) (by simp)
  have hkeep : Keeps (Live 3 (pre ++ b.mark false :: post)) s
      (s.retag (3 + len pre) (b.mark false)) := by
    have : Keeps (Live 3 (pre ++ [b.mark false] ++ post)) s
        (s.retag (3 + len pre) (b.mark false)) :=
      keeps_replace (by simp) (sameBut_retag s _ le_rfl (by simp))
    simpa using this
  simp only [free, getHeader, Nat.add_sub_cancel, bind_pure_comp]
  refine wp_call (P := fun _ s' => s' = s.retag (3 + len pre) (b.mark false))
    (wp_blockMark false htiles.word_header (by omega) rfl) ?_
  rintro _ s₁ rfl
  rw [wp_map]
  refine wp_mono (coalesce_spec htiles' rfl hco.left hco.right.tail) ?_
  rintro r s₂ ⟨bs₂, hpost⟩
  obtain ⟨_, _, -, hm, -⟩ := hpost.block
  refine ⟨bs₂, inv_of_block hpost.tiles hpost.coalesced hm, fun y d => ?_, ?_, ?_⟩
  · rw [hpost.merges.live_iff, live_mark_free]
  · apply (hkeep.trans hpost.keeps).mono
    intro y d hy
    rwa [← hpost.merges.live_iff]
  · rw [hpost.tiles.brk, hpost.merges.len_eq, ← htiles'.brk, Segment.brk_retag]

/-- `mm_init` leaves a heap of one free block. -/
theorem mmInit_spec {bytes : Bytes} {cap : ℕ} (grant₁ grant₂ : Bool) (hcap : cap ≤ 2 ^ 32) :
    wp (mmInit grant₁ grant₂) (fun r s' => ∀ hp, r = some hp → hp = 1 ∧
      ∃ bs, Inv s' bs ∧ ∀ x b, ¬ Live 3 bs x b) ⟨bytes, 0, cap⟩ := by
  simp only [mmInit, memSbrk, WSIZE, bind_pure_comp, wp_bind, wp_map, wp_grow]
  split
  · -- four words of padding, prologue and epilogue, and then one extension
    next hgrant =>
    let s : Segment := ((((Segment.mk bytes 0 cap).setBrk 16).setWord 0 0).setWord 1 9
      |>.setWord 2 9).setWord 3 1
    have hs : Tiles s [] :=
      ⟨rfl, by simp [s], hcap, by simp [s, Segment.word_setWord], by simp [s, Segment.word_setWord],
        by simp, by simp [s, Segment.word_setWord]⟩
    let e : Block := ⟨4096, false, by norm_num, by norm_num⟩
    have hext := extendHeap_spec grant₂ hs List.isChain_nil (b := e) rfl (by norm_num [e])
    simp [put, pack, DSIZE]
    refine wp_mono hext ?_
    rintro _ s' (⟨rfl, rfl⟩ | ⟨bp, bs, rfl, hext⟩)
    · simp
    · have hno : ∀ x b, ¬ Live 3 bs x b := fun x b hx => ((hext.live x b).1 hx).1
      obtain ⟨_, _, -, hm, -⟩ := hext.block
      simpa using ⟨bs, inv_of_block hext.tiles hext.coalesced hm, hno⟩
  · simp

/-- `mm-implicit.c` as its clients see it. -/
def allocator : Allocator where
  mmInit := mmInit
  malloc := malloc
  free _ := free
  realloc := realloc

/-- `mm-implicit.c` keeps the contract of an allocator. -/
theorem contract : Contract allocator 3 Inv where
  odd := rfl
  tagged h := h.tiles.tags
  inside h := by have := h.tiles.brk; omega
  write h hx hsame := ⟨h.tiles.write hx.1 hsame, h.coalesced, h.pos⟩
  mmInit := mmInit_spec
  malloc grant n h hn := malloc_spec grant h hn
  freeNull h := (wp_pure _ _ _).2 rfl
  free := free_spec
  reallocZeroNull grant junk h := (wp_pure _ _ _).2 ⟨rfl, rfl⟩
  reallocZero grant junk h hx := by
    simpa [allocator, realloc, reallocCopy] using free_spec h hx
  reallocNull grant junk n h hpos hn := by
    simpa [allocator, realloc, reallocCopy, hpos.ne'] using malloc_spec grant h hn
  realloc grant junk n h hx hpos hn :=
    reallocCopy_spec (fun h => h.tiles.tags) (fun h => by have := h.tiles.brk; omega)
      (fun h hx hsame => ⟨h.tiles.write hx.1 hsame, h.coalesced, h.pos⟩)
      (malloc_spec grant h hn) free_spec junk hx hpos

end Implicit
end Malloclab
end SystemsLabs
