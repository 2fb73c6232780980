import SystemsLabs.Memory.Program
import Mathlib.Data.List.Chain

/-!
# Layouts of boundary-tagged blocks

A layout is the list of blocks that tile a stretch of words, in address order. A block
carries the facts every block of such a heap has (its size is a multiple of 8 and at
least 16), so that they need not be proved again where blocks are split and merged.

* `At a bs x b`: in the layout `bs` laid out from word `a`, the block `b` starts at `x`.
* `Tagged rd a bs`: the words `rd` hold every block's tag, in its first and last word.
* `Coalesced bs`: no two neighbours are both free.
* `Merges bs bs'`: some neighbouring free blocks of `bs` are one free block in `bs'`.

A program that rewrites the tags of a block is described by `Segment.retag`, and what it
leaves alone by `Keeps`: the bytes of certain blocks are as they were.

`layout_unique` is the reason a coalesced layout is canonical: it is determined by its
length and its allocated blocks.
-/

namespace SystemsLabs
namespace Memory

/-- A block: its size in bytes, tags included, and whether it is allocated. -/
structure Block where
  size : ℕ
  alloc : Bool
  dvd : 8 ∣ size
  le : 16 ≤ size
deriving DecidableEq

/-- A layout: blocks in address order. -/
abbrev Layout := List Block

namespace Block

/-- The size in words. -/
def words (b : Block) : ℕ := b.size / 4

/-- The word written at both ends of the block. -/
def tag (b : Block) : ℕ := b.size + b.alloc.toNat

/-- The smallest block has 16 bytes. -/
lemma words_ge (b : Block) : 4 ≤ b.words := by
  have := b.le
  unfold words
  omega

lemma four_words (b : Block) : 4 * b.words = b.size := by
  have := b.dvd
  unfold words
  omega

/-- Blocks are aligned to 8 bytes. -/
lemma words_even (b : Block) : b.words % 2 = 0 := by
  have := b.dvd
  unfold words
  omega

/-- The last bit of a tag says whether the block is allocated. -/
lemma tag_mod (b : Block) : b.tag % 2 = b.alloc.toNat := by
  have := b.dvd
  unfold tag
  cases b.alloc <;> simp <;> omega

/-- The other bits are the size. -/
lemma tag_div (b : Block) : b.tag / 8 * 8 = b.size := by
  have := b.dvd
  unfold tag
  cases b.alloc <;> simp <;> omega

@[simp] lemma size_div (b : Block) : b.size / 8 * 8 = b.size := by
  have := b.dvd
  omega

@[simp] lemma size_div_four (b : Block) : b.size / 4 = b.words := rfl

lemma tag_of_free {b : Block} (h : b.alloc = false) : b.tag = b.size := by
  simp [tag, h]

lemma tag_of_alloc {b : Block} (h : b.alloc = true) : b.tag = b.size + 1 := by
  simp [tag, h]

/-- A block is given by its length and its bit. -/
lemma ext_words {b c : Block} (hw : b.words = c.words) (ha : b.alloc = c.alloc) : b = c := by
  have hs : b.size = c.size := by rw [← four_words, ← four_words, hw]
  cases b; cases c
  simp_all

/-- The block with its allocation bit replaced. -/
def mark (b : Block) (alloc : Bool) : Block := { b with alloc := alloc }

@[simp] lemma mark_size (b : Block) (al : Bool) : (b.mark al).size = b.size := rfl
@[simp] lemma mark_alloc (b : Block) (al : Bool) : (b.mark al).alloc = al := rfl
@[simp] lemma mark_words (b : Block) (al : Bool) : (b.mark al).words = b.words := rfl

/-- What is left of `b` when `c` takes its front. -/
def rest (b c : Block) (h : c.size + 16 ≤ b.size) : Block where
  size := b.size - c.size
  alloc := false
  dvd := Nat.dvd_sub b.dvd c.dvd
  le := by omega

@[simp] lemma rest_size (b c : Block) (h : c.size + 16 ≤ b.size) :
    (b.rest c h).size = b.size - c.size := rfl
@[simp] lemma rest_tag (b c : Block) (h : c.size + 16 ≤ b.size) :
    (b.rest c h).tag = b.size - c.size := rfl
@[simp] lemma rest_alloc (b c : Block) (h : c.size + 16 ≤ b.size) :
    (b.rest c h).alloc = false := rfl

/-- A block is as long as its two parts. -/
lemma rest_words (b c : Block) (h : c.size + 16 ≤ b.size) :
    c.words + (b.rest c h).words = b.words := by
  have := b.four_words
  have := c.four_words
  have := (b.rest c h).four_words
  rw [rest_size] at this
  omega

/-- The free block over two neighbours. -/
def join (b c : Block) : Block where
  size := b.size + c.size
  alloc := false
  dvd := Nat.dvd_add b.dvd c.dvd
  le := Nat.le_add_right_of_le b.le

@[simp] lemma join_size (b c : Block) : (b.join c).size = b.size + c.size := rfl
@[simp] lemma join_alloc (b c : Block) : (b.join c).alloc = false := rfl
@[simp] lemma join_tag (b c : Block) : (b.join c).tag = b.size + c.size := rfl
@[simp] lemma join_words (b c : Block) : (b.join c).words = b.words + c.words := by
  have := b.four_words
  have := c.four_words
  have := (b.join c).four_words
  rw [join_size] at this
  omega

end Block

/-! ## Positions -/

namespace Layout

/-- The length in words. -/
def len (bs : Layout) : ℕ := (bs.map Block.words).sum

@[simp] lemma len_nil : len [] = 0 := rfl
@[simp] lemma len_cons (b : Block) (bs : Layout) : len (b :: bs) = b.words + len bs := by
  simp [len]
@[simp] lemma len_append (bs cs : Layout) : len (bs ++ cs) = len bs + len cs := by
  simp [len]

/-- No block is empty. -/
lemma length_le_len (bs : Layout) : bs.length ≤ len bs := by
  induction bs with
  | nil => rfl
  | cons b bs ih =>
    have := b.words_ge
    rw [List.length_cons, len_cons]
    omega

lemma len_eq_zero {bs : Layout} : len bs = 0 ↔ bs = [] := by
  constructor
  · intro h
    have := length_le_len bs
    exact List.eq_nil_of_length_eq_zero (by omega)
  · rintro rfl
    rfl

/-- In the layout `bs` from word `a`, the block `b` starts at word `x`. -/
def At (a : ℕ) : Layout → ℕ → Block → Prop
  | [], _, _ => False
  | b :: bs, x, c => (x = a ∧ c = b) ∨ At (a + b.words) bs x c

@[simp] lemma at_nil (a x : ℕ) (c : Block) : At a [] x c ↔ False := Iff.rfl

@[simp] lemma at_cons (a : ℕ) (b : Block) (bs : Layout) (x : ℕ) (c : Block) :
    At a (b :: bs) x c ↔ (x = a ∧ c = b) ∨ At (a + b.words) bs x c := Iff.rfl

@[simp] lemma at_append (a : ℕ) (bs cs : Layout) (x : ℕ) (c : Block) :
    At a (bs ++ cs) x c ↔ At a bs x c ∨ At (a + len bs) cs x c := by
  induction bs generalizing a with
  | nil => simp
  | cons b bs ih => simp [ih, or_assoc, Nat.add_assoc]

/-- A block lies inside the stretch its layout covers. -/
lemma At.bounds {a : ℕ} {bs : Layout} {x : ℕ} {b : Block} (h : At a bs x b) :
    a ≤ x ∧ x + b.words ≤ a + len bs := by
  induction bs generalizing a with
  | nil => cases h
  | cons c bs ih =>
    rw [len_cons]
    rcases h with ⟨rfl, rfl⟩ | h
    · omega
    · have := ih h
      omega

/-- Blocks begin at even distances. -/
lemma At.even {a : ℕ} {bs : Layout} {x : ℕ} {b : Block} (h : At a bs x b) :
    x % 2 = a % 2 := by
  induction bs generalizing a with
  | nil => cases h
  | cons c bs ih =>
    rcases h with ⟨rfl, rfl⟩ | h
    · rfl
    · have := ih h
      have := c.words_even
      omega

/-- Two blocks of a layout are the same one or do not overlap. -/
lemma At.disjoint {a : ℕ} {bs : Layout} {x y : ℕ} {b c : Block} (hb : At a bs x b)
    (hc : At a bs y c) : (x = y ∧ b = c) ∨ x + b.words ≤ y ∨ y + c.words ≤ x := by
  induction bs generalizing a with
  | nil => cases hb
  | cons d bs ih =>
    rcases hb with ⟨rfl, rfl⟩ | hb <;> rcases hc with ⟨rfl, rfl⟩ | hc
    · exact .inl ⟨rfl, rfl⟩
    · exact .inr (.inl hc.bounds.1)
    · exact .inr (.inr hb.bounds.1)
    · exact ih hb hc

/-- At a place there is one block. -/
lemma At.unique {a : ℕ} {bs : Layout} {x : ℕ} {b c : Block} (hb : At a bs x b)
    (hc : At a bs x c) : b = c := by
  have := b.words_ge
  have := c.words_ge
  rcases hb.disjoint hc with h | h | h
  · exact h.2
  · omega
  · omega

/-- A block splits its layout. -/
lemma at_iff_split {a : ℕ} {bs : Layout} {x : ℕ} {b : Block} :
    At a bs x b ↔ ∃ pre post, bs = pre ++ b :: post ∧ x = a + len pre := by
  constructor
  · induction bs generalizing a with
    | nil => intro h; cases h
    | cons c bs ih =>
      rintro (⟨rfl, rfl⟩ | h)
      · exact ⟨[], bs, rfl, by simp⟩
      · obtain ⟨pre, post, rfl, rfl⟩ := ih h
        exact ⟨c :: pre, post, rfl, by simp [Nat.add_assoc]⟩
  · rintro ⟨pre, post, rfl, rfl⟩
    simp

/-- A block is the first one or begins where another one ends. -/
lemma At.prev {a : ℕ} {bs : Layout} {x : ℕ} {b : Block} (h : At a bs x b) :
    x = a ∨ ∃ y c, At a bs y c ∧ y + c.words = x := by
  obtain ⟨pre, post, rfl, rfl⟩ := at_iff_split.1 h
  rcases List.eq_nil_or_concat' pre with rfl | ⟨pre, c, rfl⟩
  · exact .inl rfl
  · exact .inr ⟨a + len pre, c, by simp, by simp [Nat.add_assoc]⟩

/-! ## Boundary tags -/

/-- The words `rd` hold every block's tag in its first and in its last word. -/
def Tagged (rd : ℕ → ℕ) (a : ℕ) (bs : Layout) : Prop :=
  ∀ x b, At a bs x b → rd x = b.tag ∧ rd (x + b.words - 1) = b.tag

@[simp] lemma tagged_nil (rd : ℕ → ℕ) (a : ℕ) : Tagged rd a [] := fun _ _ h => h.elim

@[simp] lemma tagged_cons (rd : ℕ → ℕ) (a : ℕ) (b : Block) (bs : Layout) :
    Tagged rd a (b :: bs) ↔
      (rd a = b.tag ∧ rd (a + b.words - 1) = b.tag) ∧ Tagged rd (a + b.words) bs := by
  constructor
  · exact fun h => ⟨h a b (.inl ⟨rfl, rfl⟩), fun x c hc => h x c (.inr hc)⟩
  · rintro ⟨hb, h⟩ x c (⟨rfl, rfl⟩ | hc)
    · exact hb
    · exact h x c hc

@[simp] lemma tagged_append (rd : ℕ → ℕ) (a : ℕ) (bs cs : Layout) :
    Tagged rd a (bs ++ cs) ↔ Tagged rd a bs ∧ Tagged rd (a + len bs) cs := by
  induction bs generalizing a with
  | nil => simp
  | cons b bs ih => simp [ih, and_assoc, Nat.add_assoc]

/-- Tags survive changes elsewhere. -/
lemma Tagged.congr {rd rd' : ℕ → ℕ} {a : ℕ} {bs : Layout} (h : Tagged rd a bs)
    (hrd : ∀ x b, At a bs x b → rd' x = rd x ∧ rd' (x + b.words - 1) = rd (x + b.words - 1)) :
    Tagged rd' a bs := by
  intro x b hx
  rw [(hrd x b hx).1, (hrd x b hx).2]
  exact h x b hx

/-- Tags survive changes outside the stretch that the layout covers. -/
lemma Tagged.congr_range {rd rd' : ℕ → ℕ} {a : ℕ} {bs : Layout} (h : Tagged rd a bs)
    (hrd : ∀ i, a ≤ i → i < a + len bs → rd' i = rd i) : Tagged rd' a bs := by
  apply h.congr
  intro x b hx
  have := hx.bounds
  have := b.words_ge
  exact ⟨hrd _ (by omega) (by omega), hrd _ (by omega) (by omega)⟩

/-- Tags determine the blocks. -/
lemma Tagged.unique {rd : ℕ → ℕ} {a : ℕ} {bs cs : Layout} (hbs : Tagged rd a bs)
    (hcs : Tagged rd a cs) (hlen : len bs = len cs) : bs = cs := by
  induction bs generalizing a cs with
  | nil =>
    cases cs with
    | nil => rfl
    | cons c cs =>
      have := c.words_ge
      simp at hlen
      omega
  | cons b bs ih =>
    cases cs with
    | nil =>
      have := b.words_ge
      simp at hlen
      omega
    | cons c cs =>
      rw [tagged_cons] at hbs hcs
      -- the first tag gives the first block, and with it where the next one starts
      have htag : b.tag = c.tag := hbs.1.1.symm.trans hcs.1.1
      have hsize : b.size = c.size := by rw [← b.tag_div, ← c.tag_div, htag]
      have hmod : b.alloc.toNat = c.alloc.toNat := by rw [← b.tag_mod, ← c.tag_mod, htag]
      have hbc : b = c := by
        apply Block.ext_words (by rw [← b.size_div_four, ← c.size_div_four, hsize])
        cases hb : b.alloc <;> cases hc : c.alloc <;> simp_all
      subst hbc
      rw [ih hbs.2 hcs.2 (by simpa using hlen)]

/-! ## Coalescing -/

/-- No two neighbours are both free. -/
def Coalesced (bs : Layout) : Prop :=
  bs.IsChain fun b c => b.alloc = true ∨ c.alloc = true

lemma Coalesced.left {bs cs : Layout} (h : Coalesced (bs ++ cs)) : Coalesced bs :=
  List.IsChain.left_of_append h

lemma Coalesced.right {bs cs : Layout} (h : Coalesced (bs ++ cs)) : Coalesced cs :=
  List.IsChain.right_of_append h

lemma Coalesced.tail {b : Block} {bs : Layout} (h : Coalesced (b :: bs)) : Coalesced bs :=
  List.IsChain.tail h

/-- In front of a free block there is none. -/
lemma Coalesced.last_alloc {pre : Layout} {p : Block} (h : Coalesced (pre ++ [p]))
    (hp : p.alloc = false) : ∀ q ∈ pre.getLast?, q.alloc = true := by
  intro q hq
  have := (List.isChain_append.1 h).2.2 q hq p rfl
  simpa [hp] using this

/-- Behind a free block there is none. -/
lemma Coalesced.head_alloc {n : Block} {post : Layout} (h : Coalesced (n :: post))
    (hn : n.alloc = false) : ∀ q ∈ post.head?, q.alloc = true := by
  intro q hq
  have := (List.isChain_cons.1 h).1 q hq
  simpa [hn] using this

/-- A block between allocated neighbours keeps a layout coalesced. -/
lemma Coalesced.insert {pre post : Layout} (b : Block) (hpre : Coalesced pre)
    (hpost : Coalesced post) (hlast : ∀ q ∈ pre.getLast?, q.alloc = true)
    (hhead : ∀ q ∈ post.head?, q.alloc = true) : Coalesced (pre ++ b :: post) := by
  apply hpre.append (hpost.cons fun q hq => .inr (hhead q hq))
  intro q hq c _
  exact .inl (hlast q hq)

/-- An allocated block may follow any other. -/
lemma Coalesced.append_alloc {bs cs : Layout} {b : Block} (hbs : Coalesced bs)
    (hcs : Coalesced (b :: cs)) (hb : b.alloc = true) : Coalesced (bs ++ b :: cs) := by
  apply hbs.append hcs
  intro q _ r hr
  obtain rfl : b = r := by simpa using hr
  exact .inr hb

/-- Neighbouring free blocks `mid` of `bs` are one free block `m` in `bs'`. -/
def Merges (bs bs' : Layout) : Prop :=
  ∃ pre mid m post, bs = pre ++ mid ++ post ∧ bs' = pre ++ m :: post ∧
    (∀ c ∈ mid, c.alloc = false) ∧ m.alloc = false ∧ m.words = len mid

/-- A free block is merged already. -/
lemma merges_self {pre : Layout} {b : Block} {post : Layout} (h : b.alloc = false) :
    Merges (pre ++ b :: post) (pre ++ b :: post) :=
  ⟨pre, [b], b, post, by simp, rfl, by simp [h], h, by simp⟩

/-- The allocated blocks of a layout. -/
def Live (a : ℕ) (bs : Layout) (x : ℕ) (b : Block) : Prop := At a bs x b ∧ b.alloc = true

lemma at_alloc_false {a : ℕ} {bs : Layout} (h : ∀ c ∈ bs, c.alloc = false) {x : ℕ} {b : Block} :
    ¬ Live a bs x b := by
  rintro ⟨hx, hb⟩
  obtain ⟨pre, post, rfl, _⟩ := at_iff_split.1 hx
  have := h b (by simp)
  simp [hb] at this

/-- A free block at the end adds no allocated one. -/
lemma live_append_free {a : ℕ} {bs : Layout} {b : Block} (hb : b.alloc = false) {x : ℕ}
    {c : Block} : Live a (bs ++ [b]) x c ↔ Live a bs x c := by
  simp only [Live, at_append, at_cons, at_nil, or_false, or_and_right]
  constructor
  · rintro (h | ⟨⟨-, rfl⟩, h⟩)
    · exact h
    · simp [hb] at h
  · exact .inl

/-- Marking a block free takes it from the allocated ones. -/
lemma live_mark_free {a : ℕ} {pre post : Layout} {b : Block} {x : ℕ} {c : Block} :
    Live a (pre ++ b.mark false :: post) x c ↔
      Live a (pre ++ b :: post) x c ∧ x ≠ a + len pre := by
  have hb := b.words_ge
  have hbounds := fun h : At a pre x c => h.bounds
  have hbounds' := fun h : At (a + len pre + b.words) post x c => h.bounds
  have hc := c.words_ge
  simp only [Live, at_append, at_cons, Block.mark_words]
  -- a block of the layout is in front of `b`, is `b` itself, or is behind it
  constructor
  · rintro ⟨h | ⟨-, rfl⟩ | h, hal⟩
    · exact ⟨⟨.inl h, hal⟩, by have := hbounds h; omega⟩
    · simp at hal
    · exact ⟨⟨.inr (.inr h), hal⟩, by have := hbounds' h; omega⟩
  · rintro ⟨⟨h | ⟨rfl, -⟩ | h, hal⟩, hne⟩
    · exact ⟨.inl h, hal⟩
    · exact absurd rfl hne
    · exact ⟨.inr (.inr h), hal⟩

/-- Merging keeps the length. -/
lemma Merges.len_eq {bs bs' : Layout} (h : Merges bs bs') : len bs' = len bs := by
  obtain ⟨pre, mid, m, post, rfl, rfl, -, -, hm⟩ := h
  simp [hm]

/-- Merging free blocks moves no allocated one. -/
lemma Merges.live_iff {bs bs' : Layout} (h : Merges bs bs') {a x : ℕ} {b : Block} :
    Live a bs' x b ↔ Live a bs x b := by
  obtain ⟨pre, mid, m, post, rfl, rfl, hmid, hm, hlen⟩ := h
  have hno : ¬ (At (a + len pre) mid x b ∧ b.alloc = true) := at_alloc_false hmid
  simp only [Live, at_append, at_cons, len_append, hlen, or_and_right, Nat.add_assoc]
  constructor
  · rintro (h | ⟨⟨-, rfl⟩, h⟩ | h)
    · exact .inl (.inl h)
    · simp [hm] at h
    · exact .inr h
  · rintro ((h | h) | h)
    · exact .inl h
    · exact absurd h hno
    · exact .inr (.inr h)

/-- A free block is part of one that is at least as large after free blocks have been merged. -/
lemma Merges.exists_free {bs bs' : Layout} (h : Merges bs bs') {a x : ℕ} {b : Block}
    (hx : At a bs x b) (hb : b.alloc = false) :
    ∃ y c, At a bs' y c ∧ c.alloc = false ∧ b.size ≤ c.size := by
  obtain ⟨pre, mid, m, post, rfl, rfl, -, hm, hlen⟩ := h
  simp only [at_append, len_append, ← Nat.add_assoc] at hx
  rcases hx with (hx | hx) | hx
  · exact ⟨x, b, by simp [hx], hb, le_rfl⟩
  · have hbounds := hx.bounds
    have hb4 := b.four_words
    have hm4 := m.four_words
    exact ⟨a + len pre, m, by simp, hm, by omega⟩
  · exact ⟨x, b, by simp [hlen, hx], hb, le_rfl⟩

/-- The allocated block `b` takes the front of a free block of `bs`, at word `x`; what
remains of that block is free in `bs'`. -/
def Allocates (a : ℕ) (bs bs' : Layout) (x : ℕ) (b : Block) : Prop :=
  ∃ pre c rest post, bs = pre ++ c :: post ∧ bs' = pre ++ b :: rest ++ post ∧
    x = a + len pre ∧ c.alloc = false ∧ b.alloc = true ∧ rest.length ≤ 1 ∧
    (∀ d ∈ rest, d.alloc = false) ∧ b.words + len rest = c.words

namespace Allocates

variable {a : ℕ} {bs bs' : Layout} {x : ℕ} {b : Block}

lemma len_eq (h : Allocates a bs bs' x b) : len bs' = len bs := by
  obtain ⟨pre, c, rest, post, rfl, rfl, -, -, -, -, -, hlen⟩ := h
  simp only [len_append, len_cons]
  omega

lemma at_new (h : Allocates a bs bs' x b) : Live a bs' x b := by
  obtain ⟨pre, c, rest, post, rfl, rfl, rfl, -, hb, -, -, -⟩ := h
  exact ⟨by simp, hb⟩

/-- The allocated blocks are those from before and the new one. -/
lemma live_iff (h : Allocates a bs bs' x b) {y : ℕ} {d : Block} :
    Live a bs' y d ↔ Live a bs y d ∨ (y = x ∧ d = b) := by
  obtain ⟨pre, c, rest, post, rfl, rfl, rfl, hc, hb, -, hrest, hlen⟩ := h
  have hno : ¬ Live (a + len pre + b.words) rest y d := at_alloc_false hrest
  -- what follows the old free block stays where it was
  have hpost : a + len pre + c.words = a + (len pre + (b.words + len rest)) := by omega
  simp only [Live, at_append, at_cons, len_append, len_cons, hpost, or_and_right] at hno ⊢
  constructor
  · rintro ((h | ⟨⟨rfl, rfl⟩, h⟩ | h) | h)
    · exact .inl (.inl h)
    · exact .inr ⟨rfl, rfl⟩
    · exact absurd h hno
    · exact .inl (.inr (.inr h))
  · rintro ((h | ⟨⟨-, rfl⟩, h⟩ | h) | ⟨rfl, rfl⟩)
    · exact .inl (.inl h)
    · simp [hc] at h
    · exact .inr h
    · exact .inl (.inr (.inl ⟨⟨rfl, rfl⟩, hb⟩))

/-- The new block was not allocated before. -/
lemma fresh (h : Allocates a bs bs' x b) (d : Block) : ¬ Live a bs x d := by
  obtain ⟨pre, c, rest, post, rfl, rfl, rfl, hc, -⟩ := h
  rintro ⟨hx, hd⟩
  have hcx : At a (pre ++ c :: post) (a + len pre) c := by simp
  rw [hx.unique hcx, hc] at hd
  cases hd

/-- The other blocks stay. -/
lemma at_other (h : Allocates a bs bs' x b) {y : ℕ} {d : Block} (hy : At a bs y d) (hne : y ≠ x) :
    At a bs' y d := by
  obtain ⟨pre, c, rest, post, rfl, rfl, rfl, -, -, -, -, hlen⟩ := h
  have hpost : a + len pre + c.words = a + (len pre + (b.words + len rest)) := by omega
  simp only [at_append, at_cons, len_append, len_cons, hpost] at hy ⊢
  rcases hy with hy | ⟨hy, -⟩ | hy
  · exact .inl (.inl hy)
  · exact absurd hy hne
  · exact .inr hy

lemma coalesced (h : Allocates a bs bs' x b) (hbs : Coalesced bs) : Coalesced bs' := by
  obtain ⟨pre, c, rest, post, rfl, rfl, -, hc, hb, hrest, -, -⟩ := h
  have hpre := hbs.left
  have hcpost := hbs.right
  have hpost := hcpost.tail
  have hhead := hcpost.head_alloc hc
  have htail : Coalesced (rest ++ post) := by
    match rest, hrest with
    | [], _ => exact hpost
    | [d], _ => exact List.IsChain.cons hpost fun q hq => .inr (hhead q hq)
  rw [List.append_assoc, List.cons_append]
  exact hpre.append_alloc (htail.cons fun q _ => .inl hb) hb

end Allocates

/-! ## A coalesced layout is canonical -/

/-- Two blocks that open coalesced layouts with the same allocated blocks have the same
size: the shorter one would be followed by an allocated block inside the other. -/
private lemma first_words_le {a : ℕ} {b c : Block} {bs cs : Layout}
    (hb : Coalesced (b :: bs)) (hfree : b.alloc = false)
    (hlen : len (c :: cs) = len (b :: bs))
    (hlive : ∀ x d, Live a (b :: bs) x d → Live a (c :: cs) x d) : c.words ≤ b.words := by
  by_contra hlt
  cases bs with
  | nil => simp at hlen; omega
  | cons d bs =>
    have hd : d.alloc = true := by
      have := (List.isChain_cons_cons.1 hb).1
      simpa [hfree] using this
    have hw := b.words_ge
    rcases (hlive (a + b.words) d ⟨by simp, hd⟩).1 with ⟨hx, -⟩ | hx
    · omega
    · have := hx.bounds
      omega

/-- A coalesced layout is determined by its length and its allocated blocks. -/
theorem layout_unique {a : ℕ} {bs cs : Layout} (hbs : Coalesced bs) (hcs : Coalesced cs)
    (hlen : len bs = len cs) (hlive : ∀ x d, Live a bs x d ↔ Live a cs x d) : bs = cs := by
  induction bs generalizing a cs with
  | nil =>
    cases cs with
    | nil => rfl
    | cons c cs =>
      have := c.words_ge
      simp at hlen
      omega
  | cons b bs ih =>
    cases cs with
    | nil =>
      have := b.words_ge
      simp at hlen
      omega
    | cons c cs =>
      have hbw := b.words_ge
      have hcw := c.words_ge
      have hbc : b = c := by
        -- an allocated first block is a block of the other layout, and starts there first too
        cases hb : b.alloc with
        | true =>
          rcases ((hlive a b).1 ⟨.inl ⟨rfl, rfl⟩, hb⟩).1 with h | h
          · exact h.2
          · have := h.bounds
            omega
        | false =>
          cases hc : c.alloc with
          | true =>
            rcases ((hlive a c).2 ⟨.inl ⟨rfl, rfl⟩, hc⟩).1 with h | h
            · exact h.2.symm
            · have := h.bounds
              omega
          | false =>
            -- both are free: each is as long as the stretch in front of the same block
            have h1 := first_words_le hbs hb hlen.symm fun x d => (hlive x d).1
            have h2 := first_words_le hcs hc hlen fun x d => (hlive x d).2
            exact Block.ext_words (by omega) (by rw [hb, hc])
      subst hbc
      congr 1
      apply ih hbs.tail hcs.tail (a := a + b.words) (by simpa using hlen)
      intro x d
      have hout : ∀ ds : Layout, Live (a + b.words) ds x d → x ≠ a := by
        rintro ds ⟨h, -⟩
        have := h.bounds
        omega
      constructor
      · intro h
        have hne := hout bs h
        have := (hlive x d).1 ⟨.inr h.1, h.2⟩
        simpa [Live, hne] using this
      · intro h
        have hne := hout cs h
        have := (hlive x d).2 ⟨.inr h.1, h.2⟩
        simpa [Live, hne] using this

/-! ## Layouts in a segment -/

end Layout

open Layout

/-- Writes the tag of `b` at both ends of a block that starts at word `x`. -/
def Segment.retag (s : Segment) (x : ℕ) (b : Block) : Segment :=
  (s.setWord x b.tag).setWord (x + b.words - 1) b.tag

namespace Segment

@[simp] lemma brk_retag (s : Segment) (x : ℕ) (b : Block) : (s.retag x b).brk = s.brk := rfl

@[simp] lemma cap_retag (s : Segment) (x : ℕ) (b : Block) : (s.retag x b).cap = s.cap := rfl

lemma sameBut_retag {W : ℕ → Prop} (s : Segment) {x : ℕ} (b : Block) (h : W x)
    (h' : W (x + b.words - 1)) : SameBut W s (s.retag x b) :=
  ((SameBut.refl W s).setWord _ h).setWord _ h'

lemma word_retag_header (s : Segment) (x : ℕ) {b : Block} (h : b.tag < 2 ^ 32) :
    (s.retag x b).word x = b.tag := by
  have := b.words_ge
  rw [retag, word_setWord_ne _ _ (by omega), word_setWord_same, Nat.mod_eq_of_lt h]

lemma word_retag_footer (s : Segment) (x : ℕ) {b : Block} (h : b.tag < 2 ^ 32) :
    (s.retag x b).word (x + b.words - 1) = b.tag := by
  rw [retag, word_setWord_same, Nat.mod_eq_of_lt h]

end Segment

namespace Layout

/-- The words `lo, ..., hi - 1`. -/
def Between (lo hi i : ℕ) : Prop := lo ≤ i ∧ i < hi

lemma sameBut_retag (s : Segment) {lo hi x : ℕ} (b : Block) (hlo : lo ≤ x)
    (hhi : x + b.words ≤ hi) : s.SameBut (Between lo hi) (s.retag x b) := by
  have hw := b.words_ge
  exact s.sameBut_retag b ⟨hlo, by omega⟩ ⟨by omega, by omega⟩

lemma tagged_retag (s : Segment) (x : ℕ) {b : Block} (h : b.tag < 2 ^ 32) :
    Tagged (s.retag x b).word x [b] := by
  simpa using ⟨s.word_retag_header x h, s.word_retag_footer x h⟩

/-- Two neighbours whose tags are written one after the other. -/
lemma tagged_retag_retag (s : Segment) (x : ℕ) {b d : Block} (hb : b.tag < 2 ^ 32)
    (hd : d.tag < 2 ^ 32) :
    Tagged ((s.retag x b).retag (x + b.words) d).word x [b, d] := by
  have hout : ∀ i < x + b.words,
      ((s.retag x b).retag (x + b.words) d).word i = (s.retag x b).word i := by
    intro i hi
    apply (sameBut_retag (s.retag x b) d le_rfl le_rfl).word
    intro h
    exact absurd h.1 (by omega)
  have h1 := (tagged_retag s x hb).congr_range fun i _ hi => hout i (by simpa using hi)
  have h2 := tagged_retag (s.retag x b) (x + b.words) hd
  rw [tagged_cons] at h1 ⊢
  exact ⟨h1.1, h2⟩

/-- The tags of two blocks that share the place of `d` are written inside it. -/
lemma sameBut_retag_retag (s : Segment) (x : ℕ) {b e d : Block}
    (hlen : b.words + e.words = d.words) :
    s.SameBut (Between x (x + len [d])) ((s.retag x b).retag (x + b.words) e) := by
  have hend : x + len [d] = x + b.words + e.words := by
    simp only [len_cons, len_nil]
    omega
  apply (sameBut_retag s b le_rfl (by omega)).trans
  exact sameBut_retag _ e (by omega) (by omega)

/-- Blocks whose tags are written over a stretch of others replace them in the layout. -/
lemma Tagged.replace {s s' : Segment} {a : ℕ} {pre mid mid' post : Layout}
    (h : Tagged s.word a (pre ++ mid ++ post)) (hlen : len mid' = len mid)
    (hmid : Tagged s'.word (a + len pre) mid')
    (hsame : s.SameBut (Between (a + len pre) (a + len pre + len mid)) s') :
    Tagged s'.word a (pre ++ mid' ++ post) := by
  simp only [tagged_append, len_append, ← Nat.add_assoc] at h ⊢
  rw [hlen]
  refine ⟨⟨h.1.1.congr_range fun i _ hi => hsame.word ?_, hmid⟩,
    h.2.congr_range fun i hi _ => hsame.word ?_⟩
  · exact fun hb => absurd hb.1 (by omega)
  · exact fun hb => absurd hb.2 (by omega)

/-- Writes between the tags of a block leave all tags alone. -/
lemma Tagged.write {s s' : Segment} {a : ℕ} {bs : Layout} {x : ℕ} {b : Block}
    (h : Tagged s.word a bs) (hx : At a bs x b)
    (hsame : s.SameBut (Between (x + 1) (x + b.words - 1)) s') : Tagged s'.word a bs := by
  apply h.congr
  intro y c hy
  -- the tags of `b` are its first and last word, those of other blocks lie outside it
  rcases hx.disjoint hy with ⟨rfl, rfl⟩ | hlt | hlt
  all_goals
    exact ⟨hsame.word fun hi => by obtain ⟨_, _⟩ := hi; omega,
      hsame.word fun hi => by obtain ⟨_, _⟩ := hi; omega⟩

/-- Every byte of the blocks `L` is the same in `s'` as in `s`. -/
def Keeps (L : ℕ → Block → Prop) (s s' : Segment) : Prop :=
  ∀ x b, L x b → ∀ i, x ≤ i / 4 → i / 4 < x + b.words → s'.bytes i = s.bytes i

namespace Keeps

variable {L L' : ℕ → Block → Prop} {s s' s'' : Segment}

lemma refl (L : ℕ → Block → Prop) (s : Segment) : Keeps L s s := fun _ _ _ _ _ _ => rfl

lemma mono (h : Keeps L s s') (hL : ∀ x b, L' x b → L x b) : Keeps L' s s' :=
  fun x b hx => h x b (hL x b hx)

lemma trans (h : Keeps L s s') (h' : Keeps L s' s'') : Keeps L s s'' :=
  fun x b hx i h1 h2 => (h' x b hx i h1 h2).trans (h x b hx i h1 h2)

lemma word (h : Keeps L s s') {x : ℕ} {b : Block} (hx : L x b) {i : ℕ} (h1 : x ≤ i)
    (h2 : i < x + b.words) : s'.word i = s.word i :=
  Bytes.word_congr fun a ha => h x b hx a (by omega) (by omega)

end Keeps

/-- Changes past the end of a layout touch none of its blocks. -/
lemma keeps_of_lt {s s' : Segment} {a : ℕ} {bs : Layout}
    (h : ∀ i, i / 4 < a + len bs → s'.bytes i = s.bytes i) : Keeps (Live a bs) s s' := by
  rintro x b ⟨hx, -⟩ i - hi
  have := hx.bounds
  exact h i (by omega)

/-- Changes inside a stretch of free blocks touch no allocated one. -/
lemma keeps_replace {s s' : Segment} {a : ℕ} {pre mid post : Layout}
    (hmid : ∀ c ∈ mid, c.alloc = false)
    (hsame : s.SameBut (Between (a + len pre) (a + len pre + len mid)) s') :
    Keeps (Live a (pre ++ mid ++ post)) s s' := by
  rintro x b ⟨hx, hb⟩ i h1 h2
  apply hsame.bytes i
  intro hi
  obtain ⟨hlo, hhi⟩ := hi
  simp only [at_append, len_append, or_assoc] at hx
  rcases hx with hx | hx | hx
  · have := hx.bounds
    omega
  · exact absurd ⟨hx, hb⟩ (at_alloc_false hmid)
  · have := hx.bounds
    omega

end Layout
end Memory
end SystemsLabs
