import SystemsLabs.Malloclab.Seglist
import SystemsLabs.Malloclab.ListCalls

/-!
# The contract of `mm-seglist.c`

The heap begins with a word of padding, the prologue block with the nine heads in its
payload, and the epilogue at word 12. A block is on the list for its size, so every
function that changes the size of a listed block moves it to another list if need be.
-/

namespace SystemsLabs
namespace Malloclab
namespace Seglist

open Memory Layout ListBased

/-! ## Size classes -/

lemma getSegListIndex_pos (n : ℕ) : 1 ≤ getSegListIndex n := by
  unfold getSegListIndex
  omega

lemma getSegListIndex_le (n : ℕ) : getSegListIndex n ≤ 9 := by
  have h := fun k => Bool.toNat_le (decide (k ≤ n))
  have h1 := h 32
  have h2 := h 64
  have h3 := h 128
  have h4 := h 256
  have h5 := h 512
  have h6 := h 1024
  have h7 := h 2048
  have h8 := h 4096
  unfold getSegListIndex
  omega

/-- Larger blocks are on later lists. -/
lemma getSegListIndex_mono {m n : ℕ} (h : m ≤ n) : getSegListIndex m ≤ getSegListIndex n := by
  have hk : ∀ k, (decide (k ≤ m)).toNat ≤ (decide (k ≤ n)).toNat := fun k => by
    by_cases hm : k ≤ m
    · simp [hm, hm.trans h]
    · simp [hm]
  unfold getSegListIndex
  gcongr <;> exact hk _

/-- The nine lists, with their heads in the payload of the prologue. -/
def format : Format where
  heads := [2, 3, 4, 5, 6, 7, 8, 9, 10]
  slot q := if 1 < q ∧ q < 11 then q else q + 1
  last := 12
  head n := 1 + getSegListIndex n
  prologue := 45
  head_mem n := by
    have h1 := getSegListIndex_pos n
    have h2 := getSegListIndex_le n
    generalize getSegListIndex n = i at *
    interval_cases i <;> simp
  head_lt := by decide
  slot_lt := by decide
  slot_ne := by decide
  slot_inj := by decide
  slot_block q hq := if_neg (by omega)
  last_even := rfl
  one_lt := by norm_num
  last_lt := by norm_num

/-- The parts of the allocator that its shared functions are made of. -/
def code : Code where
  setNext := setNext 1
  placeFreeBlock := placeFreeBlock 1
  joinPrev prev := do
    removeBlock 1 prev
    placeFreeBlock 1 prev
  afterSplit bsize block := do
    if getSegListIndex (← blockSize block) ≠ getSegListIndex (bsize % 2 ^ 32) then
      removeBlock 1 block
      let _ ← placeFreeBlock 1 block
  findFit := findFit 1

lemma setsNext : SetsNext format (setNext 1) := by
  intro p v Q s
  simp only [setNext, format, wp_ite, wp_store]
  split <;> rfl

lemma placesFree : PlacesFree format (placeFreeBlock 1) := by
  intro s M x h hlt hin hapart
  have h1 := getSegListIndex_pos (s.word x / 8 * 8)
  have h2 := getSegListIndex_le (s.word x / 8 * 8)
  have hslot : format.slot (format.head (s.word x / 8 * 8)) = format.head (s.word x / 8 * 8) :=
    if_pos ⟨by simp only [format]; omega, by simp only [format]; omega⟩
  have hnext : address (fixAddress (s.word (format.head (s.word x / 8 * 8)))) % 2 ^ 32 / 4
      = format.nxt s.word (format.head (s.word x / 8 * 8)) := by
    rw [fixAddress_eq (s.word_lt _), address_mod, Format.nxt, hslot]
    have := s.word_lt (format.head (s.word x / 8 * 8))
    omega
  have hlink := linkFront_links setsNext h (format.head_mem _) hlt hin hapart hnext
  simp only [placeFreeBlock, wp_bind, wp_blockSize, wp_load]
  have hlast : format.last = 12 := rfl
  exact ⟨by omega, by omega, hlink⟩

section Relist
variable {s : Segment} {bs : Layout} {M : ℕ → ℕ → Prop} {k n x : ℕ} {m : Block}

/-- A listed block is taken from its list and put on the one for its size. -/
lemma relist_spec (h : Heap format s bs M) (hx : At format.first bs x m) (hfree : m.alloc = false)
    (hk : M k x) :
    wp (do removeBlock 1 x; placeFreeBlock 1 x) (fun r s' => r = x ∧
      Heap format s' bs (Relist M x (format.head m.size)) ∧ Keeps (Live format.first bs) s s') s := by
  refine wp_call (h.removeBlock setsNext hk) ?_
  rintro _ s₁ ⟨h₁, hk₁⟩
  refine wp_mono (h₁.placeFree placesFree hx hfree fun {j q} hq => ?_) ?_
  · exact (h.lists.apart hq.1 hk).resolve_left fun heq => hq.2 heq.2
  · rintro r s₂ ⟨rfl, h₂, hk₂⟩
    exact ⟨rfl, h₂, hk₁.trans hk₂⟩

lemma afterSplit_spec (h : Heap format s bs M) (hx : At format.first bs x m)
    (hfree : m.alloc = false) (hk : M (format.head n) x) (hn : n < 2 ^ 32) :
    wp (code.afterSplit n x) (fun _ s' => Heap format s' bs (Relist M x (format.head m.size)) ∧
      Keeps (Live format.first bs) s s') s := by
  have hbounds := hx.bounds
  have hbrk := h.tiles.brk
  have hw := m.words_ge
  simp only [code, wp_bind, wp_blockSize, (h.tiles.tags x m hx).1, m.tag_div, wp_ite, wp_pure,
    Nat.mod_eq_of_lt hn]
  refine ⟨by omega, ?_⟩
  split
  · have hrelist := relist_spec h hx hfree hk
    rw [wp_bind] at hrelist
    exact wp_mono hrelist fun _ _ h' => wp_call h' fun _ _ hpost => (wp_pure _ _ _).2 hpost.2
  · next hsame =>
    have hhead : format.head m.size = format.head n := by
      simp only [format]
      omega
    rw [hhead]
    exact ⟨h.congr_mem fun _ _ => relist_self h.lists hk, Keeps.refl _ _⟩

end Relist

/-! ## `find_fit` -/

section Find
variable {s : Segment} {bs : Layout} {size : ℕ}

/-- The search of the lists `i, ..., 9`, when the earlier ones have no block that fits. -/
lemma findFitLoop_spec (h : Inv format s bs) {count i : ℕ} (hcount : count + i = 10) (hi : 1 ≤ i)
    (hbefore : ∀ x e, At format.first bs x e → e.alloc = false → getSegListIndex e.size < i →
      e.size < size) :
    wp (findFitLoop 1 size count i) (fun r s' => s' = s ∧ FindsFit format.first bs size r) s := by
  induction count generalizing i with
  | zero =>
    refine (wp_pure _ _ _).2 ⟨rfl, fun x e he hfree => hbefore x e he hfree ?_⟩
    have := getSegListIndex_le e.size
    omega
  | succ count ih =>
    -- the head of list `i` is word `1 + i`
    have hmem : 1 + i ∈ format.heads := by
      have h9 : i ≤ 9 := by omega
      interval_cases i <;> decide
    obtain ⟨l, -, hl, hchain, hlen⟩ := h.list hmem
    have hslot : format.slot (1 + i) = 1 + i := if_pos ⟨by omega, by omega⟩
    have hnext : fixAddress (s.word (1 + i)) = format.nxt s.word (1 + i) := by
      rw [fixAddress_eq (s.word_lt _), Format.nxt, hslot]
    have hbrk := h.tiles.brk
    have hfirst : format.first = 13 := rfl
    have hin : 4 * format.nxt s.word (1 + i) + 4 ≤ s.brk := by
      rcases hchain.nxt_eq with hmem | hlast
      · have := ((hl _).1 hmem).bounds
        omega
      · have : format.last = 12 := rfl
        omega
    have hloop := findLoop_spec size s.brk h.tiles
      (fun q hq => by obtain ⟨e, he, hfree, -⟩ := (hl q).1 hq; exact ⟨e, he, hfree⟩) hchain
      (by omega)
    simp only [findFitLoop, findInList, wp_bind, wp_load, hnext, wp_blockSize, wp_length]
    refine ⟨by omega, hin, wp_mono hloop ?_⟩
    rintro r s' ⟨rfl, hr⟩
    cases r with
    | none =>
      -- nothing fits on this list, so the bound on the lists before moves on by one
      refine ih (by omega) (by omega) fun x e he hfree hidx => ?_
      by_cases hlt : getSegListIndex e.size < i
      · exact hbefore x e he hfree hlt
      · refine hr x ((hl x).2 ⟨e, he, hfree, ?_⟩) e he
        simp only [format]
        omega
    | some bp =>
      obtain ⟨y, -, e, hrest⟩ := hr
      exact (wp_pure _ _ _).2 ⟨rfl, y, e, hrest⟩

/-- The lists that are not searched have only blocks that are too small. -/
lemma findFit_spec (h : Inv format s bs) (hsize : size < 2 ^ 32) :
    wp (findFit 1 size) (fun r s' => s' = s ∧ FindsFit format.first bs size r) s := by
  have hpos := getSegListIndex_pos size
  have hle := getSegListIndex_le size
  rw [findFit, Nat.mod_eq_of_lt hsize]
  refine findFitLoop_spec h (by omega) hpos fun x e _ _ hlt => ?_
  by_contra hge
  have := getSegListIndex_mono (Nat.le_of_not_lt hge)
  omega

/-- A search for more than a header can say finds nothing either, whatever list it begins at. -/
lemma findFit_finds (h : Inv format s bs) (size : ℕ) :
    wp (findFit 1 size) (fun r s' => s' = s ∧ FindsFit format.first bs size r) s := by
  rcases lt_or_ge size (2 ^ 32) with hlt | hge
  · exact findFit_spec h hlt
  · have hpos := getSegListIndex_pos (size % 2 ^ 32)
    have hle := getSegListIndex_le (size % 2 ^ 32)
    rw [findFit]
    refine findFitLoop_spec h (by omega) hpos fun x e he _ _ => ?_
    have hbounds := he.bounds
    have hbrk := h.tiles.brk
    have hbound := h.tiles.le
    have h4 := e.four_words
    have hfirst : format.first = 13 := rfl
    omega

end Find

theorem implements : Implements format code where
  setNext := setsNext
  placeFreeBlock := placesFree
  joinPrev := relist_spec
  afterSplit := afterSplit_spec
  findFit h _ hsize := findFit_spec h hsize

/-! ## `mm_init`, `malloc` and `free` -/

/-- `mm_init` leaves a heap of one free block. -/
theorem mmInit_spec {bytes : Bytes} {cap : ℕ} (grant₁ grant₂ : Bool) (hcap : cap ≤ 2 ^ 32) :
    wp (mmInit grant₁ grant₂) (fun r s' => ∀ hp, r = some hp → hp = 1 ∧
      ∃ e, e.alloc = false ∧ Inv format s' [e]) ⟨bytes, 0, cap⟩ := by
  simp only [mmInit, memSbrk, WSIZE, bind_pure_comp, wp_bind, wp_map, wp_grow]
  split
  · next hgrant =>
    let ep := address 12
    let s : Segment := ((((((((((((((Segment.mk bytes 0 cap).setBrk 52).setWord 0 0).setWord 1 45
      |>.setWord 2 ep).setWord 3 ep).setWord 4 ep).setWord 5 ep).setWord 6 ep).setWord 7 ep).setWord
        8 ep).setWord 9 ep).setWord 10 ep).setWord 11 45).setWord 12 1)
    have hs : Inv format s [] := by
      refine inv_nil ⟨rfl, by simp [s], hcap, ?_, ?_, by simp⟩ ?_
      · simp [s, format, Segment.word_setWord]
      · simp [s, format, Segment.word_setWord]
      · simp [s, ep, format, Format.nxt, Segment.word_setWord, address, heapLo, WSIZE]
    let e : Block := ⟨256, false, by norm_num, by norm_num⟩
    have hext := extendHeap_spec implements grant₂ hs (b := e) rfl (by norm_num [e])
    simp [put, pack]
    refine wp_mono hext ?_
    rintro _ s' (⟨rfl, rfl⟩ | ⟨rfl, hinv, -⟩)
    · simp
    · simpa using ⟨e, rfl, hinv⟩
  · simp

section Calls
variable {s : Segment} {bs pre post : Layout} {b d : Block} {n x : ℕ}

theorem malloc_spec (grant : Bool) (h : Inv format s bs) (hn : n < 2 ^ 31) :
    wp (malloc 1 grant n) (Serves format code s bs n) s :=
  ListBased.malloc_spec implements grant h hn (by decide) (by decide)

/-- `malloc` of any size whose arithmetic does not wrap. -/
lemma malloc_answers (grant : Bool) (h : Inv format s bs) (hpos : 0 < n) (hn : n ≤ 2 ^ 64 - 16) :
    wp (malloc 1 grant n) (Answers format code CHUNKSIZE grant s bs n) s :=
  ListBased.malloc_answers implements grant h hpos hn (by decide) (by decide) (findFit_finds h _)

lemma malloc_mallocs (grant : Bool) (h : Inv format s bs) (hn : n ≤ 2 ^ 64 - 16) :
    wp (malloc 1 grant n) (Mallocs 13 (Inv format) s bs n) s := by
  rcases Nat.eq_zero_or_pos n with rfl | hpos
  · exact (wp_pure _ _ _).2 rfl
  · exact wp_mono (malloc_answers grant h hpos hn) fun _ _ h => h.mallocs hn

lemma malloc_eq_none_iff {s' : Segment} (grant : Bool) (h : Inv format s bs) (hpos : 0 < n) :
    (malloc 1 grant n).run s = some (none, s') ↔ s' = s ∧ FindsFit 13 bs (getMallocSize n) none ∧
      ¬ Grants grant s (max (getMallocSize n) CHUNKSIZE) :=
  ListBased.malloc_eq_none_iff implements grant h hpos (by decide) (by decide) (by decide)
    (findFit_finds h _)

lemma free_frees (h : Inv format s bs) (hx : Live 13 bs x b) :
    wp (free 1 (some (x + 1))) (fun _ s' => Frees 13 (Inv format) s bs x s') s :=
  ListBased.free_frees (f := format) (c := code) implements h hx

/-! ## `realloc` -/

/-- `realloc` to the size that the block has changes nothing. -/
lemma realloc_same (grant : Bool) (junk : ℕ → UInt8) (h : Inv format s bs) (hd : Live 13 bs x d)
    (hpos : 0 < n) (hsize : getMallocSize n = d.size) :
    wp (realloc 1 grant junk (some (x + 1)) n) (fun r s' => r = some (x + 1) ∧ s' = s) s := by
  have hbounds := hd.1.bounds
  have hbrk := h.tiles.brk
  have hfirst : format.first = 13 := rfl
  have hw := d.words_ge
  have htag := (h.tiles.tags x d hd.1).1
  simp only [realloc, hpos.ne', if_false, Nat.add_sub_cancel, wp_bind, wp_blockSize, htag,
    d.tag_div, hsize, if_true, wp_pure]
  exact ⟨by omega, trivial, trivial⟩

/-- `realloc` to a much smaller size frees the end of the block. -/
lemma realloc_shrink (grant : Bool) (junk : ℕ → UInt8) (h : Inv format s (pre ++ d :: post))
    (hd : d.alloc = true) (hpos : 0 < n) (hb : b.alloc = true) (hsize : b.size = getMallocSize n)
    (hshrinks : shrinks d.size b.size) {e : Block} (he : e.alloc = false)
    (hesize : e.size = d.size - b.size) (hlen : b.words + e.words = d.words) :
    wp (realloc 1 grant junk (some (13 + len pre + 1)) n) (fun r s' => r = some (13 + len pre + 1) ∧
      ∃ r' bs', Coalesces format ((s.retag (13 + len pre) b).retag (13 + len pre + b.words) e)
        (pre ++ [b]) e post r' s' bs') s := by
  have hbrk := h.tiles.brk
  have hbound := h.tiles.le
  have hfirst : format.first = 13 := rfl
  have hhdr := h.tiles.word_header
  have hw := d.words_ge
  have hbw := b.words_ge
  have hew := e.words_ge
  have h4 := d.four_words
  have hb4 := b.four_words
  have he4 := e.four_words
  have hle := e.le
  have hco := coalesce_spec implements (h.shrink hd hb he hlen) he
  simp only [len_append, len_cons, len_nil, hfirst, Nat.add_zero, ← Nat.add_assoc] at hbrk hhdr hco
  have hsub : szSub d.size b.size = e.size := by rw [hesize, szSub_eq (by omega) (by omega)]
  have hmod : (b.size + 1) % 4294967296 = b.size + 1 := Nat.mod_eq_of_lt (by omega)
  have hmod' : e.size % 4294967296 = e.size := Nat.mod_eq_of_lt (by omega)
  have hne : b.size ≠ d.size := by omega
  have hdiv : (b.size + 1) / 8 * 8 = b.size := by
    have := b.tag_div
    rwa [Block.tag_of_alloc hb] at this
  generalize 13 + len pre = x at *
  -- `y` is where the cut is
  obtain ⟨y, hy⟩ : ∃ y, x + b.words = y := ⟨_, rfl⟩
  have hend : x + b.words - 1 = y - 1 := by omega
  have hback : y - 1 + 1 = y := by omega
  have hxy : x ≠ y - 1 ∧ y ≠ x ∧ y ≠ y - 1 := by omega
  have hfoot : y - 1 + e.words = y + e.words - 1 := by omega
  simp only [Segment.retag, Block.tag_of_alloc hb, Block.tag_of_free he, hy] at hco ⊢
  simp [realloc, hpos.ne', getFooterEl, WSIZE, hhdr, d.tag_div, ← hsize, hne, hshrinks, hsub,
    pack_one b.dvd, pack_zero, Segment.word_setWord, hmod, hmod', hdiv, hend, hback, hxy]
  rw [hfoot]
  refine ⟨by omega, by omega, by omega, by omega, by omega, wp_mono hco ?_⟩
  rintro r s' ⟨bs', h'⟩
  exact ⟨r, bs', h'⟩

/-- The allocated blocks after one has been cut in two. -/
lemma live_shrink {a y : ℕ} {e g : Block} (hb : b.alloc = true) (he : e.alloc = false)
    (hlen : b.words + e.words = d.words) :
    Live a (pre ++ [b] ++ e :: post) y g ↔
      (Live a (pre ++ d :: post) y g ∧ y ≠ a + len pre) ∨ (y = a + len pre ∧ g = b) := by
  have hw := b.words_ge
  have hpost : a + (len pre + b.words) + e.words = a + len pre + d.words := by omega
  simp only [Live, at_append, at_cons, at_nil, or_false, len_append, len_cons, len_nil,
    Nat.add_zero, hpost]
  constructor
  · rintro ⟨(hy | ⟨rfl, rfl⟩) | ⟨-, rfl⟩ | hy, hg⟩
    · have := hy.bounds
      have := g.words_ge
      exact .inl ⟨⟨.inl hy, hg⟩, by omega⟩
    · exact .inr ⟨rfl, rfl⟩
    · rw [he] at hg
      cases hg
    · have := hy.bounds
      exact .inl ⟨⟨.inr (.inr hy), hg⟩, by omega⟩
  · rintro (⟨⟨hy | ⟨hy, -⟩ | hy, hg⟩, hne⟩ | ⟨rfl, rfl⟩)
    · exact ⟨.inl (.inl hy), hg⟩
    · exact absurd hy hne
    · exact ⟨.inr (.inr hy), hg⟩
    · exact ⟨.inl (.inr ⟨rfl, rfl⟩), hb⟩

/-- Cut in place, a block keeps the front of its payload. -/
lemma reallocs_of_shrink {e : Block} {r : ℕ} {s' : Segment} {bs' : Layout} (hb : b.alloc = true)
    (he : e.alloc = false) (hlen : b.words + e.words = d.words)
    (hn : n + 8 ≤ b.size)
    (hco : Coalesces format ((s.retag (13 + len pre) b).retag (13 + len pre + b.words) e)
      (pre ++ [b]) e post r s' bs') :
    Reallocs 13 (Inv format) s (pre ++ d :: post) (13 + len pre) d n (some (13 + len pre + 1))
      s' := by
  have hbw := b.words_ge
  have hew := e.words_ge
  have hb4 := b.four_words
  have hx : At 13 (pre ++ d :: post) (13 + len pre) d := by simp
  have hlive : ∀ y g, Live 13 (pre ++ [b] ++ e :: post) y g ↔
      (Live 13 (pre ++ d :: post) y g ∧ y ≠ 13 + len pre) ∨ (y = 13 + len pre ∧ g = b) :=
    fun y g => live_shrink hb he hlen
  generalize 13 + len pre = x at *
  have hwrite : s.SameBut (fun i => i = x ∨ Between (x + b.words - 1) (x + d.words) i)
      ((s.retag x b).retag (x + b.words) e) :=
    (s.sameBut_retag b (Or.inl rfl) (Or.inr ⟨by omega, by omega⟩)).trans
      ((s.retag x b).sameBut_retag e (Or.inr ⟨by omega, by omega⟩)
        (Or.inr ⟨by omega, by omega⟩))
  have hbx : Live 13 (pre ++ [b] ++ e :: post) x b := (hlive x b).2 (.inr ⟨rfl, rfl⟩)
  refine ⟨bs', x, b, rfl, hco.heap, hn, fun _ _ => rfl, fun y g => ?_, ?_, fun i hi hin => ?_⟩
  · rw [hco.merges.live_iff, hlive]
  · rintro y g ⟨hy, hne⟩ i h1 h2
    rw [hco.keeps y g ((hlive y g).2 (.inl ⟨hy, hne⟩)) i h1 h2, hwrite.bytes i]
    rintro (hi | ⟨hi1, hi2⟩)
    · rcases hx.disjoint hy.1 with h | h | h
      · exact hne h.1.symm
      · omega
      · omega
    · rcases hx.disjoint hy.1 with h | h | h
      · exact hne h.1.symm
      · omega
      · omega
  · rw [hco.keeps x b hbx _ (by omega) (by omega), hwrite.bytes]
    rintro (hi | ⟨hi1, hi2⟩)
    · omega
    · omega

/-- In all other cases `realloc` moves the block. -/
lemma realloc_move (grant : Bool) (junk : ℕ → UInt8) {Q : Option ℕ → Segment → Prop}
    (h : Inv format s bs) (hd : Live 13 bs x d) (hpos : 0 < n) (hsize : getMallocSize n ≠ d.size)
    (hshrinks : ¬ shrinks d.size (getMallocSize n))
    (hQ : wp (malloc 1 grant n) (fun r s' => ∀ q, r = some q →
      wp (do memcpy junk q (x + 1) n; free 1 (some (x + 1)); return some q) Q s') s)
    (hnone : wp (malloc 1 grant n) (fun r s' => r = none → Q none s') s) :
    wp (realloc 1 grant junk (some (x + 1)) n) Q s := by
  have hbounds := hd.1.bounds
  have hbrk := h.tiles.brk
  have hfirst : format.first = 13 := rfl
  have hw := d.words_ge
  have htag := (h.tiles.tags x d hd.1).1
  obtain ⟨r, s₁, hrun, hr⟩ := hQ
  have hr' := wp_elim hnone hrun
  simp only [realloc, hpos.ne', if_false, Nat.add_sub_cancel, wp_bind, wp_blockSize, htag,
    d.tag_div, hsize, hshrinks, wp_of_run hrun]
  refine ⟨by omega, ?_⟩
  cases r with
  | none => exact (wp_pure _ _ _).2 (hr' rfl)
  | some q => exact hr q rfl

/-- The comparison with its cast to `int` is right for blocks of a heap, unless the new size is
so large that the difference wraps. -/
lemma le_of_shrinks {k : ℕ} (hd : d.size < 2 ^ 32) (hk : k < 2 ^ 31 + 16)
    (h : shrinks d.size k) : k ≤ d.size := by
  have hle := d.le
  simp only [shrinks, szSub, DSIZE] at h
  omega

lemma add_le_of_shrinks {k : ℕ} (hle : k ≤ d.size) (h : shrinks d.size k) : k + 16 ≤ d.size := by
  simp only [shrinks, szSub, DSIZE] at h
  omega

/-- The blocks of a heap have 32-bit sizes. -/
lemma size_lt (h : Inv format s bs) (hx : At 13 bs x d) : d.size < 2 ^ 32 := by
  have hbounds := hx.bounds
  have hbrk := h.tiles.brk
  have hbound := h.tiles.le
  have h4 := d.four_words
  have hfirst : format.first = 13 := rfl
  omega

/-- `realloc` to a much smaller size, of a block of any heap. -/
lemma realloc_shrinks (grant : Bool) (junk : ℕ → UInt8) (h : Inv format s bs)
    (hd : Live 13 bs x d) (hpos : 0 < n) (hn : n ≤ 2 ^ 64 - 16) (hle : getMallocSize n ≤ d.size)
    (hshrinks : shrinks d.size (getMallocSize n)) :
    wp (realloc 1 grant junk (some (x + 1)) n) (fun r s' => r = some (x + 1) ∧
      ∃ pre post b e r' bs', bs = pre ++ d :: post ∧ x = 13 + len pre ∧ b.alloc = true ∧
        e.alloc = false ∧ b.words + e.words = d.words ∧ n + 8 ≤ b.size ∧
        Coalesces format ((s.retag x b).retag (x + b.words) e) (pre ++ [b]) e post r' s' bs') s := by
  obtain ⟨b, hb, halloc, hroom, -⟩ := exists_block_of_le hn
  obtain ⟨pre, post, rfl, rfl⟩ := at_iff_split.1 hd.1
  rw [← hb] at hshrinks hle
  replace hle := add_le_of_shrinks hle hshrinks
  refine wp_mono (realloc_shrink grant junk h hd.2 hpos halloc hb hshrinks rfl
    (d.rest_size b hle) (d.rest_words b hle)) ?_
  rintro _ s' ⟨rfl, r, bs', hco⟩
  exact ⟨rfl, pre, post, b, d.rest b hle, r, bs', rfl, rfl, halloc, rfl, d.rest_words b hle, hroom,
    hco⟩

/-- A block is moved to where `malloc` has found room for it. -/
lemma realloc_moves (grant : Bool) (junk : ℕ → UInt8) (h : Inv format s bs)
    (hd : Live 13 bs x d) (hpos : 0 < n) (hsize : getMallocSize n ≠ d.size)
    (hshrinks : ¬ shrinks d.size (getMallocSize n))
    (hmalloc : wp (malloc 1 grant n) (Mallocs 13 (Inv format) s bs n) s) :
    wp (realloc 1 grant junk (some (x + 1)) n) (Reallocs 13 (Inv format) s bs x d n) s := by
  refine realloc_move grant junk h hd hpos hsize hshrinks (wp_mono hmalloc ?_) (wp_mono hmalloc ?_)
  · rintro _ s₁ h₁ q rfl
    exact copyFree_spec (fun h => h.tiles.brk.ge) (fun h hx hsame => h.write hx hsame) free_frees
      junk hd le_rfl (fun _ _ hi => hi) h₁
  · rintro _ s₁ h₁ rfl
    exact h₁

/-- What `realloc` does for the clients, unless it takes a larger size for a smaller one. -/
theorem realloc_reallocs (grant : Bool) (junk : ℕ → UInt8) (h : Inv format s bs)
    (hd : Live 13 bs x d) (hpos : 0 < n) (hn : n ≤ 2 ^ 64 - 16)
    (hle : shrinks d.size (getMallocSize n) → getMallocSize n ≤ d.size) :
    wp (realloc 1 grant junk (some (x + 1)) n) (Reallocs 13 (Inv format) s bs x d n) s := by
  obtain ⟨b, hb, -, hroom, -⟩ := exists_block_of_le hn
  by_cases hsize : getMallocSize n = d.size
  · refine wp_mono (realloc_same grant junk h hd hpos hsize) ?_
    rintro _ _ ⟨rfl, rfl⟩
    refine ⟨bs, x, d, rfl, h, by omega, fun _ _ => rfl, fun y g => ?_, Keeps.refl _ _,
      fun _ _ _ => rfl⟩
    constructor
    · intro hy
      by_cases hyx : y = x
      · exact .inr ⟨hyx, (hyx ▸ hy.1).unique hd.1⟩
      · exact .inl ⟨hy, hyx⟩
    · rintro (hy | ⟨rfl, rfl⟩)
      · exact hy.1
      · exact hd
  by_cases hshrinks : shrinks d.size (getMallocSize n)
  · refine wp_mono (realloc_shrinks grant junk h hd hpos hn (hle hshrinks) hshrinks) ?_
    rintro _ s' ⟨rfl, pre, post, b, e, r, bs', rfl, rfl, hb, he, hlen, hsize, hco⟩
    exact reallocs_of_shrink hb he hlen hsize hco
  · exact realloc_moves grant junk h hd hpos hsize hshrinks (malloc_mallocs grant h hn)

end Calls

/-- `mm-seglist.c` as its clients see it. -/
def allocator : Allocator where
  mmInit := mmInit
  malloc := malloc
  free := free
  realloc := realloc

/-- `mm-seglist.c` keeps the contract of an allocator. -/
theorem contract : Contract allocator 13 (Inv format) where
  odd := rfl
  tagged h := h.tiles.tags
  inside h := h.tiles.brk.ge
  write h hx hsame := h.write hx hsame
  mmInit grant₁ grant₂ hcap := by
    refine wp_mono (mmInit_spec grant₁ grant₂ hcap) fun r s' h hp hr => ?_
    obtain ⟨rfl, e, he, hinv⟩ := h hp hr
    exact ⟨rfl, [e], hinv, fun x b hx => at_alloc_false (by simp [he]) hx⟩
  malloc grant n h hn := malloc_mallocs grant h (by omega)
  freeNull h := (wp_pure _ _ _).2 rfl
  free := free_frees
  reallocZeroNull grant junk h := (wp_pure _ _ _).2 ⟨rfl, rfl⟩
  reallocZero grant junk h hx := by
    simpa [allocator, realloc] using free_frees h hx
  reallocNull grant junk n h hpos hn := by
    simpa [allocator, realloc, hpos.ne'] using malloc_mallocs grant h (by omega)
  realloc grant junk n h hx hpos hn := realloc_reallocs grant junk h hx hpos (by omega) fun hs =>
    le_of_shrinks (size_lt h hx.1) (getMallocSize_lt_of_lt hn) hs

end Seglist
end Malloclab
end SystemsLabs
