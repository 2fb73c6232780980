import SystemsLabs.Malloclab.Clients

/-!
# From one call to all runs

An allocator keeps an invariant `Inv s bs` between its heap and a layout. `Contract` lists
what each of its functions does to the allocated blocks of the layout and to their bytes.
From a contract alone it follows, for every run, that every call returns, and that it is a
step of the abstract allocator (`Contract.serve_spec`).
-/

namespace SystemsLabs
namespace Malloclab

open Memory Layout

/-! ## What the functions do to allocated blocks -/

/-- What a search for `size` bytes answers: a free block that is large enough, or that
there is none. -/
def FindsFit (a : ℕ) (bs : Layout) (size : ℕ) : Option ℕ → Prop
  | none => ∀ x c, At a bs x c → c.alloc = false → c.size < size
  | some bp => ∃ y c, bp = y + 1 ∧ At a bs y c ∧ c.alloc = false ∧ size ≤ c.size

lemma FindsFit.none_iff {a size : ℕ} {bs : Layout} {r : Option ℕ} (h : FindsFit a bs size r) :
    r = none ↔ FindsFit a bs size none := by
  cases r with
  | none => exact iff_of_true rfl h
  | some bp =>
    refine iff_of_false (Option.some_ne_none bp) fun hno => ?_
    obtain ⟨y, c, -, hy, hfree, hle⟩ := h
    exact absurd (hno y c hy hfree) (by omega)

/-- When a run is known to return `NULL` exactly under a condition, and then to change nothing,
an answer says whether the condition holds. -/
lemma none_iff_of_run {x : HeapM (Option ℕ)} {s s' : Segment} {r : Option ℕ} {fails : Prop}
    (h : ∀ t, x.run s = some (none, t) ↔ t = s ∧ fails) (hrun : x.run s = some (r, s')) :
    (r = none ↔ fails) ∧ (r = none → s' = s) := by
  refine ⟨⟨?_, fun hfails => ?_⟩, ?_⟩
  · rintro rfl
    exact ((h s').1 hrun).2
  · have := (h s).2 ⟨rfl, hfails⟩
    rw [hrun] at this
    cases this
    rfl
  · rintro rfl
    exact ((h s').1 hrun).1

section Effects
variable (a : ℕ) (Inv : Segment → Layout → Prop) (s : Segment) (bs : Layout)

/-- `malloc(n)` answers: it fails and changes nothing, or there is one more allocated
block, large enough, and the others are as they were. -/
def Mallocs (n : ℕ) : Option ℕ → Segment → Prop
  | none, s' => s' = s
  | some p, s' => ∃ bs' x b, p = x + 1 ∧ Inv s' bs' ∧ n + 8 ≤ b.size ∧
      (∀ d, ¬ Live a bs x d) ∧
      (∀ y d, Live a bs' y d ↔ Live a bs y d ∨ (y = x ∧ d = b)) ∧ Keeps (Live a bs) s s'

/-- `free` of the block at `x`: it is no longer allocated, the others are as they were,
and the heap keeps its length. -/
def Frees (x : ℕ) (s' : Segment) : Prop :=
  ∃ bs', Inv s' bs' ∧ (∀ y d, Live a bs' y d ↔ Live a bs y d ∧ y ≠ x) ∧
    Keeps (Live a bs') s s' ∧ s'.brk = s.brk

/-- `realloc` of the block `b` at `x` to `n` bytes answers: it fails and changes nothing,
or an allocated block that is large enough takes the place of `b`, holds the bytes that
`b` held as far as there is room, and the others are as they were. -/
def Reallocs (x : ℕ) (b : Block) (n : ℕ) : Option ℕ → Segment → Prop
  | none, s' => s' = s
  | some q, s' => ∃ bs' z c, q = z + 1 ∧ Inv s' bs' ∧ n + 8 ≤ c.size ∧
      (∀ d, Live a bs z d → z = x) ∧
      (∀ y d, Live a bs' y d ↔ (Live a bs y d ∧ y ≠ x) ∨ (y = z ∧ d = c)) ∧
      Keeps (fun y d => Live a bs y d ∧ y ≠ x) s s' ∧
      ∀ i, i + 8 < b.size → i < n →
        s'.bytes (4 * (z + 1) + i) = s.bytes (4 * (x + 1) + i)

end Effects

/-- The contract of an allocator whose blocks start at word `a`. -/
structure Contract (A : Allocator) (a : ℕ) (Inv : Segment → Layout → Prop) : Prop where
  odd : a % 2 = 1
  tagged : ∀ {s bs}, Inv s bs → Tagged s.word a bs
  inside : ∀ {s bs}, Inv s bs → 4 * (a + len bs) ≤ s.brk
  /-- Payloads may be written. -/
  write : ∀ {s s' bs x b}, Inv s bs → Live a bs x b →
    s.SameBut (Between (x + 1) (x + b.words - 1)) s' → Inv s' bs
  mmInit : ∀ {bytes cap} grant₁ grant₂, cap ≤ 2 ^ 32 →
    wp (A.mmInit grant₁ grant₂) (fun r s' => ∀ hp, r = some hp → hp = 1 ∧
      ∃ bs, Inv s' bs ∧ ∀ x b, ¬ Live a bs x b) ⟨bytes, 0, cap⟩
  malloc : ∀ {s bs} grant n, Inv s bs → n < 2 ^ 31 →
    wp (A.malloc 1 grant n) (Mallocs a Inv s bs n) s
  freeNull : ∀ {s bs}, Inv s bs → wp (A.free 1 none) (fun _ s' => s' = s) s
  free : ∀ {s bs x b}, Inv s bs → Live a bs x b →
    wp (A.free 1 (some (x + 1))) (fun _ s' => Frees a Inv s bs x s') s
  reallocZeroNull : ∀ {s bs} grant junk, Inv s bs →
    wp (A.realloc 1 grant junk none 0) (fun r s' => r = none ∧ s' = s) s
  reallocZero : ∀ {s bs x b} grant junk, Inv s bs → Live a bs x b →
    wp (A.realloc 1 grant junk (some (x + 1)) 0)
      (fun r s' => r = none ∧ Frees a Inv s bs x s') s
  reallocNull : ∀ {s bs} grant junk n, Inv s bs → 0 < n → n < 2 ^ 31 →
    wp (A.realloc 1 grant junk none n) (Mallocs a Inv s bs n) s
  realloc : ∀ {s bs x b} grant junk n, Inv s bs → Live a bs x b → 0 < n → n < 2 ^ 31 →
    wp (A.realloc 1 grant junk (some (x + 1)) n) (Reallocs a Inv s bs x b n) s

/-! ## `realloc` by copying -/

section ReallocCopy
variable {a : ℕ} {Inv : Segment → Layout → Prop} {s : Segment} {bs : Layout} {x : ℕ} {b : Block}
  {malloc : ℕ → HeapM (Option ℕ)} {free : Option ℕ → HeapM Unit}

/-- What follows a successful `malloc(n)` when a block is moved: `k` bytes are copied to the new
block, enough to carry over what was asked for, and the old block is freed. -/
lemma copyFree_spec
    (inside : ∀ {s bs}, Inv s bs → 4 * (a + len bs) ≤ s.brk)
    (write : ∀ {s s' bs x b}, Inv s bs → Live a bs x b →
      s.SameBut (Between (x + 1) (x + b.words - 1)) s' → Inv s' bs)
    (hfree : ∀ {s bs x b}, Inv s bs → Live a bs x b →
      wp (free (some (x + 1))) (fun _ s' => Frees a Inv s bs x s') s)
    (junk : ℕ → UInt8) {n k q : ℕ} {s₁ : Segment} (hlive : Live a bs x b) (hkn : k ≤ n)
    (hk : ∀ i, i + 8 < b.size → i < n → i < k) (h₁ : Mallocs a Inv s bs n (some q) s₁) :
    wp (do memcpy junk q (x + 1) k; free (some (x + 1)); return some q)
      (Reallocs a Inv s bs x b n) s₁ := by
  obtain ⟨bs₁, z, c, rfl, hinv₁, hsize, hfresh, hlive₁, hkeep₁⟩ := h₁
  -- the old block is still there
  have hx₁ : Live a bs₁ x b := (hlive₁ x b).2 (.inl hlive)
  have hz₁ : Live a bs₁ z c := (hlive₁ z c).2 (.inr ⟨rfl, rfl⟩)
  have hne : x ≠ z := fun h => hfresh b (h ▸ hlive)
  have hdisj : x + b.words ≤ z ∨ z + c.words ≤ x := by
    rcases hx₁.1.disjoint hz₁.1 with h | h | h
    · exact absurd h.1 hne
    · exact .inl h
    · exact .inr h
  have hb4 := b.four_words
  have hc4 := c.four_words
  have hxb := hx₁.1.bounds
  have hzb := hz₁.1.bounds
  have hin := inside hinv₁
  simp only [wp_bind, memcpy, WSIZE]
  apply wp_copy (by omega)
  intro s₂ hbrk hcap hsame hcopy
  -- the copy writes only the payload of the new block
  have hsame₂ : s₁.SameBut (Between (z + 1) (z + c.words - 1)) s₂ := by
    refine ⟨hbrk, hcap, fun i hi => hsame i fun h => hi ?_⟩
    exact ⟨by omega, by omega⟩
  refine wp_call (hfree (write hinv₁ hz₁ hsame₂) hx₁) ?_
  rintro _ s₃ ⟨bs₃, hinv₃, hlive₃, hkeep₃, -⟩
  rw [wp_pure]
  have hz₃ : Live a bs₃ z c := (hlive₃ z c).2 ⟨hz₁, hne.symm⟩
  refine ⟨bs₃, z, c, rfl, hinv₃, hsize, fun d hd => absurd hd (hfresh d), fun y d => ?_, ?_, ?_⟩
  · rw [hlive₃, hlive₁]
    constructor
    · rintro ⟨h | h, hy⟩
      · exact .inl ⟨h, hy⟩
      · exact .inr h
    · rintro (⟨h, hy⟩ | ⟨rfl, rfl⟩)
      · exact ⟨.inl h, hy⟩
      · exact ⟨.inr ⟨rfl, rfl⟩, hne.symm⟩
  · rintro y d ⟨hd, hy⟩ i h1 h2
    have hd₁ := (hlive₁ y d).2 (.inl hd)
    have hyz : y + d.words ≤ z ∨ z + c.words ≤ y := by
      rcases hd₁.1.disjoint hz₁.1 with h | h | h
      · exact absurd (h.1 ▸ hd) (hfresh d)
      · exact .inl h
      · exact .inr h
    rw [hkeep₃ y d ((hlive₃ y d).2 ⟨hd₁, hy⟩) i h1 h2,
      hsame₂.bytes i fun h => by obtain ⟨_, _⟩ := h; omega, hkeep₁ y d hd i h1 h2]
  · -- a byte of the old payload is kept by malloc, carried over, and kept by free
    intro i hi hin'
    have hik := hk i hi hin'
    rw [hkeep₃ z c hz₃ _ (by omega) (by omega), hcopy i hik (by omega) (by omega),
      hkeep₁ x b hlive _ (by omega) (by omega)]

/-- Allocate, copy, free: with an allocator's own `malloc` and `free`, this moves a block. -/
lemma reallocCopy_spec
    (tagged : ∀ {s bs}, Inv s bs → Tagged s.word a bs)
    (inside : ∀ {s bs}, Inv s bs → 4 * (a + len bs) ≤ s.brk)
    (write : ∀ {s s' bs x b}, Inv s bs → Live a bs x b →
      s.SameBut (Between (x + 1) (x + b.words - 1)) s' → Inv s' bs)
    {n : ℕ} (hmalloc : wp (malloc n) (Mallocs a Inv s bs n) s)
    (hfree : ∀ {s bs x b}, Inv s bs → Live a bs x b →
      wp (free (some (x + 1))) (fun _ s' => Frees a Inv s bs x s') s)
    (junk : ℕ → UInt8) (hlive : Live a bs x b) (hpos : 0 < n) :
    wp (reallocCopy malloc free junk (some (x + 1)) n) (Reallocs a Inv s bs x b n) s := by
  simp only [reallocCopy, hpos.ne', if_false]
  refine wp_call hmalloc ?_
  rintro (_ | q) s₁ h₁
  · exact (wp_pure _ _ _).2 h₁
  -- the old block is still there
  obtain ⟨bs₁, _, _, -, hinv₁, -, -, hlive₁, -⟩ := id h₁
  have hx₁ : At a bs₁ x b := ((hlive₁ x b).2 (.inl hlive)).1
  have hw := b.words_ge
  have hbounds := hx₁.bounds
  have hin := inside hinv₁
  rw [wp_bind, getHeader, Nat.add_sub_cancel, wp_blockSize, (tagged hinv₁ x b hx₁).1, b.tag_div]
  refine ⟨by omega, copyFree_spec inside write hfree junk hlive ?_ (fun i hi hin' => ?_) h₁⟩
  all_goals
    split <;> omega

end ReallocCopy

/-! ## Payloads -/

/-- The address of a payload pointer, for a heap that starts at `lo`. -/
def addr (lo p : ℕ) : ℕ := lo + WSIZE * p

/-- A state of a run of an allocator with the invariant `Inv`: the clients hold the
pointers to the allocated blocks of `bs`, which are as large as they were asked to be. -/
structure Runs (a : ℕ) (Inv : Segment → Layout → Prop) (s : State) (bs : Layout) : Prop where
  inv : Inv s.seg bs
  heapPtr : s.heapPtr = 1
  owned : ∀ x b, Live a bs x b → (s.live (x + 1)).isSome
  block : ∀ p n, s.live p = some n → ∃ x b, p = x + 1 ∧ Live a bs x b ∧ n + 8 ≤ b.size

/-- A live pointer is the payload of an allocated block. -/
lemma Runs.exists_live {a : ℕ} {Inv : Segment → Layout → Prop} {s : State} {bs : Layout}
    (h : Runs a Inv s bs) {p : ℕ} (hp : (s.live p).isSome) :
    ∃ x b, p = x + 1 ∧ Live a bs x b := by
  obtain ⟨n, hn⟩ := Option.isSome_iff_exists.1 hp
  obtain ⟨x, b, hpx, hx, -⟩ := h.block p n hn
  exact ⟨x, b, hpx, hx⟩

section Payload
variable {s s' : State} {L : ℕ → Block → Prop} {x : ℕ} {b : Block}

lemma size_of_tag (h : s.seg.word x = b.tag) : s.seg.word x &&& 0xFFFFFFF8 = b.size := by
  rw [and_not_seven (s.seg.word_lt x), h, b.tag_div]

lemma blockSize_of_tag (h : s.seg.word x = b.tag) : s.blockSize (x + 1) = b.size := by
  rw [State.blockSize, Nat.add_sub_cancel, size_of_tag h]

lemma payloadSize_of_tag (h : s.seg.word x = b.tag) : s.payloadSize (x + 1) = b.size - 8 := by
  rw [State.payloadSize, Nat.add_sub_cancel, size_of_tag h]
  rfl

lemma payloadSize_of_keeps (h : Keeps L s.seg s'.seg) (hx : L x b) :
    s'.payloadSize (x + 1) = s.payloadSize (x + 1) := by
  have hw := b.words_ge
  rw [State.payloadSize, State.payloadSize, Nat.add_sub_cancel,
    h.word hx le_rfl (by omega)]

lemma length_payload (s : State) (p : ℕ) : (s.payload p).length = s.payloadSize p := by
  simp [State.payload]

lemma getElem?_payload {s : State} {p i : ℕ} (h : i < s.payloadSize p) :
    (s.payload p)[i]? = some (s.seg.bytes (WSIZE * p + i)) := by
  simp [State.payload, h]

/-- What a block that is kept holds is the same before and after. -/
lemma payload_of_keeps (h : Keeps L s.seg s'.seg) (hx : L x b) (htag : s.seg.word x = b.tag) :
    s'.payload (x + 1) = s.payload (x + 1) := by
  have hsize := payloadSize_of_tag htag
  have h4 := b.four_words
  unfold State.payload
  rw [payloadSize_of_keeps h hx]
  apply List.map_congr_left
  intro i hi
  rw [List.mem_range, hsize] at hi
  exact h x b hx _ (by unfold WSIZE; omega) (by unfold WSIZE; omega)

/-- A byte that is written into a payload. -/
lemma payload_write {p i : ℕ} {v : UInt8} (hsize : s'.payloadSize p = s.payloadSize p)
    (hself : s'.seg.bytes (WSIZE * p + i) = v)
    (hother : ∀ j, j ≠ WSIZE * p + i → s'.seg.bytes j = s.seg.bytes j) :
    s'.payload p = (s.payload p).set i v := by
  apply List.ext_getElem?
  intro j
  rw [List.getElem?_set, length_payload]
  by_cases hj : j < s.payloadSize p
  · rw [getElem?_payload (by rwa [hsize]), getElem?_payload hj]
    split
    · next hij => rw [← hij, hself, if_pos (by omega)]
    · next hij => rw [hother _ (by omega)]
  · rw [List.getElem?_eq_none (by rw [length_payload]; omega),
      List.getElem?_eq_none (by rw [length_payload]; omega)]
    split
    · next hij => rw [if_neg (by omega)]
    · rfl

/-- Payloads change at one pointer that is live afterwards. -/
lemma payloads_gain {m : Payloads ℕ} {p n : ℕ} (hself : s'.live p = some n)
    (hother : ∀ q, q ≠ p → s'.payloads q = m q) :
    s'.payloads = Function.update m p (some (s'.payload p)) := by
  funext q
  rcases eq_or_ne q p with rfl | hne
  · rw [Function.update_self, State.payloads, hself]
    rfl
  · rw [Function.update_of_ne hne, hother q hne]

/-- Payloads change at one pointer that is not live afterwards. -/
lemma payloads_lose {m : Payloads ℕ} {p : ℕ} (hself : s'.live p = none)
    (hother : ∀ q, q ≠ p → s'.payloads q = m q) : s'.payloads = Function.update m p none := by
  funext q
  rcases eq_or_ne q p with rfl | hne
  · rw [Function.update_self, State.payloads, hself]
    rfl
  · rw [Function.update_of_ne hne, hother q hne]

end Payload

namespace Contract

variable {A : Allocator} {a : ℕ} {Inv : Segment → Layout → Prop} {s s' : State}
  {bs : Layout}

/-- A pointer that a call leaves alone holds what it held. -/
lemma payloads_eq (hA : Contract A a Inv) (h : Runs a Inv s bs) {L : ℕ → Block → Prop}
    (hkeep : Keeps L s.seg s'.seg) {p : ℕ} (hlive : s'.live p = s.live p)
    (hL : ∀ x b, p = x + 1 → Live a bs x b → L x b) : s'.payloads p = s.payloads p := by
  unfold State.payloads
  rw [hlive]
  cases hp : s.live p with
  | none => rfl
  | some n =>
    obtain ⟨x, b, rfl, hx, -⟩ := h.block p n hp
    rw [Option.map_some, Option.map_some,
      payload_of_keeps hkeep (hL x b rfl hx) (hA.tagged h.inv x b hx.1).1]

/-- A pointer whose block is not allocated is not live. -/
lemma payloads_none (h : Runs a Inv s bs) {x : ℕ} (hx : ∀ d, ¬ Live a bs x d) :
    s.live (x + 1) = none := by
  cases hp : s.live (x + 1) with
  | none => rfl
  | some n =>
    obtain ⟨y, b, hy, hlive, -⟩ := h.block _ n hp
    obtain rfl : x = y := by omega
    exact absurd hlive (hx b)

/-- What is live at a pointer is the payload of an allocated block. -/
lemma payloads_some (hA : Contract A a Inv) (h : Runs a Inv s bs) {p : ℕ} {c : List UInt8}
    (hp : s.payloads p = some c) :
    ∃ x b, p = x + 1 ∧ Live a bs x b ∧ c.length + 8 = b.size := by
  unfold State.payloads at hp
  cases hn : s.live p with
  | none => rw [hn] at hp; cases hp
  | some n =>
    rw [hn] at hp
    obtain ⟨x, b, rfl, hx, hsize⟩ := h.block p n hn
    obtain rfl : s.payload (x + 1) = c := by simpa using hp
    refine ⟨x, b, rfl, hx, ?_⟩
    rw [length_payload, payloadSize_of_tag (hA.tagged h.inv x b hx.1).1]
    omega

/-- Clients hold the payload of every allocated block. -/
lemma live_iff_allocated (hA : Contract A a Inv) (h : Runs a Inv s bs) {x : ℕ} {b : Block} :
    Live a bs x b ↔ b.alloc = true ∧ s.allocated (x + 1) = some b.size := by
  have hsize : ∀ c, Live a bs x c → s.seg.word (x + 1 - 1) &&& 0xFFFFFFF8 = c.size := fun c hc =>
    size_of_tag (hA.tagged h.inv x c hc.1).1
  unfold State.allocated
  constructor
  · intro hx
    obtain ⟨n, hn⟩ := Option.isSome_iff_exists.1 (h.owned x b hx)
    rw [hn, hsize b hx]
    exact ⟨hx.2, rfl⟩
  · rintro ⟨hb, hal⟩
    cases hn : s.live (x + 1) with
    | none => rw [hn] at hal; cases hal
    | some n =>
      obtain ⟨y, c, hy, hc, -⟩ := h.block _ n hn
      obtain rfl : x = y := by omega
      rw [hn, hsize c hc] at hal
      obtain rfl : c = b := by
        cases b
        cases c
        simp_all [Live]
      exact hc

/-- Payloads determine the blocks that clients hold. -/
lemma allocated_eq (hA : Contract A a Inv) (h : Runs a Inv s bs) (p : ℕ) :
    s.allocated p = (s.payloads p).map fun c => c.length + 8 := by
  unfold State.allocated State.payloads
  cases hn : s.live p with
  | none => rfl
  | some n =>
    obtain ⟨x, b, rfl, hx, -⟩ := h.block p n hn
    have htag := (hA.tagged h.inv x b hx.1).1
    have hle := b.le
    simp only [Option.map_some]
    rw [Nat.add_sub_cancel, size_of_tag htag, length_payload, payloadSize_of_tag htag,
      Nat.sub_add_cancel (by omega)]

/-- The payload of a block that is allocated in `bs'` keeps the promises of a pointer handed
out for `n` bytes, if it is apart from the blocks that are live in `m`. -/
lemma grants (hA : Contract A a Inv) {lo n : ℕ} (hlo : 8 ∣ lo) {bs' : Layout} {z : ℕ}
    {c : Block} (hinv : Inv s'.seg bs') (hz : Live a bs' z c) (hsize : n + 8 ≤ c.size)
    {m : Payloads ℕ} (hfresh : m (z + 1) = none)
    (hm : ∀ q d, m q = some d →
      ∃ y e, q = y + 1 ∧ Live a bs' y e ∧ y ≠ z ∧ d.length + 8 = e.size) :
    Payloads.Grants (addr lo) m (z + 1) n (s'.payload (z + 1)) := by
  have hc4 := c.four_words
  have hlen : (s'.payload (z + 1)).length = c.size - 8 := by
    rw [length_payload, payloadSize_of_tag (hA.tagged hinv z c hz.1).1]
  refine ⟨hfresh, ?_, by omega, fun q d hq => ?_⟩
  · have hodd := hA.odd
    have := hz.1.even
    unfold addr WSIZE
    omega
  · obtain ⟨y, e, rfl, hy, hne, hd⟩ := hm q d hq
    have he4 := e.four_words
    unfold Payloads.Apart addr WSIZE
    rcases hz.1.disjoint hy.1 with h | h | h
    · exact absurd h.1.symm hne
    · exact .inl (by omega)
    · exact .inr (by omega)

lemma malloc_step (hA : Contract A a Inv) (h : Runs a Inv s bs) {lo n : ℕ} (hlo : 8 ∣ lo)
    {r : Option ℕ} {seg : Segment} (hr : Mallocs a Inv s.seg bs n r seg) :
    ∃ bs', Runs a Inv { s with seg := seg, live := State.gain s.live r n } bs' ∧
      Payloads.Step (addr lo) s.payloads (.malloc n) r
        { s with seg := seg, live := State.gain s.live r n }.payloads := by
  cases r with
  | none =>
    obtain rfl : seg = s.seg := hr
    exact ⟨bs, h, .mallocNull⟩
  | some p =>
    obtain ⟨bs', z, c, rfl, hinv, hsize, hfresh, hlive, hkeep⟩ := hr
    set s' : State := { s with seg := seg, live := State.gain s.live (some (z + 1)) n } with hs'
    have hz : Live a bs' z c := (hlive z c).2 (.inr ⟨rfl, rfl⟩)
    have hnone := payloads_none h hfresh
    have hother : ∀ q, q ≠ z + 1 → s'.live q = s.live q := fun q hq => Function.update_of_ne hq _ _
    have hself : s'.live (z + 1) = some n := Function.update_self _ _ _
    -- the new block belongs to `z + 1`, and the other pointers keep theirs
    refine ⟨bs', ⟨hinv, h.heapPtr, fun x b hx => ?_, fun q k hq => ?_⟩, ?_⟩
    · rcases eq_or_ne x z with rfl | hne
      · rw [hself]; rfl
      · rw [hother _ (by omega)]
        exact h.owned x b (((hlive x b).1 hx).resolve_right fun h => hne h.1)
    · rcases eq_or_ne q (z + 1) with rfl | hne
      · obtain rfl : n = k := by simpa [hself] using hq
        exact ⟨z, c, rfl, hz, hsize⟩
      · rw [hother q hne] at hq
        obtain ⟨x, b, rfl, hx, hb⟩ := h.block q k hq
        exact ⟨x, b, rfl, (hlive x b).2 (.inl hx), hb⟩
    · have hpay : s'.payloads = Function.update s.payloads (z + 1) (some (s'.payload (z + 1))) :=
        payloads_gain hself fun q hne =>
          hA.payloads_eq h hkeep (hother q hne) fun x b _ hx => hx
      rw [hpay]
      refine .malloc (hA.grants hlo hinv hz hsize ?_ fun q d hq => ?_)
      · rw [State.payloads, hnone]
        rfl
      · obtain ⟨y, e, rfl, hy, hd⟩ := hA.payloads_some h hq
        exact ⟨y, e, rfl, (hlive y e).2 (.inl hy), fun h => hfresh e (h ▸ hy), hd⟩

lemma free_step (hA : Contract A a Inv) (h : Runs a Inv s bs) {x : ℕ} {seg : Segment}
    (hr : Frees a Inv s.seg bs x seg) :
    ∃ bs', Runs a Inv { s with seg := seg, live := State.lose s.live (some (x + 1)) } bs' ∧
      { s with seg := seg, live := State.lose s.live (some (x + 1)) }.payloads
        = Function.update s.payloads (x + 1) none := by
  obtain ⟨bs', hinv, hlive, hkeep, -⟩ := hr
  set s' : State := { s with seg := seg, live := State.lose s.live (some (x + 1)) } with hs'
  have hother : ∀ q, q ≠ x + 1 → s'.live q = s.live q := fun q hq => Function.update_of_ne hq _ _
  have hself : s'.live (x + 1) = none := Function.update_self _ _ _
  refine ⟨bs', ⟨hinv, h.heapPtr, fun y b hy => ?_, fun q k hq => ?_⟩, ?_⟩
  · have hy' := (hlive y b).1 hy
    rw [hother _ (by omega)]
    exact h.owned y b hy'.1
  · rcases eq_or_ne q (x + 1) with rfl | hne
    · rw [hself] at hq
      cases hq
    · rw [hother q hne] at hq
      obtain ⟨y, b, rfl, hy, hb⟩ := h.block q k hq
      exact ⟨y, b, rfl, (hlive y b).2 ⟨hy, by omega⟩, hb⟩
  · apply payloads_lose hself
    intro q hne
    refine hA.payloads_eq h hkeep (hother q hne) fun y b hq hy => (hlive y b).2 ⟨hy, ?_⟩
    omega

/-- A block is freed, and the heap keeps its length. -/
lemma serve_free (hA : Contract A a Inv) (h : Runs a Inv s bs) (env : Env) {p : ℕ}
    (hp : (s.live p).isSome) :
    ∃ s' bs', serve A env s (.free (some p)) = some (none, s') ∧ Runs a Inv s' bs' ∧
      s'.payloads = Function.update s.payloads p none ∧ s'.seg.brk = s.seg.brk := by
  obtain ⟨seg₀, heapPtr, live⟩ := s
  obtain rfl : heapPtr = 1 := h.heapPtr
  obtain ⟨x, b, rfl, hx⟩ := h.exists_live hp
  obtain ⟨r, seg, hrun, hr⟩ := hA.free h.inv hx
  obtain ⟨bs', hruns, hpay⟩ := hA.free_step h hr
  have hbrk : seg.brk = seg₀.brk := by
    obtain ⟨-, -, -, -, hbrk⟩ := hr
    exact hbrk
  exact ⟨_, bs', by simp only [serve, hrun, Option.map_some], hruns, hpay, hbrk⟩

/-- The payload of block `z` has `n` bytes now, and that of block `x` is gone if it is another. -/
structure Moves (s s' : State) (x z n : ℕ) : Prop where
  heapPtr : s'.heapPtr = s.heapPtr
  self : s'.live (z + 1) = some n
  gone : z ≠ x → s'.live (x + 1) = none
  other : ∀ q, q ≠ z + 1 → q ≠ x + 1 → s'.live q = s.live q

lemma moves_gain_lose (s : State) (seg : Segment) (x z n : ℕ) :
    Moves s { s with
      seg := seg
      live := State.gain (State.lose s.live (some (x + 1))) (some (z + 1)) n } x z n where
  heapPtr := rfl
  self := Function.update_self _ _ _
  gone := fun _ => (Function.update_of_ne (by omega) _ _).trans (Function.update_self _ _ _)
  other := fun _ hq hq' => (Function.update_of_ne hq _ _).trans (Function.update_of_ne hq' _ _)

lemma Moves.runs {bs' : Layout} {x z n : ℕ} {c : Block} (hm : Moves s s' x z n)
    (h : Runs a Inv s bs) (hinv : Inv s'.seg bs') (hsize : n + 8 ≤ c.size)
    (hfresh : ∀ d, Live a bs z d → z = x)
    (hlive : ∀ y d, Live a bs' y d ↔ (Live a bs y d ∧ y ≠ x) ∨ (y = z ∧ d = c)) :
    Runs a Inv s' bs' := by
  refine ⟨hinv, hm.heapPtr.trans h.heapPtr, fun y d hy => ?_, fun q m hq => ?_⟩
  · rcases (hlive y d).1 hy with ⟨hy, hne⟩ | ⟨rfl, rfl⟩
    · rcases eq_or_ne y z with rfl | hyz
      · exact absurd (hfresh d hy) hne
      · rw [hm.other _ (by omega) (by omega)]
        exact h.owned y d hy
    · rw [hm.self]; rfl
  · rcases eq_or_ne q (z + 1) with rfl | hqz
    · obtain rfl : n = m := by simpa [hm.self] using hq
      exact ⟨z, c, rfl, (hlive z c).2 (.inr ⟨rfl, rfl⟩), hsize⟩
    · rcases eq_or_ne q (x + 1) with rfl | hqx
      · rw [hm.gone (by omega)] at hq
        cases hq
      · rw [hm.other q hqz hqx] at hq
        obtain ⟨y, d, rfl, hy, hd⟩ := h.block q m hq
        exact ⟨y, d, rfl, (hlive y d).2 (.inl ⟨hy, by omega⟩), hd⟩

lemma Moves.payloads {x z n : ℕ} (hm : Moves s s' x z n) (hA : Contract A a Inv)
    (h : Runs a Inv s bs) (hkeep : Keeps (fun y d => Live a bs y d ∧ y ≠ x) s.seg s'.seg) :
    s'.payloads = Function.update (Function.update s.payloads (x + 1) none) (z + 1)
      (some (s'.payload (z + 1))) := by
  apply payloads_gain hm.self
  intro q hqz
  rcases eq_or_ne q (x + 1) with rfl | hqx
  · rw [Function.update_self, State.payloads, hm.gone (by omega)]
    rfl
  · rw [Function.update_of_ne hqx]
    refine hA.payloads_eq h hkeep (hm.other q hqz hqx) fun y d hq hy => ⟨hy, ?_⟩
    omega

/-- The bytes that `realloc` has copied are the first ones of the new payload. -/
lemma payload_copied (hA : Contract A a Inv) {bs' : Layout} {x z n : ℕ} {b c : Block}
    (h : Inv s.seg bs) (hx : Live a bs x b) (hinv : Inv s'.seg bs') (hz : Live a bs' z c)
    (hsize : n + 8 ≤ c.size)
    (hcopy : ∀ i, i + 8 < b.size → i < n →
      s'.seg.bytes (4 * (z + 1) + i) = s.seg.bytes (4 * (x + 1) + i))
    {i : ℕ} (hi : i < min (s.payload (x + 1)).length n) :
    (s'.payload (z + 1))[i]? = (s.payload (x + 1))[i]? := by
  have hb8 := payloadSize_of_tag (hA.tagged h x b hx.1).1
  have hc8 := payloadSize_of_tag (hA.tagged hinv z c hz.1).1
  rw [length_payload] at hi
  rw [getElem?_payload (by omega), getElem?_payload (by omega)]
  exact congrArg some (hcopy i (by omega) (by omega))

lemma realloc_step (hA : Contract A a Inv) (h : Runs a Inv s bs) {lo n x : ℕ} {b : Block}
    (hlo : 8 ∣ lo) (hn : 0 < n) (hx : Live a bs x b) {r : Option ℕ} {seg : Segment}
    (hr : Reallocs a Inv s.seg bs x b n r seg) :
    ∃ bs', Runs a Inv { s with
        seg := seg
        live := if n = 0 then State.lose s.live (some (x + 1))
          else if r.isSome then State.gain (State.lose s.live (some (x + 1))) r n else s.live }
        bs' ∧
      Payloads.Step (addr lo) s.payloads (.realloc (some (x + 1)) n) r { s with
        seg := seg
        live := if n = 0 then State.lose s.live (some (x + 1))
          else if r.isSome then State.gain (State.lose s.live (some (x + 1))) r n
          else s.live }.payloads := by
  rw [if_neg hn.ne']
  cases r with
  | none =>
    obtain rfl : seg = s.seg := hr
    exact ⟨bs, h, .reallocFails hn⟩
  | some p =>
    obtain ⟨bs', z, c, rfl, hinv, hsize, hfresh, hlive, hkeep, hcopy⟩ := hr
    rw [Option.isSome_some, if_pos rfl]
    have hm := moves_gain_lose s seg x z n
    set s' : State := { s with
      seg := seg
      live := State.gain (State.lose s.live (some (x + 1))) (some (z + 1)) n } with hs'
    have hz : Live a bs' z c := (hlive z c).2 (.inr ⟨rfl, rfl⟩)
    have hold : s.payloads (x + 1) = some (s.payload (x + 1)) := by
      obtain ⟨k, hk⟩ := Option.isSome_iff_exists.1 (h.owned x b hx)
      rw [State.payloads, hk]
      rfl
    refine ⟨bs', hm.runs h hinv hsize hfresh hlive, ?_⟩
    rw [hm.payloads hA h hkeep]
    refine .realloc hn hold (hA.grants hlo hinv hz hsize ?_ fun q d hq => ?_) fun i hi =>
      hA.payload_copied h.inv hx hinv hz hsize hcopy hi
    · -- the block stayed where it was, or no client held the new one
      rcases eq_or_ne z x with rfl | hne
      · exact Function.update_self _ _ _
      · have hzn : ∀ d, ¬ Live a bs z d := fun d hd => hne (hfresh d hd)
        rw [Function.update_of_ne (by omega), State.payloads, payloads_none h hzn]
        rfl
    · rcases eq_or_ne q (x + 1) with rfl | hqx
      · rw [Function.update_self] at hq
        cases hq
      · rw [Function.update_of_ne hqx] at hq
        obtain ⟨y, e, rfl, hy, hd⟩ := hA.payloads_some h hq
        have hyx : y ≠ x := by omega
        refine ⟨y, e, rfl, (hlive y e).2 (.inl ⟨hy, hyx⟩), fun h => ?_, hd⟩
        exact hyx (h.trans (hfresh e (h ▸ hy)))

lemma write_step (hA : Contract A a Inv) (h : Runs a Inv s bs) (lo : ℕ) {p i n : ℕ} (v : UInt8)
    (hp : s.live p = some n) (hi : i < n) :
    Runs a Inv { s with seg := { s.seg with bytes := s.seg.bytes.setByte (WSIZE * p + i) v } } bs ∧
      Payloads.Step (addr lo) s.payloads (.write p i v) none
        { s with
          seg := { s.seg with bytes := s.seg.bytes.setByte (WSIZE * p + i) v } }.payloads := by
  obtain ⟨x, b, rfl, hx, hn⟩ := h.block p n hp
  have h4 := b.four_words
  have htag := (hA.tagged h.inv x b hx.1).1
  have hsize := payloadSize_of_tag htag
  set s' : State :=
    { s with seg := { s.seg with bytes := s.seg.bytes.setByte (WSIZE * (x + 1) + i) v } } with hs'
  have hother : ∀ j, j ≠ WSIZE * (x + 1) + i → s'.seg.bytes j = s.seg.bytes j := fun j hj =>
    Bytes.setByte_ne _ _ hj
  have hself : s'.seg.bytes (WSIZE * (x + 1) + i) = v := Bytes.setByte_same _ _ _
  have hsame : s.seg.SameBut (Between (x + 1) (x + b.words - 1)) s'.seg := by
    refine ⟨rfl, rfl, fun j hj => hother j fun h => hj ?_⟩
    unfold WSIZE at h
    exact ⟨by omega, by omega⟩
  refine ⟨⟨hA.write h.inv hx hsame, h.heapPtr, h.owned, h.block⟩, ?_⟩
  have hold : s.payloads (x + 1) = some (s.payload (x + 1)) := by
    rw [State.payloads, hp]
    rfl
  -- the tag is in front of the payload, so the size is read as before
  have hps : s'.payloadSize (x + 1) = s.payloadSize (x + 1) := by
    rw [hsize]
    refine payloadSize_of_tag (s := s') ?_
    rw [hsame.word fun h => absurd h.1 (by omega), htag]
  have hpay : s'.payloads
      = Function.update s.payloads (x + 1) (some ((s.payload (x + 1)).set i v)) := by
    rw [← payload_write hps hself hother]
    have hlive : s'.live (x + 1) = some n := hp
    apply payloads_gain hlive
    intro q hne
    -- the payloads of the other blocks are apart from this one
    have hkeep : Keeps (fun y d => Live a bs y d ∧ y ≠ x) s.seg s'.seg := by
      rintro y d ⟨hy, hyx⟩ j h1 h2
      apply hsame.bytes j
      rintro ⟨_, _⟩
      rcases hx.1.disjoint hy.1 with h | h | h
      · exact hyx h.1.symm
      · omega
      · omega
    exact hA.payloads_eq h hkeep rfl fun y d hq hy => ⟨hy, by omega⟩
  rw [hpay]
  exact .write hold (by rw [length_payload]; omega)

/-- Every legal call returns, leaves the invariant true, and is a step of the abstract
allocator. -/
theorem serve_spec (hA : Contract A a Inv) (h : Runs a Inv s bs) {lo : ℕ} (hlo : 8 ∣ lo)
    (env : Env) {call : Call ℕ} (hcall : Legal s call) :
    ∃ r s' bs', serve A env s call = some (r, s') ∧ Runs a Inv s' bs' ∧
      Payloads.Step (addr lo) s.payloads call r s'.payloads := by
  obtain ⟨seg₀, heapPtr, live⟩ := s
  obtain rfl : heapPtr = 1 := h.heapPtr
  -- one contract of the allocator for each way through a call
  cases call with
  | malloc n =>
    obtain ⟨r, seg, hrun, hr⟩ := hA.malloc env.grant n h.inv hcall
    obtain ⟨bs', hruns, hstep⟩ := hA.malloc_step h hlo hr
    exact ⟨r, _, bs', by simp only [serve, hrun, Option.map_some], hruns, hstep⟩
  | free p =>
    cases p with
    | none =>
      obtain ⟨r, seg, hrun, rfl⟩ := hA.freeNull h.inv
      exact ⟨none, _, bs, by simp only [serve, hrun, Option.map_some]; rfl, h, .freeNull⟩
    | some p =>
      obtain ⟨s', bs', hserve, hruns, hpay, -⟩ := hA.serve_free h env (hcall p rfl)
      refine ⟨none, s', bs', hserve, hruns, ?_⟩
      rw [hpay]
      exact .free
  | realloc p n =>
    obtain ⟨hp, hn⟩ := hcall
    cases p with
    | none =>
      rcases Nat.eq_zero_or_pos n with rfl | hpos
      · obtain ⟨r, seg, hrun, rfl, rfl⟩ := hA.reallocZeroNull env.grant env.junk h.inv
        exact ⟨none, _, bs, by simp only [serve, hrun, Option.map_some, if_true]; rfl, h,
          .reallocZeroNull⟩
      · obtain ⟨r, seg, hrun, hr⟩ := hA.reallocNull env.grant env.junk n h.inv hpos hn
        obtain ⟨bs', hruns, hstep⟩ := hA.malloc_step h hlo hr
        refine ⟨r, ⟨seg, 1, State.gain live r n⟩, bs', ?_, hruns,
          .reallocNull hstep hpos⟩
        simp only [serve, hrun, Option.map_some, hpos.ne', if_false]
        cases r <;> rfl
    | some p =>
      obtain ⟨x, b, rfl, hx⟩ := h.exists_live (hp p rfl)
      rcases Nat.eq_zero_or_pos n with rfl | hpos
      · obtain ⟨r, seg, hrun, rfl, hr⟩ := hA.reallocZero env.grant env.junk h.inv hx
        obtain ⟨bs', hruns, hpay⟩ := hA.free_step h hr
        refine ⟨none, _, bs', by simp only [serve, hrun, Option.map_some, if_true], hruns, ?_⟩
        rw [hpay]
        exact .reallocZero
      · obtain ⟨r, seg, hrun, hr⟩ := hA.realloc env.grant env.junk n h.inv hx hpos hn
        obtain ⟨bs', hruns, hstep⟩ := hA.realloc_step h hlo hpos hx hr
        exact ⟨r, _, bs', by simp only [serve, hrun, Option.map_some], hruns, hstep⟩
  | write p i v =>
    obtain ⟨n, hn, hi⟩ := hcall
    obtain ⟨hruns, hstep⟩ := hA.write_step h lo v hn hi
    exact ⟨none, _, bs, rfl, hruns, hstep⟩

/-- The invariant holds in every reachable state. -/
theorem runs_of_reachable (hA : Contract A a Inv) {cap : ℕ} (hcap : cap ≤ 2 ^ 32)
    {P : State → Call ℕ → Prop} (hP : ∀ s call, P s call → Legal s call)
    (hs : Reachable A cap P s) : ∃ bs, Runs a Inv s bs := by
  -- `mm_init` establishes the invariant, and each call served is a step that keeps it
  induction hs with
  | init h =>
    obtain ⟨rfl, bs, hinv, hno⟩ := wp_elim (hA.mmInit _ _ hcap) h _ rfl
    exact ⟨bs, hinv, rfl, fun x b hx => absurd hx (hno x b), fun p n hp => by cases hp⟩
  | step hs hcall h ih =>
    obtain ⟨bs, hruns⟩ := ih
    obtain ⟨r, s', bs', hserve, hruns', -⟩ := hA.serve_spec hruns (dvd_zero 8) _ (hP _ _ hcall)
    rw [hserve] at h
    cases h
    exact ⟨bs', hruns'⟩

end Contract

/-! ## Refinement -/

/-- Every run of an implementation, on a heap that begins at the address `lo` and has at
most `cap` bytes, is one of the abstract allocator. -/
structure RefinesAbstract (A : Allocator) (cap lo : ℕ) : Prop where
  /-- `mm_init` returns. -/
  starts : ∀ bytes grant₁ grant₂, ((A.mmInit grant₁ grant₂).run ⟨bytes, 0, cap⟩).isSome
  /-- Every call returns and is a step of the abstract allocator. -/
  steps : ∀ s, Reachable A cap Legal s → ∀ env call, Legal s call → ∃ r s',
    serve A env s call = some (r, s') ∧ Payloads.Step (addr lo) s.payloads call r s'.payloads
  /-- What is handed out is aligned, large enough and inside the heap. -/
  granted : ∀ s, Reachable A cap Legal s → ∀ p n, s.live p = some n →
    8 ∣ addr lo p ∧ n ≤ s.payloadSize p ∧ WSIZE * p + s.payloadSize p ≤ s.seg.brk
  /-- Distinct live payloads do not overlap. -/
  disjoint : ∀ s, Reachable A cap Legal s → Payloads.Disjoint (addr lo) s.payloads

/-- An allocator that keeps its contract refines the abstract one. -/
theorem Contract.refinesAbstract {A : Allocator} {a : ℕ} {Inv : Segment → Layout → Prop}
    (hA : Contract A a Inv) {cap lo : ℕ} (hcap : cap ≤ 2 ^ 32) (hlo : 8 ∣ lo) :
    RefinesAbstract A cap lo where
  starts bytes grant₁ grant₂ := by
    obtain ⟨r, seg, hrun, -⟩ :=
      show wp (A.mmInit grant₁ grant₂) _ ⟨bytes, 0, cap⟩ from hA.mmInit grant₁ grant₂ hcap
    rw [hrun]
    rfl
  steps s hs env call hcall := by
    obtain ⟨bs, hruns⟩ := hA.runs_of_reachable hcap (fun _ _ h => h) hs
    obtain ⟨r, s', bs', hserve, -, hstep⟩ := hA.serve_spec hruns hlo env hcall
    exact ⟨r, s', hserve, hstep⟩
  granted s hs p n hp := by
    obtain ⟨bs, hruns⟩ := hA.runs_of_reachable hcap (fun _ _ h => h) hs
    obtain ⟨x, b, rfl, hx, hsize⟩ := hruns.block p n hp
    have hodd := hA.odd
    have heven := hx.1.even
    have hin := hA.inside hruns.inv
    have hbounds := hx.1.bounds
    have h4 := b.four_words
    rw [payloadSize_of_tag (hA.tagged hruns.inv x b hx.1).1]
    unfold addr WSIZE
    omega
  disjoint s hs := by
    induction hs with
    | init h => exact fun p q c d _ hp => by cases hp
    | step hs hcall h ih =>
      obtain ⟨bs, hruns⟩ := hA.runs_of_reachable hcap (fun _ _ h => h) hs
      obtain ⟨r, s', bs', hserve, -, hstep⟩ := hA.serve_spec hruns hlo _ hcall
      rw [hserve] at h
      cases h
      exact hstep.disjoint ih

end Malloclab
end SystemsLabs
