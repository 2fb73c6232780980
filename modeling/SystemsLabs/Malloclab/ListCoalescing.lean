import SystemsLabs.Malloclab.ListRuns

/-!
# When `mm-explicit.c` and `mm-seglist.c` coalesce

`coalesce` returns early for the last block of the heap, before it looks at the block in
front of it. `malloc` allocates the front of the block that it extends the heap by, so after
an extension no two neighbours are free. But a client may free the last block, and if the one
before it is free both stay on their lists (`FreesTail`). A call that does so is the only
way to two free neighbours: `MissesMerge` is exact.
-/

namespace SystemsLabs
namespace Malloclab

open Memory Layout

/-- The block of `p` is the last one of the heap, and the one before it is free. -/
def FreesTail (s : Segment) (p : ℕ) : Prop :=
  4 * (p - 1) + s.word (p - 1) / 8 * 8 = s.brk ∧ s.word (p - 2) % 2 = 0

/-- The search of `malloc(n)` finds a block, and not the one before `p` to allocate it whole. -/
def PlacesElsewhere (findFit : ℕ → HeapM (Option ℕ)) (s : Segment) (p n : ℕ) : Prop :=
  ∃ bp, (findFit (getMallocSize n)).run s = some (some bp, s) ∧
    ¬ (bp + s.word (bp - 1) / 8 * 8 / WSIZE = p ∧ s.word (bp - 1) / 8 * 8 < getMallocSize n + 16)

/-- The call frees the last block of the heap while the one before it is free. `realloc`
does so when it moves the block (`moves`) to an old one. -/
def MissesMerge (findFit : ℕ → ℕ → HeapM (Option ℕ)) (moves : ℕ → ℕ → Prop) (s : State) :
    Call ℕ → Prop
  | .malloc _ | .free none | .realloc none _ | .write _ _ _ => False
  | .free (some p) => FreesTail s.seg p
  | .realloc (some p) n => FreesTail s.seg p ∧ (n = 0 ∨
      moves (s.seg.word (p - 1) / 8 * 8) (getMallocSize n) ∧
        PlacesElsewhere (findFit s.heapPtr) s.seg p n)

/-- The words from `a` to the end of the heap are tiled by blocks of which no two neighbours
are free. -/
def FullyCoalesced (a : ℕ) (s : State) : Prop :=
  ∃ bs : Layout, s.seg.brk = 4 * (a + len bs) ∧ Tagged s.seg.word a bs ∧ Coalesced bs

namespace ListBased

section Calls
variable {f : Format} {c : Code} {s s' s₁ : Segment} {bs bs' bs₁ pre post : Layout} {b d : Block}
  {n x z : ℕ}

lemma fullyCoalesced_iff {s : State} (h : Inv f s.seg bs) :
    FullyCoalesced f.first s ↔ Coalesced bs := by
  constructor
  · rintro ⟨cs, hbrk, htags, hco⟩
    rwa [h.tiles.tags.unique htags (by have := h.tiles.brk; omega)]
  · exact fun hco => ⟨bs, h.tiles.brk, h.tiles.tags, hco⟩

lemma Inv.unique (h : Inv f s bs) (h' : Inv f s bs') : bs = bs' := by
  have hbrk := h.tiles.brk
  have hbrk' := h'.tiles.brk
  exact h.tiles.tags.unique h'.tiles.tags (by omega)

lemma freesTail_iff (h : Inv f s (pre ++ b :: post)) :
    FreesTail s (f.first + len pre + 1) ↔ post = [] ∧ ¬ ∀ p ∈ pre.getLast?, p.alloc = true := by
  have hbrk := h.tiles.brk
  have hhdr := h.tiles.word_header
  have h4 := b.four_words
  have hprev := h.tiles.prev_alloc
  simp only [len_append, len_cons] at hbrk
  rw [FreesTail, Nat.add_sub_cancel, hhdr, b.tag_div, ← len_eq_zero, ← hprev,
    show f.first + len pre + 1 - 2 = f.first + len pre - 1 by omega]
  omega

/-- `coalesce` leaves two free neighbours just when it is called for the last block and the one
before it is free. -/
lemma Coalesces.coalesced_iff {r : ℕ} (h : Coalesces f s pre b post r s' bs')
    (hb : b.alloc = false) (hpre : Coalesced pre) (hpost : Coalesced post) :
    Coalesced bs' ↔ ¬ (post = [] ∧ ¬ ∀ p ∈ pre.getLast?, p.alloc = true) := by
  by_cases hnil : post = []
  · rw [(h.last hnil).1]
    simp only [hnil, true_and, not_not]
    constructor
    · exact fun hco => hco.last_alloc hb
    · exact fun hlast => hpre.insert b List.isChain_nil hlast (by simp)
  · simp only [hnil, false_and, not_false_iff, iff_true]
    exact h.coalesced hnil hpre hpost

/-- `free` leaves two free neighbours just when it frees the last block after a free one. -/
theorem free_coalesced (hc : Implements f c) (h : Inv f s bs) (hco : Coalesced bs)
    (hx : Live f.first bs x b) :
    wp (freeWith c.coalesce (some (x + 1)))
      (fun _ s' => ∃ bs', Inv f s' bs' ∧ (Coalesced bs' ↔ ¬ FreesTail s (x + 1))) s := by
  obtain ⟨pre, post, rfl, rfl⟩ := at_iff_split.1 hx.1
  refine wp_mono (free_spec hc h hx.2) ?_
  rintro _ s' ⟨r, bs', hpost⟩
  refine ⟨bs', hpost.heap, ?_⟩
  rw [freesTail_iff h]
  exact hpost.coalesced_iff rfl hco.left hco.right.tail

/-- A block that the heap was extended by and that is allocated at its front leaves no two free
neighbours. -/
lemma coalesced_grown {a : ℕ} {e : Block} (h : Allocates a (bs ++ [e]) bs' (a + len bs) b)
    (hco : Coalesced bs) : Coalesced bs' := by
  obtain ⟨pre, g, rest, post, hbs, rfl, hx, -, hb, hrest, -, -⟩ := h
  obtain ⟨rfl, hpost⟩ : bs = pre ∧ [e] = g :: post := by
    rcases List.append_eq_append_iff.1 hbs with ⟨mid, rfl, hmid⟩ | ⟨mid, rfl, hmid⟩
    · rw [len_append] at hx
      obtain rfl : mid = [] := len_eq_zero.1 (by omega)
      exact ⟨by simp, hmid⟩
    · rw [len_append] at hx
      obtain rfl : mid = [] := len_eq_zero.1 (by omega)
      exact ⟨by simp, hmid.symm⟩
  obtain ⟨rfl, rfl⟩ := List.cons_eq_cons.1 hpost
  have htail : Coalesced (b :: rest) := by
    match rest, hrest with
    | [], _ => exact List.isChain_singleton b
    | [d], _ => exact List.isChain_pair.2 (.inl hb)
  rw [List.append_nil]
  exact hco.append_alloc htail hb

lemma Serves.coalesced {r : Option ℕ} (h : Serves f c s bs n r s') (hinv : Inv f s bs)
    (hco : Coalesced bs) : ∃ bs', Inv f s' bs' ∧ Coalesced bs' := by
  cases h with
  | null _ => exact ⟨bs, hinv, hco⟩
  | fit hfind h => exact ⟨_, h.inv, h.allocates.coalesced hco⟩
  | grown hfind hkeep he h => exact ⟨_, h.inv, coalesced_grown h.allocates hco⟩

/-- Whether the word before `x` is a free tag, after the free block at `y` has been placed. -/
lemma Places.prev_free {k y : ℕ} {g : Block} (h : Places f s bs y k s₁ bs₁ b) (hinv : Inv f s bs)
    (hg : At f.first bs y g) (hx : Live f.first bs x d) :
    s₁.word (x - 1) % 2 = 0 ↔
      s.word (x - 1) % 2 = 0 ∧ ¬ (y + g.words = x ∧ g.size < k + 16) := by
  have hwhole := h.whole g hg
  have hx₁ : At f.first bs₁ x d := (h.allocates.live_iff.2 (.inl hx)).1
  by_cases hyx : y + g.words = x
  · -- the block before `x` is the one that is placed, or what is left of it
    obtain ⟨pre, g', rest, post, rfl, rfl, rfl, hfree, hb, hlen, hrest, hwords⟩ := h.allocates
    obtain rfl : g' = g := (show At f.first (pre ++ g' :: post) (f.first + len pre) g' by
      simp).unique hg
    have hgw := g'.words_ge
    have hfoot := (hinv.tiles.tags _ g' hg).2
    have heven : s.word (x - 1) % 2 = 0 := by
      rw [← hyx, hfoot, g'.tag_mod, hfree]
      rfl
    match rest, hlen, hrest with
    | [], _, _ =>
      have hfoot₁ := (h.inv.tiles.tags (f.first + len pre) b (by simp)).2
      rw [len_nil, Nat.add_zero] at hwords
      rw [hwords, hyx] at hfoot₁
      have hodd : s₁.word (x - 1) % 2 = 1 := by
        rw [hfoot₁, b.tag_mod, hb]
        rfl
      simp only [hodd, heven, hyx, hwhole.1 hwords]
      decide
    | [e], _, hrest =>
      have he := e.words_ge
      have hfoot₁ := (h.inv.tiles.tags (f.first + len pre + b.words) e (by simp)).2
      rw [len_cons, len_nil, Nat.add_zero] at hwords
      rw [Nat.add_assoc (f.first + len pre), hwords, hyx] at hfoot₁
      have hodd : s₁.word (x - 1) % 2 = 0 := by
        rw [hfoot₁, e.tag_mod, hrest e (by simp)]
        rfl
      have hsize : ¬ g'.size < k + 16 := fun hlt => by
        have := hwhole.2 hlt
        omega
      simp [hodd, heven, hsize]
  · -- the block before `x` is another one, or `x` is the first one
    have hsame : s₁.word (x - 1) = s.word (x - 1) := by
      rcases hx.1.prev with rfl | ⟨z, p, hz, rfl⟩
      · rw [show f.first - 1 = f.last by simp [Format.first], h.inv.tiles.last,
          hinv.tiles.last]
      · have hne : z ≠ y := by
          rintro rfl
          rw [hz.unique hg] at hyx
          exact hyx rfl
        rw [(h.inv.tiles.tags z p (h.allocates.at_other hz hne)).2, (hinv.tiles.tags z p hz).2]
    simp [hsame, hyx]

/-- What `realloc` frees after `malloc(n)` is the last block after a free one just when it was so
before, and the new block is an old one elsewhere. -/
lemma Serves.freesTail {q : ℕ} (h : Serves f c s bs n (some q) s₁) (hinv : Inv f s bs)
    (hx : Live f.first bs x d) :
    FreesTail s₁ (x + 1) ↔ FreesTail s (x + 1) ∧ PlacesElsewhere c.findFit s (x + 1) n := by
  have htag := (hinv.tiles.tags x d hx.1).1
  have hbrk := hinv.tiles.brk
  have hbounds := hx.1.bounds
  have h4 := d.four_words
  have hback : x + 1 - 2 = x - 1 := by omega
  simp only [FreesTail, Nat.add_sub_cancel, htag, d.tag_div, hback]
  generalize hr : some q = r at h
  cases h with
  | null _ => cases hr
  | @fit y s₁ bs₁ b hfind h =>
    obtain ⟨pre, g, rest, post, hbs, -, hy, hfree, -⟩ := id h.allocates
    have hg : At f.first bs y g := by simp [hbs, hy]
    have hgtag := (hinv.tiles.tags y g hg).1
    have hx₁ : At f.first bs₁ x d := (h.allocates.live_iff.2 (.inl hx)).1
    -- unless the block in front of `x` is found and taken whole
    have hplaces : PlacesElsewhere c.findFit s (x + 1) n ↔
        ¬ (y + g.words = x ∧ g.size < getMallocSize n + 16) := by
      simp only [PlacesElsewhere, hfind, Option.some.injEq, Prod.mk.injEq, and_true,
        exists_eq_left', Nat.add_sub_cancel, hgtag, g.tag_div, WSIZE, Block.size_div_four,
        Nat.add_right_comm y 1, Nat.add_right_cancel_iff]
    rw [(h.inv.tiles.tags x d hx₁).1, d.tag_div, h.inv.tiles.brk, h.allocates.len_eq, ← hbrk,
      h.prev_free hinv hg hx, hplaces, and_assoc]
  | @grown s₂ s₁ bs₁ e b hfind hkeep he h =>
    have hx₁ : At f.first bs₁ x d :=
      (h.allocates.live_iff.2 (.inl ((live_append_free he).2 hx))).1
    have hlen := h.allocates.len_eq
    have hbrk₁ := h.inv.tiles.brk
    have hew := e.words_ge
    rw [len_append, len_cons, len_nil] at hlen
    rw [(h.inv.tiles.tags x d hx₁).1, d.tag_div]
    -- the search has found nothing, and the heap no longer ends with `x`
    have hno : ¬ PlacesElsewhere c.findFit s (x + 1) n := by
      rintro ⟨bp, hrun, -⟩
      rw [hfind] at hrun
      cases hrun
    constructor
    · rintro ⟨hend, -⟩
      omega
    · exact fun h => absurd h.2 hno

lemma Serves.not_placesElsewhere {p : ℕ} (h : Serves f c s bs n none s₁) (hpos : 0 < n) :
    s₁ = s ∧ ¬ PlacesElsewhere c.findFit s p n := by
  cases h with
  | null hfind =>
    refine ⟨rfl, fun ⟨bp, hrun, _⟩ => ?_⟩
    rw [hfind hpos] at hrun
    cases hrun

/-- When the block has been moved by `realloc`, two free neighbours are left just when it was the
last block after a free one, and the new block is an old one elsewhere. -/
theorem move_coalesced {q k : ℕ} (hc : Implements f c) (h : Serves f c s bs n (some q) s₁)
    (hinv : Inv f s bs) (hco : Coalesced bs) (hx : Live f.first bs x d) (hn : n < 2 ^ 31)
    (hk : k ≤ n) (junk : ℕ → UInt8) :
    wp (do memcpy junk q (x + 1) k; freeWith c.coalesce (some (x + 1)); return some q)
      (fun _ s' => ∃ bs', Inv f s' bs' ∧ (Coalesced bs' ↔
        ¬ (FreesTail s (x + 1) ∧ PlacesElsewhere c.findFit s (x + 1) n))) s₁ := by
  obtain ⟨bs₁, z, b, rfl, hinv₁, hsize, hfresh, hlive, -⟩ := h.mallocs hn
  obtain ⟨cs, hcs, hco₁⟩ := h.coalesced hinv hco
  obtain rfl : cs = bs₁ := hcs.unique hinv₁
  have hx₁ : Live f.first cs x d := (hlive x d).2 (.inl hx)
  have hz₁ : Live f.first cs z b := (hlive z b).2 (.inr ⟨rfl, rfl⟩)
  have hbounds := hz₁.1.bounds
  have hbrk := hinv₁.tiles.brk
  have hbw := b.words_ge
  have hb4 := b.four_words
  rw [← h.freesTail hinv hx]
  simp only [wp_bind, memcpy, WSIZE]
  refine wp_copy (by omega) fun s₂ hbrk₂ hcap hsame _ => ?_
  have hinv₂ : Inv f s₂ cs := hinv₁.write hz₁ ⟨hbrk₂, hcap, fun i hi => hsame i fun h =>
    hi ⟨by omega, by omega⟩⟩
  refine wp_call (free_coalesced hc hinv₂ hco₁ hx₁) ?_
  rintro _ s₃ ⟨bs₃, hinv₃, hiff⟩
  refine (wp_pure _ _ _).2 ⟨bs₃, hinv₃, ?_⟩
  obtain ⟨pre, post, rfl, rfl⟩ := at_iff_split.1 hx₁.1
  rw [hiff, freesTail_iff hinv₁, freesTail_iff hinv₂]

end Calls

/-! ## All runs -/

/-- What is used of an allocator here: its own functions are made of the shared ones, and
`realloc` leaves two free neighbours just when it frees the last block after a free one. -/
structure Coalescing (A : Allocator) (f : Format) (c : Code) (moves : ℕ → ℕ → Prop) : Prop where
  implements : Implements f c
  contract : Contract A f.first (Inv f)
  mmInit : ∀ {bytes cap} grant₁ grant₂, cap ≤ 2 ^ 32 →
    wp (A.mmInit grant₁ grant₂) (fun r s' => ∀ hp, r = some hp → ∃ e, Inv f s' [e]) ⟨bytes, 0, cap⟩
  malloc : ∀ {s bs} grant n, Inv f s bs → n < 2 ^ 31 →
    wp (A.malloc 1 grant n) (Serves f c s bs n) s
  free : ∀ p, A.free 1 p = freeWith c.coalesce p
  reallocZero : ∀ grant junk p s, (A.realloc 1 grant junk p 0).run s
    = ((A.free 1 p).run s).map fun r => (none, r.2)
  reallocNull : ∀ grant junk n, 0 < n → A.realloc 1 grant junk none n = A.malloc 1 grant n
  realloc : ∀ {s bs x d} grant junk n, Inv f s bs → Coalesced bs → Live f.first bs x d → 0 < n →
    n < 2 ^ 31 → wp (A.realloc 1 grant junk (some (x + 1)) n)
      (fun _ s' => ∃ bs', Inv f s' bs' ∧ (Coalesced bs' ↔ ¬ (FreesTail s (x + 1) ∧
        moves d.size (getMallocSize n) ∧ PlacesElsewhere c.findFit s (x + 1) n))) s


namespace Coalescing

variable {A : Allocator} {f : Format} {c : Code} {moves : ℕ → ℕ → Prop}
  {findFit : ℕ → ℕ → HeapM (Option ℕ)} {bs : Layout} {s : State}

lemma free_none (hA : Coalescing A f c moves) (seg : Segment) :
    (A.free 1 none).run seg = some ((), seg) := by
  rw [hA.free]
  rfl

/-- One call: two free neighbours are left just when it misses a merge. -/
theorem step (hA : Coalescing A f c moves) (hfind : findFit 1 = c.findFit)
    (h : Runs f.first (Inv f) s bs) (hco : Coalesced bs) (env : Env) {call : Call ℕ}
    (hcall : Legal s call) : ∃ seg bs', (serve A env s call).map (fun r => r.2.seg) = some seg ∧
      Inv f seg bs' ∧ (Coalesced bs' ↔ ¬ MissesMerge findFit moves s call) := by
  obtain ⟨seg₀, heapPtr, live⟩ := s
  obtain rfl : heapPtr = 1 := h.heapPtr
  -- `malloc` never leaves two free neighbours, `free` does so for a tail
  have hmalloc : ∀ n < 2 ^ 31, ∃ r seg bs', (A.malloc 1 env.grant n).run seg₀ = some (r, seg) ∧
      Inv f seg bs' ∧ Coalesced bs' := fun n hn => by
    obtain ⟨r, seg, hrun, hserves⟩ := hA.malloc env.grant n h.inv hn
    obtain ⟨bs', hinv, hco'⟩ := hserves.coalesced h.inv hco
    exact ⟨r, seg, bs', hrun, hinv, hco'⟩
  have hfree : ∀ p, (live p).isSome → ∃ seg bs', (A.free 1 (some p)).run seg₀ = some ((), seg) ∧
      Inv f seg bs' ∧ (Coalesced bs' ↔ ¬ FreesTail seg₀ p) := fun p hp => by
    obtain ⟨x, b, rfl, hx⟩ := h.exists_live hp
    rw [hA.free]
    obtain ⟨_, seg, hrun, bs', hinv, hiff⟩ := free_coalesced hA.implements h.inv hco hx
    exact ⟨seg, bs', hrun, hinv, hiff⟩
  cases call with
  | malloc n =>
    obtain ⟨r, seg, bs', hrun, hinv, hco'⟩ := hmalloc n hcall
    exact ⟨seg, bs', by simp [serve, hrun], hinv, by simp [MissesMerge, hco']⟩
  | free p =>
    cases p with
    | none =>
      exact ⟨seg₀, bs, by simp [serve, hA.free_none], h.inv, by simp [MissesMerge, hco]⟩
    | some p =>
      obtain ⟨seg, bs', hrun, hinv, hiff⟩ := hfree p (hcall p rfl)
      exact ⟨seg, bs', by simp [serve, hrun], hinv, hiff⟩
  | realloc p n =>
    obtain ⟨hp, hn⟩ := hcall
    rcases Nat.eq_zero_or_pos n with rfl | hpos <;> cases p with
    | none => ?_
    | some p => ?_
    · exact ⟨seg₀, bs, by simp [serve, hA.reallocZero, hA.free_none], h.inv,
        by simp [MissesMerge, hco]⟩
    · obtain ⟨seg, bs', hrun, hinv, hiff⟩ := hfree p (hp p rfl)
      exact ⟨seg, bs', by simp [serve, hA.reallocZero, hrun], hinv, by simp [MissesMerge, hiff]⟩
    · obtain ⟨r, seg, bs', hrun, hinv, hco'⟩ := hmalloc n hn
      exact ⟨seg, bs', by simp [serve, hA.reallocNull _ _ n hpos, hrun], hinv,
        by simp [MissesMerge, hco']⟩
    · obtain ⟨x, b, rfl, hx⟩ := h.exists_live (hp p rfl)
      have htag := (h.inv.tiles.tags x b hx.1).1
      obtain ⟨r, seg, hrun, bs', hinv, hiff⟩ :=
        hA.realloc env.grant env.junk n h.inv hco hx hpos hn
      refine ⟨seg, bs', by simp [serve, hrun], hinv, ?_⟩
      rw [hiff]
      simp [MissesMerge, htag, b.tag_div, hpos.ne', hfind]
  | write p i v =>
    obtain ⟨n, hn, hi⟩ := hcall
    obtain ⟨hruns, -⟩ := hA.contract.write_step h 0 v hn hi
    exact ⟨_, bs, rfl, hruns.inv, by simp [MissesMerge, hco]⟩

/-- In every run in which no call misses a merge, no two neighbours are both free, and the next
call leaves two free neighbours just when it misses a merge. -/
theorem fullyCoalesced (hA : Coalescing A f c moves) (hfind : findFit 1 = c.findFit) {cap : ℕ}
    (hcap : cap ≤ 2 ^ 32)
    (hs : Reachable A cap (fun s call => Legal s call ∧ ¬ MissesMerge findFit moves s call) s) :
    FullyCoalesced f.first s ∧ ∀ env call r s', Legal s call →
      serve A env s call = some (r, s') →
        (FullyCoalesced f.first s' ↔ ¬ MissesMerge findFit moves s call) := by
  have hstep : ∀ {s}, (∃ bs, Runs f.first (Inv f) s bs) → FullyCoalesced f.first s →
      ∀ env call r s', Legal s call → serve A env s call = some (r, s') →
        (FullyCoalesced f.first s' ↔ ¬ MissesMerge findFit moves s call) := by
    rintro s ⟨bs, hruns⟩ hco env call r s' hcall hserve
    obtain ⟨seg, bs', hseg, hinv, hiff⟩ :=
      hA.step hfind hruns ((fullyCoalesced_iff hruns.inv).1 hco) env hcall
    rw [hserve] at hseg
    obtain rfl : s'.seg = seg := by simpa using hseg
    rw [fullyCoalesced_iff hinv, hiff]
  have hruns : ∀ {s}, Reachable A cap (fun s call => Legal s call ∧
      ¬ MissesMerge findFit moves s call) s → ∃ bs, Runs f.first (Inv f) s bs :=
    fun hs => hA.contract.runs_of_reachable hcap (fun _ _ h => h.1) hs
  suffices hco : FullyCoalesced f.first s from ⟨hco, hstep (hruns hs) hco⟩
  induction hs with
  | init h =>
    obtain ⟨e, hinv⟩ := wp_elim (hA.mmInit _ _ hcap) h _ rfl
    exact ⟨[e], hinv.tiles.brk, hinv.tiles.tags, List.isChain_singleton e⟩
  | step hs hcall h ih => exact (hstep (hruns hs) ih _ _ _ _ hcall.1 h).2 hcall.2

end Coalescing

end ListBased

namespace Explicit

open ListBased

/-- `realloc` always moves the block. -/
def MissesMerge : State → Call ℕ → Prop := Malloclab.MissesMerge findFirstFit fun _ _ => True

theorem coalescing : Coalescing allocator format code fun _ _ => True where
  implements := implements
  contract := contract
  mmInit grant₁ grant₂ hcap := by
    refine wp_mono (mmInit_spec grant₁ grant₂ hcap) fun r s' h hp hr => ?_
    obtain ⟨-, e, -, hinv⟩ := h hp hr
    exact ⟨e, hinv⟩
  malloc grant n h hn := malloc_spec grant h hn
  free _ := rfl
  reallocZero grant junk p s := by
    simp only [allocator, realloc, reallocCopy, if_true, run_bind]
    cases (free 1 p).run s <;> rfl
  reallocNull grant junk n hn := by simp [allocator, realloc, reallocCopy, hn.ne']
  realloc {s bs x d} grant junk n h hco hx hpos hn := by
    simp only [allocator, realloc, reallocCopy, hpos.ne', if_false, true_and]
    refine wp_call (malloc_spec grant h hn) ?_
    rintro (_ | q) s₁ h₁
    · obtain ⟨rfl, hno⟩ := h₁.not_placesElsewhere hpos (p := x + 1)
      exact (wp_pure _ _ _).2 ⟨bs, h, iff_of_true hco fun hmiss => hno hmiss.2⟩
    · obtain ⟨bs₁, _, _, -, hinv₁, -, -, hlive, -⟩ := h₁.mallocs hn
      have hx₁ := ((hlive x d).2 (.inl hx)).1
      have hbounds := hx₁.bounds
      have hw := d.words_ge
      have hbrk := hinv₁.tiles.brk
      rw [wp_bind, getHeader, Nat.add_sub_cancel, wp_blockSize]
      refine ⟨by omega, move_coalesced implements h₁ h hco hx hn ?_ junk⟩
      split <;> omega

end Explicit

namespace Seglist

open ListBased

/-- `realloc` moves the block if the new size is not the same and not much smaller. -/
def moves (oldsize newsize : ℕ) : Prop := newsize ≠ oldsize ∧ ¬ shrinks oldsize newsize

def MissesMerge : State → Call ℕ → Prop := Malloclab.MissesMerge findFit moves

theorem coalescing : Coalescing allocator format code moves where
  implements := implements
  contract := contract
  mmInit grant₁ grant₂ hcap := by
    refine wp_mono (mmInit_spec grant₁ grant₂ hcap) fun r s' h hp hr => ?_
    obtain ⟨-, e, -, hinv⟩ := h hp hr
    exact ⟨e, hinv⟩
  malloc grant n h hn := malloc_spec grant h hn
  free _ := rfl
  reallocZero grant junk p s := by
    simp only [allocator, realloc, if_true, run_bind]
    cases (free 1 p).run s <;> rfl
  reallocNull grant junk n hn := by simp [allocator, realloc, hn.ne']
  realloc {s bs x d} grant junk n h hco hx hpos hn := by
    by_cases hsize : getMallocSize n = d.size
    · refine wp_mono (realloc_same grant junk h hx hpos hsize) ?_
      rintro _ _ ⟨-, rfl⟩
      exact ⟨bs, h, iff_of_true hco fun hmiss => hmiss.2.1.1 hsize⟩
    by_cases hshrinks : shrinks d.size (getMallocSize n)
    · refine wp_mono (realloc_shrinks grant junk h hx hpos (by omega)
        (le_of_shrinks (size_lt h hx.1) (getMallocSize_lt_of_lt hn) hshrinks) hshrinks) ?_
      rintro _ s' ⟨-, pre, post, b, e, r, bs', rfl, -, hb, he, -, -, hpost⟩
      refine ⟨bs', hpost.heap, iff_of_true ?_ fun hmiss => hmiss.2.1.2 hshrinks⟩
      have hpre : Coalesced (pre ++ [b]) := hco.left.append_alloc (List.isChain_singleton b) hb
      exact (hpost.coalesced_iff he hpre hco.right.tail).2 (by simp [hb])
    · refine realloc_move grant junk h hx hpos hsize hshrinks
        (wp_mono (malloc_spec grant h hn) ?_) (wp_mono (malloc_spec grant h hn) ?_)
      · rintro _ s₁ h₁ q rfl
        refine wp_mono (move_coalesced implements h₁ h hco hx hn le_rfl junk) ?_
        rintro _ s' ⟨bs', hinv, hiff⟩
        exact ⟨bs', hinv, by simpa [moves, hsize, hshrinks] using hiff⟩
      · rintro _ s₁ h₁ rfl
        obtain ⟨rfl, hno⟩ := h₁.not_placesElsewhere hpos (p := x + 1)
        exact ⟨bs, h, iff_of_true hco fun hmiss => hno hmiss.2.2⟩

end Seglist
/-- In a run in which no call misses a merge, no two neighbours are ever both free, and two free
neighbours are left just by a call that does. -/
theorem coalesced_iff_merges {cap : ℕ} (hcap : cap ≤ 2 ^ 32) :
    (∀ s, Reachable Explicit.allocator cap
        (fun s call => Legal s call ∧ ¬ Explicit.MissesMerge s call) s →
      FullyCoalesced 5 s ∧ ∀ env call r s', Legal s call →
        serve Explicit.allocator env s call = some (r, s') →
          (FullyCoalesced 5 s' ↔ ¬ Explicit.MissesMerge s call)) ∧
    (∀ s, Reachable Seglist.allocator cap
        (fun s call => Legal s call ∧ ¬ Seglist.MissesMerge s call) s →
      FullyCoalesced 13 s ∧ ∀ env call r s', Legal s call →
        serve Seglist.allocator env s call = some (r, s') →
          (FullyCoalesced 13 s' ↔ ¬ Seglist.MissesMerge s call)) :=
  ⟨fun _ hs => Explicit.coalescing.fullyCoalesced rfl hcap hs,
    fun _ hs => Seglist.coalescing.fullyCoalesced rfl hcap hs⟩

/-- Two blocks at the front of the heap, and a free one behind them. -/
def Explicit.twoBlocks : State :=
  (after Explicit.allocator (2 ^ 14) [.malloc 100, .malloc 200]).get (by decide +kernel)

/-- Two blocks at the front of the heap, and a free one behind them. -/
def Seglist.twoBlocks : State :=
  (after Seglist.allocator (2 ^ 14) [.malloc 100, .malloc 50]).get (by decide +kernel)

lemma Explicit.reachable_twoBlocks : Reachable Explicit.allocator (2 ^ 14)
    (fun s call => Legal s call ∧ ¬ Explicit.MissesMerge s call) Explicit.twoBlocks :=
  reachable_after_of (by simp [Explicit.MissesMerge, Malloclab.MissesMerge]) _

lemma Seglist.reachable_twoBlocks : Reachable Seglist.allocator (2 ^ 14)
    (fun s call => Legal s call ∧ ¬ Seglist.MissesMerge s call) Seglist.twoBlocks :=
  reachable_after_of (by simp [Seglist.MissesMerge, Malloclab.MissesMerge]) _

/-- The second block is freed and is not the last one: it is merged with the one behind it. -/
theorem coalesced_iff_merges_freed :
    (∃ r s, serve Explicit.allocator ⟨true, fun _ => 0⟩ Explicit.twoBlocks (.free (some 34)) =
      some (r, s) ∧ FullyCoalesced 5 s) ∧
    (∃ r s, serve Seglist.allocator ⟨true, fun _ => 0⟩ Seglist.twoBlocks (.free (some 42)) =
      some (r, s) ∧ FullyCoalesced 13 s) := by
  have h := coalesced_iff_merges (show 2 ^ 14 ≤ 2 ^ 32 by norm_num)
  constructor
  · have hserve : (serve Explicit.allocator ⟨true, fun _ => 0⟩ Explicit.twoBlocks
        (.free (some 34))).isSome := by decide +kernel
    have hcall : Legal Explicit.twoBlocks (.free (some 34)) ∧
        ¬ FreesTail Explicit.twoBlocks.seg 34 := by
      unfold FreesTail
      decide +kernel
    obtain ⟨⟨r, s⟩, hserve⟩ := Option.isSome_iff_exists.1 hserve
    exact ⟨r, s, hserve, (h.1 s (Explicit.reachable_twoBlocks.step hcall hserve)).1⟩
  · have hserve : (serve Seglist.allocator ⟨true, fun _ => 0⟩ Seglist.twoBlocks
        (.free (some 42))).isSome := by decide +kernel
    have hcall : Legal Seglist.twoBlocks (.free (some 42)) ∧
        ¬ FreesTail Seglist.twoBlocks.seg 42 := by
      unfold FreesTail
      decide +kernel
    obtain ⟨⟨r, s⟩, hserve⟩ := Option.isSome_iff_exists.1 hserve
    exact ⟨r, s, hserve, (h.2 s (Seglist.reachable_twoBlocks.step hcall hserve)).1⟩

lemma not_fullyCoalesced {a : ℕ} {s : State} {b d : Block} (hbrk : s.seg.brk = 4 * (a + len [b, d]))
    (htags : Tagged s.seg.word a [b, d]) (hb : b.alloc = false) (hd : d.alloc = false) :
    ¬ FullyCoalesced a s := by
  rintro ⟨bs, hbrk', htags', hco⟩
  obtain rfl := htags'.unique htags (by omega)
  rcases (List.isChain_cons_cons.1 hco).1 with h | h
  · simp [hb] at h
  · simp [hd] at h

/-- A block for which the heap was extended is freed: the block that `mm_init` left is free too,
and the two stay apart. -/
theorem not_always_coalesced :
    (∃ s, Reachable Explicit.allocator (2 ^ 14) Legal s ∧ ¬ FullyCoalesced 5 s) ∧
    (∃ s, Reachable Seglist.allocator (2 ^ 14) Legal s ∧ ¬ FullyCoalesced 13 s) := by
  refine ⟨⟨(after Explicit.allocator (2 ^ 14) [.malloc 5000, .free (some 1030)]).get
    (by decide +kernel), reachable_after _, ?_⟩,
    ⟨(after Seglist.allocator (2 ^ 14) [.malloc 300, .free (some 78)]).get
    (by decide +kernel), reachable_after _, ?_⟩⟩
  · refine not_fullyCoalesced (b := ⟨4096, false, by norm_num, by norm_num⟩)
      (d := ⟨5008, false, by norm_num, by norm_num⟩) (by decide +kernel) ?_ rfl rfl
    simp only [tagged_cons, tagged_nil, and_true]
    decide +kernel
  · refine not_fullyCoalesced (b := ⟨256, false, by norm_num, by norm_num⟩)
      (d := ⟨312, false, by norm_num, by norm_num⟩) (by decide +kernel) ?_ rfl rfl
    simp only [tagged_cons, tagged_nil, and_true]
    decide +kernel

end Malloclab
end SystemsLabs
