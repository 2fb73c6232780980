import SystemsLabs.Malloclab.AnySizeCalls
import SystemsLabs.Malloclab.ListCoalescing

/-!
# When the heap grows

All three files search before they extend the heap, and none gives anything back to memlib.
`heap_growth` says which calls make the heap longer, and by how much. A block that has been freed
stays part of a free block that is at least as large until something is allocated, so a later
request that is no larger is served without a longer heap (`freed_memory_reusable`).
-/

namespace SystemsLabs
namespace Malloclab

open Memory Layout

/-- After `malloc(n)` the heap has `brk` bytes: it has grown if no free block is large enough and
memlib serves. -/
def Lengthens (a chunksize : ℕ) (grant : Bool) (s : Segment) (bs : Layout) (n brk : ℕ) : Prop :=
  (FindsFit a bs (getMallocSize n) none ∧ Grants grant s (max (getMallocSize n) chunksize)) ∧
      brk = s.brk + max (getMallocSize n) chunksize ∨
    ¬ (FindsFit a bs (getMallocSize n) none ∧
      Grants grant s (max (getMallocSize n) chunksize)) ∧ brk = s.brk

/-- A free block that is large enough is found. -/
lemma not_findsFit_none {a size y : ℕ} {bs : Layout} {c : Block} (hy : At a bs y c)
    (hfree : c.alloc = false) (hle : size ≤ c.size) : ¬ FindsFit a bs size none :=
  fun hno => absurd (hno y c hy hfree) (not_lt.2 hle)

/-- What is allocated is part of a free block. -/
lemma not_findsFit_of_allocates {a x size : ℕ} {bs bs' : Layout} {b : Block}
    (h : Allocates a bs bs' x b) (hle : size ≤ b.size) : ¬ FindsFit a bs size none := by
  obtain ⟨pre, c, rest, post, rfl, -, -, hfree, -, -, -, hlen⟩ := h
  have hb4 := b.four_words
  have hc4 := c.four_words
  exact not_findsFit_none (y := a + len pre) (c := c) (by simp) hfree (by omega)

/-! ## `realloc` by copying -/

section Copy
variable {A : Allocator} {a : ℕ} {Inv : Segment → Layout → Prop} {s s₁ : Segment} {bs : Layout}
  {x n k q : ℕ} {b : Block}

/-- The old block is copied and freed in a heap of the same length. -/
lemma copyFree_brk (hA : Contract A a Inv) (junk : ℕ → UInt8) (hx : Live a bs x b) (hkn : k ≤ n)
    (h₁ : Mallocs a Inv s bs n (some q) s₁) :
    wp (do memcpy junk q (x + 1) k; A.free 1 (some (x + 1)); return some q)
      (fun _ s' => s'.brk = s₁.brk) s₁ := by
  obtain ⟨bs₁, z, c, rfl, hinv₁, hsize, -, hlive₁, -⟩ := h₁
  have hx₁ : Live a bs₁ x b := (hlive₁ x b).2 (.inl hx)
  have hz₁ : Live a bs₁ z c := (hlive₁ z c).2 (.inr ⟨rfl, rfl⟩)
  have hc4 := c.four_words
  have hbounds := hz₁.1.bounds
  have hin := hA.inside hinv₁
  simp only [wp_bind, memcpy, WSIZE]
  refine wp_copy (by omega) fun s₂ hbrk hcap hsame _ => ?_
  have hsame₂ : s₁.SameBut (Between (z + 1) (z + c.words - 1)) s₂ :=
    ⟨hbrk, hcap, fun i hi => hsame i fun h => hi ⟨by omega, by omega⟩⟩
  refine wp_call (hA.free (hA.write hinv₁ hz₁ hsame₂) hx₁) ?_
  rintro _ s₃ ⟨-, -, -, -, hbrk₃⟩
  exact (wp_pure _ _ _).2 (hbrk₃.trans hbrk)

lemma reallocCopy_brk (hA : Contract A a Inv) (junk : ℕ → UInt8) {grant : Bool} {P : ℕ → Prop}
    (hx : Live a bs x b) (hpos : 0 < n)
    (hmallocs : wp (A.malloc 1 grant n) (Mallocs a Inv s bs n) s)
    (hP : wp (A.malloc 1 grant n) (fun _ s' => P s'.brk) s) :
    wp (reallocCopy (A.malloc 1 grant) (A.free 1) junk (some (x + 1)) n)
      (fun _ s' => P s'.brk) s := by
  obtain ⟨r, s₁, hrun, h₁⟩ := hmallocs
  have hP₁ := wp_elim hP hrun
  rw [reallocCopy, if_neg hpos.ne', wp_bind, wp_of_run hrun]
  cases r with
  | none => exact (wp_pure _ _ _).2 hP₁
  | some q =>
    -- the old block is still there
    obtain ⟨bs₁, _, _, -, hinv₁, -, -, hlive₁, -⟩ := id h₁
    have hx₁ : At a bs₁ x b := ((hlive₁ x b).2 (.inl hx)).1
    have hw := b.words_ge
    have hbounds := hx₁.bounds
    have hin := hA.inside hinv₁
    rw [wp_bind, getHeader, Nat.add_sub_cancel, wp_blockSize]
    refine ⟨by omega, wp_mono (copyFree_brk hA junk hx ?_ h₁) fun _ _ hbrk => hbrk ▸ hP₁⟩
    split <;> omega

end Copy

/-! ## The three files -/

namespace File

/-- `malloc(n)` makes the heap longer. -/
def Extends (file : File) (grant : Bool) (s : Segment) (n : ℕ) : Prop :=
  0 < n ∧ ¬ file.Fits s (getMallocSize n) ∧
    Grants grant s (max (getMallocSize n) file.chunksize)

/-- `realloc` calls `malloc`: that of `mm-seglist.c` only where it moves the block. -/
def Moves (file : File) (oldsize newsize : ℕ) : Prop :=
  file = seglist → Seglist.moves oldsize newsize

lemma moves_of_ne {file : File} {oldsize newsize : ℕ} (h : file ≠ seglist) :
    file.Moves oldsize newsize := fun hfile => absurd hfile h

/-- The call comes to a `malloc(n)`. -/
def Asks (file : File) (s : State) (n : ℕ) : Call ℕ → Prop
  | .malloc k => k = n
  | .realloc none k => k = n
  | .realloc (some p) k => k = n ∧ file.Moves (s.blockSize p) (getMallocSize k)
  | _ => False

end File

/-- What is needed of a file beyond its contract: the length of its heap, and that `free` merges
the block with free ones. -/
structure Thrifty (file : File) : Prop where
  malloc : ∀ {s bs} grant n, file.Inv s bs → 0 < n → n ≤ 2 ^ 64 - 16 →
    wp (file.allocator.malloc 1 grant n)
      (fun _ s' => Lengthens file.first file.chunksize grant s bs n s'.brk) s
  free : ∀ {s pre b post}, file.Inv s (pre ++ b :: post) → b.alloc = true →
    wp (file.allocator.free 1 (some (file.first + len pre + 1)))
      (fun _ s' => ∃ bs', file.Inv s' bs' ∧ Merges (pre ++ b.mark false :: post) bs') s
  freeNull : ∀ s, (file.allocator.free 1 none).run s = some ((), s)
  reallocZero : ∀ grant junk p s, (file.allocator.realloc 1 grant junk p 0).run s =
    ((file.allocator.free 1 p).run s).map fun r => (none, r.2)
  realloc : ∀ {s bs x b} grant junk n, file.Inv s bs → Live file.first bs x b → 0 < n →
    n < 2 ^ 31 → wp (file.allocator.realloc 1 grant junk (some (x + 1)) n) (fun _ s' =>
      (file.Moves b.size (getMallocSize n) →
        Lengthens file.first file.chunksize grant s bs n s'.brk) ∧
      (¬ file.Moves b.size (getMallocSize n) → s'.brk = s.brk)) s

namespace Implicit

variable {s : Segment} {bs pre post : Layout} {b : Block} {n : ℕ}

lemma malloc_lengthens (grant : Bool) (h : Inv s bs) (hpos : 0 < n) (hn : n ≤ 2 ^ 64 - 16) :
    wp (malloc 1 grant n) (fun _ s' => Lengthens 3 CHUNKSIZE grant s bs n s'.brk) s := by
  obtain ⟨b, hb, halloc, -, hlt, -⟩ := exists_block_of_le hn
  rw [malloc, if_neg hpos.ne']
  simp only [Lengthens]
  rw [← hb]
  have hbrk := h.tiles.brk
  refine wp_call (findFirstFit_spec h.tiles b.size) ?_
  rintro (_ | bp) s₁ ⟨rfl, hfit⟩
  · -- no block fits: the heap is extended by at least `CHUNKSIZE`
    let e := chunk b CHUNKSIZE (by decide)
    have hesize : e.size < 2 ^ 64 := max_lt hlt (by decide)
    refine wp_call (extendHeap_answers grant h.tiles h.coalesced (b := e) rfl hesize) ?_
    rintro _ s₂ (⟨rfl, rfl, hgrant⟩ | ⟨⟨bp, bs₂, rfl, hext⟩, hgrant⟩)
    · exact (wp_pure _ _ _).2 (.inr ⟨fun h => hgrant h.2, rfl⟩)
    · obtain ⟨y, m, rfl, hm, hfree, hsize⟩ := hext.block
      have hle : b.size ≤ m.size := (le_max_left _ _).trans hsize
      refine wp_call (place_spec hext.tiles hm hfree halloc hle) ?_
      rintro _ s₃ ⟨bs₃, d, hplaces⟩
      have hbrk₃ := hplaces.tiles.brk
      have hlen := hplaces.allocates.len_eq
      have hlen' := hext.len
      have he4 := e.four_words
      exact (wp_pure _ _ _).2 (.inl ⟨⟨hfit, hgrant⟩, show s₃.brk = s₁.brk + e.size by omega⟩)
  · obtain ⟨y, c, rfl, hc, hfree, hle⟩ := hfit
    refine wp_call (place_spec h.tiles hc hfree halloc hle) ?_
    rintro _ s₃ ⟨bs₃, d, hplaces⟩
    have hbrk₃ := hplaces.tiles.brk
    have hlen := hplaces.allocates.len_eq
    exact (wp_pure _ _ _).2 (.inr ⟨fun h => not_findsFit_none hc hfree hle h.1, by omega⟩)

lemma free_merges (h : Inv s (pre ++ b :: post)) :
    wp (free (some (3 + len pre + 1)))
      (fun _ s' => ∃ bs', Inv s' bs' ∧ Merges (pre ++ b.mark false :: post) bs') s := by
  have hmid : Tiles s (pre ++ [b] ++ post) := by simpa using h.tiles
  have hbrk := h.tiles.brk
  simp only [len_append, len_cons] at hbrk
  have htiles := hmid.retag (m := b.mark false) (by simp)
  simp only [free, getHeader, Nat.add_sub_cancel, bind_pure_comp]
  refine wp_call (P := fun _ s' => s' = s.retag (3 + len pre) (b.mark false))
    (wp_blockMark false h.tiles.word_header (by omega) rfl) ?_
  rintro _ s₁ rfl
  rw [wp_map]
  refine wp_mono (coalesce_spec htiles rfl h.coalesced.left h.coalesced.right.tail) ?_
  rintro r s₂ ⟨bs₂, hpost⟩
  obtain ⟨_, _, -, hm, -⟩ := hpost.block
  exact ⟨bs₂, inv_of_block hpost.tiles hpost.coalesced hm, hpost.merges⟩

theorem thrifty : Thrifty .implicit where
  malloc grant n h hpos hn := malloc_lengthens grant h hpos hn
  free h _ := free_merges h
  freeNull _ := rfl
  reallocZero grant junk p s := by
    simp only [File.allocator, allocator, realloc, reallocCopy, if_true, run_bind]
    cases (free p).run s <;> rfl
  realloc grant junk n h hx hpos hn := by
    refine wp_mono (reallocCopy_brk contract junk hx hpos (malloc_spec grant h hn)
      (malloc_lengthens grant h hpos (by omega))) ?_
    exact fun _ _ hlen => ⟨fun _ => hlen, fun hno => absurd (File.moves_of_ne (by decide)) hno⟩

end Implicit

namespace ListBased

variable {f : Format} {c : Code} {s s' : Segment} {bs pre post : Layout} {b : Block}
  {r : Option ℕ} {n chunksize : ℕ} {grant : Bool}

lemma Answers.lengthens (h : Answers f c chunksize grant s bs n r s') (hinv : Inv f s bs)
    (hsearch : wp (c.findFit (getMallocSize n))
      (fun r s' => s' = s ∧ FindsFit f.first bs (getMallocSize n) r) s) :
    Lengthens f.first chunksize grant s bs n s'.brk := by
  have hbrk := hinv.tiles.brk
  cases h with
  | refused _ hgrant => exact .inr ⟨fun h => hgrant h.2, rfl⟩
  | fit _ h =>
    have hbrk' := h.inv.tiles.brk
    have hlen := h.allocates.len_eq
    exact .inr ⟨fun hext => not_findsFit_of_allocates h.allocates h.size hext.1, by omega⟩
  | @grown _ _ _ e _ hfind hgrant _ _ hesize h =>
    have hbrk' := h.inv.tiles.brk
    have hlen := h.allocates.len_eq
    have he4 := e.four_words
    rw [len_append, len_cons, len_nil] at hlen
    exact .inl ⟨⟨(wp_elim hsearch hfind).2, hgrant⟩, by omega⟩

lemma free_merges (hc : Implements f c) (h : Inv f s (pre ++ b :: post)) (hb : b.alloc = true) :
    wp (freeWith c.coalesce (some (f.first + len pre + 1)))
      (fun _ s' => ∃ bs', Inv f s' bs' ∧ Merges (pre ++ b.mark false :: post) bs') s := by
  refine wp_mono (free_spec hc h hb) ?_
  rintro _ s' ⟨r, bs', hco⟩
  exact ⟨bs', hco.heap, hco.merges⟩

end ListBased

namespace Explicit

open ListBased

variable {s : Segment} {bs pre post : Layout} {b : Block} {n : ℕ}

lemma malloc_lengthens (grant : Bool) (h : Inv format s bs) (hpos : 0 < n)
    (hn : n ≤ 2 ^ 64 - 16) :
    wp (malloc 1 grant n) (fun _ s' => Lengthens 5 CHUNKSIZE grant s bs n s'.brk) s := by
  have hsearch := findFirstFit_spec h (getMallocSize n)
  refine wp_mono (ListBased.malloc_answers implements grant h hpos hn (by decide)
    (by decide) hsearch) ?_
  exact fun _ _ hr => hr.lengthens h hsearch

lemma free_merges (h : Inv format s (pre ++ b :: post)) (hb : b.alloc = true) :
    wp (free 1 (some (5 + len pre + 1)))
      (fun _ s' => ∃ bs', Inv format s' bs' ∧ Merges (pre ++ b.mark false :: post) bs') s :=
  ListBased.free_merges (f := format) (c := code) implements h hb

theorem thrifty : Thrifty .explicit where
  malloc grant n h hpos hn := malloc_lengthens grant h hpos hn
  free h hb := free_merges h hb
  freeNull _ := rfl
  reallocZero grant junk p s := coalescing.reallocZero grant junk p s
  realloc grant junk n h hx hpos hn := by
    refine wp_mono (reallocCopy_brk contract junk hx hpos (malloc_mallocs grant h (by omega))
      (malloc_lengthens grant h hpos (by omega))) ?_
    exact fun _ _ hlen => ⟨fun _ => hlen, fun hno => absurd (File.moves_of_ne (by decide)) hno⟩

end Explicit

namespace Seglist

open ListBased

variable {s : Segment} {bs pre post : Layout} {b d : Block} {n x : ℕ}

lemma malloc_lengthens (grant : Bool) (h : Inv format s bs) (hpos : 0 < n)
    (hn : n ≤ 2 ^ 64 - 16) :
    wp (malloc 1 grant n) (fun _ s' => Lengthens 13 CHUNKSIZE grant s bs n s'.brk) s :=
  wp_mono (malloc_answers grant h hpos hn)
    fun _ _ hr => hr.lengthens h (findFit_finds h (getMallocSize n))

lemma realloc_lengthens (grant : Bool) (junk : ℕ → UInt8) (h : Inv format s bs)
    (hx : Live 13 bs x d) (hpos : 0 < n) (hn : n < 2 ^ 31) :
    wp (realloc 1 grant junk (some (x + 1)) n) (fun _ s' =>
      (moves d.size (getMallocSize n) → Lengthens 13 CHUNKSIZE grant s bs n s'.brk) ∧
        (¬ moves d.size (getMallocSize n) → s'.brk = s.brk)) s := by
  by_cases hsize : getMallocSize n = d.size
  · refine wp_mono (realloc_same grant junk h hx hpos hsize) ?_
    rintro _ _ ⟨-, rfl⟩
    exact ⟨fun hm => absurd hsize hm.1, fun _ => rfl⟩
  by_cases hshrinks : shrinks d.size (getMallocSize n)
  · refine wp_mono (realloc_shrinks grant junk h hx hpos (by omega)
      (le_of_shrinks (size_lt h hx.1) (getMallocSize_lt_of_lt hn) hshrinks) hshrinks) ?_
    rintro _ s' ⟨-, pre, post, b, e, r, bs', rfl, -, -, -, hlen, -, hpost⟩
    refine ⟨fun hm => absurd hshrinks hm.2, fun _ => ?_⟩
    have hbrk := h.tiles.brk
    have hbrk' := hpost.heap.tiles.brk
    have hlen' := hpost.merges.len_eq
    simp only [len_append, len_cons, len_nil] at hbrk hlen'
    omega
  · have hmoves : moves d.size (getMallocSize n) := ⟨hsize, hshrinks⟩
    obtain ⟨r, s₁, hrun, h₁⟩ := malloc_mallocs grant h (show n ≤ 2 ^ 64 - 16 by omega)
    have hlen := wp_elim (malloc_lengthens grant h hpos (by omega)) hrun
    refine realloc_move grant junk h hx hpos hsize hshrinks ⟨r, s₁, hrun, ?_⟩ ⟨r, s₁, hrun, ?_⟩
    · rintro q rfl
      refine wp_mono (copyFree_brk contract junk hx le_rfl h₁) fun _ s' hbrk => ?_
      rw [hbrk]
      exact ⟨fun _ => hlen, fun hno => absurd hmoves hno⟩
    · exact fun _ => ⟨fun _ => hlen, fun hno => absurd hmoves hno⟩

lemma free_merges (h : Inv format s (pre ++ b :: post)) (hb : b.alloc = true) :
    wp (free 1 (some (13 + len pre + 1)))
      (fun _ s' => ∃ bs', Inv format s' bs' ∧ Merges (pre ++ b.mark false :: post) bs') s :=
  ListBased.free_merges (f := format) (c := code) implements h hb

theorem thrifty : Thrifty .seglist where
  malloc grant n h hpos hn := malloc_lengthens grant h hpos hn
  free h hb := free_merges h hb
  freeNull _ := rfl
  reallocZero grant junk p s := coalescing.reallocZero grant junk p s
  realloc grant junk n h hx hpos hn := by
    refine wp_mono (realloc_lengthens grant junk h hx hpos hn) fun _ _ hr => ?_
    exact ⟨fun hm => hr.1 (hm rfl), fun hno => hr.2 fun hm => hno fun _ => hm⟩

end Seglist

theorem thrifty (file : File) : Thrifty file :=
  match file with
  | .implicit => Implicit.thrifty
  | .explicit => Explicit.thrifty
  | .seglist => Seglist.thrifty

/-! ## One call -/

namespace File

variable {file : File} {cap : ℕ} {s s' : State} {bs : Layout} {n brk : ℕ} {grant : Bool}
  {env : Env} {call : Call ℕ} {r : Option ℕ}

/-- The heap has `brk` bytes after the call: it is longer by what is allocated or by `CHUNKSIZE` if
the call makes it longer, and as long as before otherwise. -/
def Lengthened (file : File) (grant : Bool) (s : State) (call : Call ℕ) (brk : ℕ) : Prop :=
  (∃ n, file.Asks s n call ∧ file.Extends grant s.seg n ∧
      brk = s.seg.brk + max (getMallocSize n) file.chunksize) ∨
    (∀ n, file.Asks s n call → ¬ file.Extends grant s.seg n) ∧ brk = s.seg.brk

lemma lengthened_asks (h : file.Inv s.seg bs) (hpos : 0 < n)
    (hasks : ∀ k, file.Asks s k call ↔ n = k)
    (hlen : Lengthens file.first file.chunksize grant s.seg bs n brk) :
    file.Lengthened grant s call brk := by
  have hext : file.Extends grant s.seg n ↔ FindsFit file.first bs (getMallocSize n) none ∧
      Grants grant s.seg (max (getMallocSize n) file.chunksize) := by
    rw [Extends, (wideContract file).fits_iff h, and_iff_right hpos]
  rw [Lengthens, ← hext] at hlen
  rcases hlen with ⟨hgrows, hbrk⟩ | ⟨hno, hbrk⟩
  · exact .inl ⟨n, (hasks n).2 rfl, hgrows, hbrk⟩
  · exact .inr ⟨fun k hk => (hasks k).1 hk ▸ hno, hbrk⟩

/-- A request for no bytes makes nothing longer. -/
lemma lengthened_zero (hasks : ∀ k, file.Asks s k call → 0 = k) :
    file.Lengthened grant s call s.seg.brk :=
  .inr ⟨fun k hk hext => hext.1.ne (hasks k hk), rfl⟩

lemma lengthened_none (hasks : ∀ k, ¬ file.Asks s k call) :
    file.Lengthened grant s call s.seg.brk :=
  .inr ⟨fun k hk => absurd hk (hasks k), rfl⟩

/-- A `realloc` to some bytes. -/
lemma lengthened_realloc (h : Runs file.first file.Inv s bs) {p : ℕ} (hpos : 0 < n)
    (hp : (s.live p).isSome) (hn : n < 2 ^ 31)
    (hserve : serve file.allocator env s (.realloc (some p) n) = some (r, s')) :
    file.Lengthened env.grant s (.realloc (some p) n) s'.seg.brk := by
  obtain ⟨x, b, rfl, hx⟩ := h.exists_live hp
  have hsize := blockSize_of_tag (file.contract.tagged h.inv x b hx.1).1
  obtain ⟨r', seg, hrun, hmoves, hstays⟩ :=
    (thrifty file).realloc env.grant env.junk n h.inv hx hpos hn
  rw [serve, h.heapPtr, hrun] at hserve
  cases hserve
  by_cases hm : file.Moves b.size (getMallocSize n)
  · refine lengthened_asks h.inv hpos (fun k => ?_) (hmoves hm)
    rw [Asks, hsize, and_iff_left hm]
  · rw [hstays hm]
    refine lengthened_none fun k hk => hm ?_
    rw [← hsize]
    exact hk.2

/-- One call. -/
theorem lengthened_serve (h : Runs file.first file.Inv s bs) (hcall : Legal s call)
    (hserve : serve file.allocator env s call = some (r, s')) :
    file.Lengthened env.grant s call s'.seg.brk := by
  have hA := wideContract file
  have hfree : ∀ {p seg}, (∀ q ∈ p, (s.live q).isSome) →
      (file.allocator.free s.heapPtr p).run s.seg = some ((), seg) → seg.brk = s.seg.brk := by
    intro p seg hp hrun
    cases p with
    | none =>
      rw [h.heapPtr, (thrifty file).freeNull] at hrun
      cases hrun
      rfl
    | some p =>
      obtain ⟨t, _, hserve, -, -, hbrk⟩ := file.contract.serve_free h env (hp p rfl)
      rw [serve, hrun] at hserve
      cases hserve
      exact hbrk
  cases call with
  | malloc n =>
    rcases Nat.eq_zero_or_pos n with rfl | hpos
    · rw [serve, h.heapPtr, hA.mallocZero] at hserve
      cases hserve
      exact lengthened_zero fun k hk => hk
    · obtain ⟨r', seg, hrun, hlen⟩ := (thrifty file).malloc env.grant n h.inv hpos
        (by have : n < 2 ^ 31 := hcall; omega)
      rw [serve, h.heapPtr, hrun] at hserve
      cases hserve
      exact lengthened_asks h.inv hpos (fun k => Iff.rfl) hlen
  | free p =>
    obtain ⟨⟨_, seg⟩, hrun, ⟨⟩⟩ := Option.map_eq_some_iff.1 hserve
    show file.Lengthened env.grant s (.free p) seg.brk
    rw [hfree hcall hrun]
    exact lengthened_none fun k hk => hk
  | realloc p n =>
    obtain ⟨hp, hn⟩ := hcall
    rcases Nat.eq_zero_or_pos n with rfl | hpos
    · -- `realloc` to no bytes is `free`
      obtain ⟨⟨r', seg⟩, hrun, ⟨⟩⟩ := Option.map_eq_some_iff.1 hserve
      rw [h.heapPtr, (thrifty file).reallocZero] at hrun
      obtain ⟨⟨_, seg'⟩, hrun', ⟨⟩⟩ := Option.map_eq_some_iff.1 hrun
      show file.Lengthened env.grant s (.realloc p 0) seg'.brk
      rw [hfree hp (h.heapPtr ▸ hrun')]
      cases p with
      | none => exact lengthened_zero fun k hk => hk
      | some p => exact lengthened_zero fun k hk => hk.1
    · cases p with
      | some p => exact lengthened_realloc h hpos (hp p rfl) hn hserve
      | none =>
        obtain ⟨r', seg, hrun, hlen⟩ := (thrifty file).malloc env.grant n h.inv hpos (by omega)
        rw [← hA.reallocNull env.grant env.junk n hpos] at hrun
        rw [serve, h.heapPtr, hrun] at hserve
        cases hserve
        exact lengthened_asks h.inv hpos (fun k => Iff.rfl) hlen
  | write p i v =>
    cases hserve
    exact lengthened_none fun k hk => hk

/-- In every run, a call makes the heap longer exactly if it comes to a `malloc` for which no free
block is large enough and memlib serves, and then by the size of the block or by `CHUNKSIZE`. No
call makes it shorter. -/
theorem heap_growth (file : File) {cap : ℕ} (hcap : cap ≤ 2 ^ 32) {s : State}
    (hs : Reachable file.allocator cap Legal s) {env : Env} {call : Call ℕ} {r : Option ℕ}
    {s' : State} (hcall : Legal s call)
    (hserve : serve file.allocator env s call = some (r, s')) :
    file.Lengthened env.grant s call s'.seg.brk := by
  obtain ⟨bs, hruns⟩ := file.contract.runs_of_reachable hcap (fun _ _ h => h) hs
  exact lengthened_serve hruns hcall hserve

/-- No free block of the fresh heap is large enough. -/
theorem heap_growth_fresh : seglist.Lengthened true seglist.fresh (.malloc 300)
    ((serve seglist.allocator ⟨true, fun _ => 0⟩ seglist.fresh (.malloc 300)).get
      (by decide +kernel)).2.seg.brk := by
  have hsome : (serve seglist.allocator ⟨true, fun _ => 0⟩ seglist.fresh (.malloc 300)).isSome := by
    decide +kernel
  exact heap_growth seglist (by norm_num) (reachable_after _) (by decide)
    (Option.some_get hsome).symm

/-! ## Memory that has been freed -/

/-- The call allocates nothing. -/
def Releases : Call ℕ → Prop
  | .free _ | .write _ _ _ => True
  | .realloc _ n => n = 0
  | .malloc _ => False

/-- Whatever was asked for a block fits it. -/
lemma getMallocSize_le_size {b : Block} (h : n + 8 ≤ b.size) (hlt : b.size < 2 ^ 32) :
    getMallocSize n ≤ b.size := by
  have hdvd := b.dvd
  have hle := b.le
  by_cases hn : n ≤ 8
  · simpa [getMallocSize, DSIZE, hn] using hle
  · simp only [getMallocSize, DSIZE, hn, if_false, szMul, szAdd]
    omega

lemma exists_of_fits {seg : Segment} {k : ℕ} (h : file.Inv seg bs) (hfits : file.Fits seg k) :
    ∃ x c, At file.first bs x c ∧ c.alloc = false ∧ k ≤ c.size := by
  by_contra hno
  refine ((wideContract file).fits_iff h k).2 (fun x c hx hfree => ?_) hfits
  exact not_le.1 fun hle => hno ⟨x, c, hx, hfree, hle⟩

/-- A block is part of a free one after it has been freed, and so is every free block. -/
lemma free_fits {seg : Segment} {x : ℕ} {b : Block} (h : file.Inv seg bs)
    (hx : Live file.first bs x b) :
    wp (file.allocator.free 1 (some (x + 1)))
      (fun _ t => ∀ k, k ≤ b.size ∨ file.Fits seg k → file.Fits t k) seg := by
  obtain ⟨pre, post, rfl, rfl⟩ := at_iff_split.1 hx.1
  refine wp_mono ((thrifty file).free h hx.2) ?_
  rintro _ t ⟨bs', hinv, hmerges⟩ k hk
  have hfree : ∃ y c, At file.first (pre ++ b.mark false :: post) y c ∧ c.alloc = false ∧
      k ≤ c.size := by
    rcases hk with hk | hk
    · exact ⟨file.first + len pre, b.mark false, by simp, rfl, hk⟩
    · obtain ⟨y, c, hy, hc, hle⟩ := exists_of_fits h hk
      refine ⟨y, c, ?_, hc, hle⟩
      -- the block that is freed was allocated, so it is not the free one
      simp only [at_append, at_cons, Block.mark_words] at hy ⊢
      rcases hy with hy | ⟨-, rfl⟩ | hy
      · exact .inl hy
      · rw [hx.2] at hc
        cases hc
      · exact .inr (.inr hy)
  obtain ⟨y, c, hy, hc, hle⟩ := hfree
  obtain ⟨z, d, hz, hd, hcd⟩ := hmerges.exists_free hy hc
  exact ⟨bs', z, d, (wideContract file).tiled hinv, hz, hd, hle.trans hcd⟩

lemma fits_free {seg : Segment} {p : Option ℕ} (h : Runs file.first file.Inv s bs)
    (hp : ∀ q ∈ p, (s.live q).isSome)
    (hrun : (file.allocator.free s.heapPtr p).run s.seg = some ((), seg)) {k : ℕ}
    (hk : file.Fits s.seg k) : file.Fits seg k := by
  rw [h.heapPtr] at hrun
  cases p with
  | none =>
    rw [(thrifty file).freeNull] at hrun
    cases hrun
    exact hk
  | some p =>
    obtain ⟨x, b, rfl, hx⟩ := h.exists_live (hp p rfl)
    exact wp_elim (free_fits h.inv hx) hrun k (.inr hk)

/-- What is free stays free while nothing is allocated. -/
lemma fits_serve (h : Runs file.first file.Inv s bs) (hcall : Legal s call) (hrel : Releases call)
    (hserve : serve file.allocator env s call = some (r, s')) {k : ℕ} (hk : file.Fits s.seg k) :
    file.Fits s'.seg k := by
  cases call with
  | malloc n => exact absurd hrel id
  | free p =>
    obtain ⟨⟨_, seg⟩, hrun, ⟨⟩⟩ := Option.map_eq_some_iff.1 hserve
    exact fits_free h hcall hrun hk
  | realloc p n =>
    obtain rfl : n = 0 := hrel
    obtain ⟨⟨r', seg⟩, hrun, ⟨⟩⟩ := Option.map_eq_some_iff.1 hserve
    rw [h.heapPtr, (thrifty file).reallocZero] at hrun
    obtain ⟨⟨_, seg'⟩, hrun', ⟨⟩⟩ := Option.map_eq_some_iff.1 hrun
    exact fits_free h hcall.1 (h.heapPtr ▸ hrun') hk
  | write p i v =>
    obtain ⟨n, hn, hi⟩ := hcall
    obtain ⟨hruns, -⟩ := file.contract.write_step h 0 v hn hi
    obtain ⟨x, c, hx, hc, hle⟩ := exists_of_fits h.inv hk
    cases hserve
    exact ⟨bs, x, c, (wideContract file).tiled hruns.inv, hx, hc, hle⟩

lemma brk_serve (h : Runs file.first file.Inv s bs) (hcall : Legal s call) (hrel : Releases call)
    (hserve : serve file.allocator env s call = some (r, s')) : s'.seg.brk = s.seg.brk := by
  have hno : ∀ n, file.Asks s n call → ¬ file.Extends env.grant s.seg n := by
    intro n hasks hext
    have hpos := hext.1
    cases call with
    | malloc k => exact hrel
    | free p => exact hasks
    | write p i v => exact hasks
    | realloc p k =>
      obtain rfl : k = 0 := hrel
      cases p with
      | none => exact hpos.ne hasks
      | some p => exact hpos.ne hasks.1
  rcases lengthened_serve h hcall hserve with ⟨n, hasks, hext, -⟩ | ⟨-, hbrk⟩
  · exact absurd hext (hno n hasks)
  · exact hbrk

lemma serveAll_releases {calls : List (Call ℕ)} (h : Runs file.first file.Inv s bs)
    (hrel : ∀ call ∈ calls, Releases call)
    (hrun : serveAll file.allocator env s calls = some s') :
    (∃ bs', Runs file.first file.Inv s' bs') ∧ (∀ k, file.Fits s.seg k → file.Fits s'.seg k) ∧
      s'.seg.brk = s.seg.brk := by
  induction calls generalizing s bs with
  | nil =>
    cases hrun
    exact ⟨⟨bs, h⟩, fun _ hk => hk, rfl⟩
  | cons call calls ih =>
    rw [serveAll] at hrun
    split at hrun
    · next hcall =>
      obtain ⟨r, s₁, bs₁, hserve, hruns, -⟩ := file.contract.serve_spec h (dvd_zero 8) env hcall
      rw [hserve] at hrun
      obtain ⟨hrel, hrest⟩ := List.forall_mem_cons.1 hrel
      obtain ⟨hruns', hfits, hbrk⟩ := ih hruns hrest hrun
      exact ⟨hruns', fun k hk => hfits k (fits_serve h hcall hrel hserve hk),
        hbrk.trans (brk_serve h hcall hrel hserve)⟩
    · cases hrun

/-- A block that has been freed can be had again: until something is allocated, a request for no
more bytes is served, even if memlib serves nothing, and the heap does not grow for it. -/
theorem freed_memory_reusable (file : File) {cap : ℕ} (hcap : cap ≤ 2 ^ 32) {s s₁ s₂ : State}
    (hs : Reachable file.allocator cap Legal s) {p n : ℕ} (hp : s.live p = some n) {env : Env}
    {r : Option ℕ} (hfree : serve file.allocator env s (.free (some p)) = some (r, s₁))
    {calls : List (Call ℕ)} (hrel : ∀ call ∈ calls, Releases call)
    (hrun : serveAll file.allocator env s₁ calls = some s₂) {m : ℕ} (hpos : 0 < m) (hm : m ≤ n)
    (env' : Env) :
    ∃ q s₃, serve file.allocator env' s₂ (.malloc m) = some (some q, s₃) ∧
      s₃.seg.brk = s.seg.brk := by
  obtain ⟨bs, hruns⟩ := file.contract.runs_of_reachable hcap (fun _ _ h => h) hs
  obtain ⟨x, b, rfl, hx, hsize⟩ := hruns.block p n hp
  have hlt := ((wideContract file).tiled hruns.inv).size_lt hx.1
  have hlegal : Legal s (.free (some (x + 1))) := by
    rintro q ⟨⟩
    rw [hp]
    rfl
  -- the block is part of a free one, and stays so
  obtain ⟨r₁, s₁', bs₁, hserve, hruns₁, -⟩ :=
    file.contract.serve_spec hruns (dvd_zero 8) env hlegal
  rw [hfree] at hserve
  cases hserve
  have hfits₁ : file.Fits s₁.seg (getMallocSize m) := by
    obtain ⟨⟨_, seg⟩, hseg, ⟨⟩⟩ := Option.map_eq_some_iff.1 hfree
    rw [hruns.heapPtr] at hseg
    exact wp_elim (free_fits hruns.inv hx) hseg _ (.inl (getMallocSize_le_size (by omega) hlt))
  obtain ⟨⟨bs₂, hruns₂⟩, hfits₂, hbrk₂⟩ := serveAll_releases hruns₁ hrel hrun
  have hbrk₁ : s₁.seg.brk = s.seg.brk := brk_serve hruns hlegal trivial hfree
  -- `malloc` finds it
  obtain ⟨q, seg, hmalloc, hlen⟩ :=
    (thrifty file).malloc env'.grant m hruns₂.inv hpos (by omega)
  have hfits := hfits₂ _ hfits₁
  cases q with
  | none =>
    obtain ⟨-, hfull⟩ := ((wideContract file).malloc_none_iff hruns₂.inv hpos).1 hmalloc
    exact absurd hfits hfull.1
  | some q =>
    refine ⟨q, _, by rw [serve, hruns₂.heapPtr, hmalloc]; rfl, ?_⟩
    have hno : ¬ FindsFit file.first bs₂ (getMallocSize m) none :=
      fun hnone => ((wideContract file).fits_iff hruns₂.inv _).2 hnone hfits
    have hbrk : seg.brk = s₂.seg.brk := (hlen.resolve_left fun h => hno h.1.1).2
    exact hbrk.trans (hbrk₂.trans hbrk₁)

/-- What is done after a block of 200 bytes has been freed, with a memlib that serves nothing. -/
theorem freed_memory_reusable_sample : ∃ r s₁ s₂ q s₃,
    serve explicit.allocator ⟨false, fun _ => 0⟩ Explicit.sample (.free (some 34)) =
      some (r, s₁) ∧
    serveAll explicit.allocator ⟨false, fun _ => 0⟩ s₁ [.free (some 164)] = some s₂ ∧
    serve explicit.allocator ⟨false, fun _ => 0⟩ s₂ (.malloc 150) = some (some q, s₃) ∧
      s₃.seg.brk = Explicit.sample.seg.brk := by
  have hsome : ((serve explicit.allocator ⟨false, fun _ => 0⟩ Explicit.sample
      (.free (some 34))).bind fun r =>
        serveAll explicit.allocator ⟨false, fun _ => 0⟩ r.2 [.free (some 164)]).isSome := by
    decide +kernel
  obtain ⟨s₂, hbind⟩ := Option.isSome_iff_exists.1 hsome
  obtain ⟨⟨r, s₁⟩, hfree, hrest⟩ := Option.bind_eq_some_iff.1 hbind
  have hp : Explicit.sample.live 34 = some 200 := by decide +kernel
  obtain ⟨q, s₃, hmalloc, hbrk⟩ := freed_memory_reusable explicit (by norm_num)
    Explicit.reachable_sample hp hfree (by simp [Releases]) hrest (show 0 < 150 by norm_num)
    (by norm_num) ⟨false, fun _ => 0⟩
  exact ⟨r, s₁, s₂, q, s₃, hfree, hrest, hmalloc, hbrk⟩

end File

end Malloclab
end SystemsLabs
