import SystemsLabs.Malloclab.AnySize

/-!
# What becomes of a request of any size

For each of the three files, `malloc` honours a request exactly when its rounding does not wrap or
there is no room anyway, and `calloc` delivers exactly when the product does not wrap and there is
room for it. `realloc` of `mm-seglist.c` goes wrong exactly when it takes a larger size for a
smaller one.
-/

namespace SystemsLabs
namespace Malloclab

open Memory Layout SystemsLabs.Runs

/-- The invariant of a file's heap. -/
def File.Inv : File → Segment → Layout → Prop
  | .implicit => Implicit.Inv
  | .explicit => ListBased.Inv Explicit.format
  | .seglist => ListBased.Inv Seglist.format

namespace Implicit

theorem wideContract : WideContract .implicit Inv where
  contract := contract
  tiled {s bs} h := by
    refine ⟨?_, h.tiles.tags⟩
    have hbrk := h.tiles.brk
    simp only [File.first, File.behind]
    omega
  mallocZero grant s := rfl
  malloc grant n h hn := malloc_mallocs grant h hn
  mallocNone grant n h hpos := malloc_eq_none_iff grant h hpos
  reallocNull grant junk n hpos := by simp [File.allocator, allocator, realloc, reallocCopy, hpos.ne']
  realloc grant junk n h hx hpos _ hres hmalloc :=
    reallocCopy_spec (fun h => h.tiles.tags) (fun h => by have := h.tiles.brk; simp only [File.first]; omega)
      (fun h hx hsame => ⟨h.tiles.write hx.1 hsame, h.coalesced, h.pos⟩) (hmalloc hres) free_spec
      junk hx hpos

end Implicit

namespace Explicit

theorem wideContract : WideContract .explicit (ListBased.Inv format) where
  contract := contract
  tiled h := ⟨h.tiles.brk, h.tiles.tags⟩
  mallocZero grant s := rfl
  malloc grant n h hn := malloc_mallocs grant h hn
  mallocNone grant n h hpos := malloc_eq_none_iff grant h hpos
  reallocNull grant junk n hpos := by simp [File.allocator, allocator, realloc, reallocCopy, hpos.ne']
  realloc grant junk n h hx hpos _ hres hmalloc :=
    reallocCopy_spec (fun h => h.tiles.tags) (fun h => h.tiles.brk.ge)
      (fun h hx hsame => h.write hx hsame) (hmalloc hres) free_frees junk hx hpos

end Explicit

namespace Seglist

open ListBased in
theorem wideContract : WideContract .seglist (ListBased.Inv format) where
  contract := contract
  tiled h := ⟨h.tiles.brk, h.tiles.tags⟩
  mallocZero grant s := rfl
  malloc grant n h hn := malloc_mallocs grant h hn
  mallocNone grant n h hpos := malloc_eq_none_iff grant h hpos
  reallocNull grant junk n hpos := by simp [File.allocator, allocator, realloc, hpos.ne']
  realloc {s bs x d} grant junk n h hx hpos hn hres hmalloc := by
    rw [File.Resizes, blockSize_of_tag (h.inv.tiles.tags x d hx.1).1] at hres
    split at hres
    · exact realloc_reallocs grant junk h.inv hx hpos hres.1 fun _ => hres.2
    · next hshrinks =>
      by_cases hle : n ≤ 2 ^ 64 - 16
      · exact realloc_reallocs grant junk h.inv hx hpos hle fun hs => absurd hs hshrinks
      -- the size has become smaller than any block
      · have hlt := getMallocSize_lt (by omega) hn
        have hge := d.le
        exact realloc_moves grant junk h.inv hx hpos (by omega) hshrinks (hmalloc hres)

end Seglist

theorem wideContract (file : File) : WideContract file file.Inv :=
  match file with
  | .implicit => Implicit.wideContract
  | .explicit => Explicit.wideContract
  | .seglist => Seglist.wideContract

namespace File

variable {file : File} {cap : ℕ} {s : State} {n : ℕ}

/-- The functions of each file keep the contract. -/
lemma contract (file : File) : Contract file.allocator file.first file.Inv :=
  (wideContract file).contract

/-- The code gets through every call of a client that asks for less than `2 ^ 31` bytes. -/
lemma sound_of_legal {bs : Layout} (h : Runs file.first file.Inv s bs) (env : Env) {call : Call ℕ}
    (hcall : Legal s call) : file.Sound s (env, .call call) := by
  have hrounds : ∀ {n}, n < 2 ^ 31 → file.Rounds env.grant s.seg n := fun hn => .inl (by omega)
  cases call with
  | malloc n => exact hrounds hcall
  | free p => trivial
  | write p i v => trivial
  | realloc p n =>
    obtain ⟨hp, hn⟩ := hcall
    cases p with
    | none => exact hrounds hn
    | some p =>
      right
      cases file with
      | implicit => exact hrounds hn
      | explicit => exact hrounds hn
      | seglist =>
        rw [Resizes]
        split
        · next hshrinks =>
          obtain ⟨x, d, rfl, hx⟩ := h.exists_live (hp p rfl)
          rw [blockSize_of_tag (h.inv.tiles.tags x d hx.1).1] at hshrinks ⊢
          exact ⟨by omega, Seglist.le_of_shrinks (Seglist.size_lt h.inv hx.1)
            (getMallocSize_lt_of_lt hn) hshrinks⟩
        · exact hrounds hn

/-- The runs of small requests are among those of requests of any size. -/
theorem reached_of_reachable (hcap : cap ≤ 2 ^ 32) (hs : Reachable file.allocator cap Legal s) :
    file.Reached cap s := by
  induction hs with
  | init h => exact ⟨_, ⟨_, _, _, _, _, h, rfl⟩, Reaches.refl _⟩
  | @step s env call r s' hs hcall h ih =>
    obtain ⟨bs, hruns⟩ := file.contract.runs_of_reachable hcap (fun _ _ h => h) hs
    obtain ⟨s₀, hs₀, hreach⟩ := ih
    refine ⟨s₀, hs₀, hreach.tail (e := (env, .call call)) ⟨?_, sound_of_legal hruns env hcall⟩ ?_⟩
    · cases call with
      | malloc n => exact lt_trans hcall (by norm_num)
      | realloc p n => exact ⟨hcall.1, hcall.2.trans (by norm_num)⟩
      | free p => exact hcall
      | write p i v => exact hcall
    · show (serve file.allocator env s call).map Prod.snd = some s'
      rw [h]
      rfl

/-- A header has 32 bits. -/
lemma Tiled.size_lt {seg : Segment} {bs : Layout} (h : file.Tiled seg bs) {x : ℕ} {b : Block}
    (hx : At file.first bs x b) : b.size < 2 ^ 32 := by
  have htag := (h.2 x b hx).1
  have hlt := seg.word_lt x
  unfold Block.tag at htag
  omega

/-! ## `malloc` -/

/-- `malloc(n)` returns `NULL` and changes nothing, or it returns a block that has room for `n`
bytes, in a heap that is tiled by blocks. -/
def Honours (file : File) (grant : Bool) (s : State) (n : ℕ) : Prop :=
  ∃ r seg, (file.allocator.malloc s.heapPtr grant n).run s.seg = some (r, seg) ∧
    (r = none → seg = s.seg) ∧
    ∀ p, r = some p → ∃ bs x b, file.Tiled seg bs ∧ p = x + 1 ∧ Live file.first bs x b ∧
      n + 8 ≤ b.size

/-- No heap has a block for a request so large that its size wraps. -/
lemma Honours.run {grant : Bool} (h : file.Honours grant s n) (hn : 2 ^ 64 - 16 < n) :
    (file.allocator.malloc s.heapPtr grant n).run s.seg = some (none, s.seg) := by
  obtain ⟨r, seg, hrun, hnone, hsome⟩ := h
  cases r with
  | none => rw [hrun, hnone rfl]
  | some p =>
    obtain ⟨bs, x, b, htiled, -, hx, hsize⟩ := hsome p rfl
    have hlt := htiled.size_lt hx.1
    omega

/-- `malloc` honours exactly the requests whose size does not wrap, and those for which there is
no room anyway. -/
theorem malloc_honours_iff (file : File) {cap : ℕ} (hcap : cap ≤ 2 ^ 32) {s : State}
    (hs : file.Reached cap s) (grant : Bool) {n : ℕ} (hpos : 0 < n) :
    file.Honours grant s n ↔ file.Rounds grant s.seg n := by
  obtain ⟨bs, hruns⟩ := (wideContract file).runs_of_reached hcap hs
  constructor
  · intro h
    by_contra hno
    obtain ⟨hn, hfull⟩ := not_or.1 hno
    have hrun := h.run (not_le.1 hn)
    rw [hruns.heapPtr] at hrun
    exact hfull (((wideContract file).malloc_none_iff hruns.inv hpos).1 hrun).2
  · intro h
    obtain ⟨r, seg, hrun, hr⟩ := (wideContract file).malloc_mallocs hruns.inv h
    refine ⟨r, seg, hruns.heapPtr ▸ hrun, ?_, ?_⟩
    · rintro rfl
      exact hr
    · rintro p rfl
      exact (wideContract file).exists_block hr

/-- A heap of a file with no block allocated. -/
def fresh (file : File) : State :=
  (after file.allocator (2 ^ 14) []).get (by cases file <;> decide +kernel)

lemma reached_fresh (file : File) : file.Reached (2 ^ 14) file.fresh :=
  reached_of_reachable (by norm_num) (reachable_after _)

theorem malloc_honours_iff_fresh : seglist.Honours true seglist.fresh 100 ↔
    seglist.Rounds true seglist.fresh.seg 100 :=
  malloc_honours_iff seglist (by norm_num) (reached_fresh seglist) true (by norm_num)

/-- `malloc(n)` returns a pointer. -/
def Returns (file : File) (grant : Bool) (s : State) (n : ℕ) : Prop :=
  (((file.allocator.malloc s.heapPtr grant n).run s.seg).bind Prod.fst).isSome

instance (grant : Bool) (s : State) (n : ℕ) : Decidable (file.Returns grant s n) :=
  inferInstanceAs (Decidable (_ = true))

lemma Returns.not_honours {grant : Bool} (h : file.Returns grant s n) (hn : 2 ^ 64 - 16 < n) :
    ¬ file.Honours grant s n := by
  intro hhonours
  rw [Returns, hhonours.run hn] at h
  cases h

/-- Asked for `2 ^ 64 - 1` bytes, all three return a block of the fresh heap. -/
theorem not_honours :
    (implicit.Reached (2 ^ 14) implicit.fresh ∧
      ¬ implicit.Honours true implicit.fresh (2 ^ 64 - 1)) ∧
    (explicit.Reached (2 ^ 14) explicit.fresh ∧
      ¬ explicit.Honours true explicit.fresh (2 ^ 64 - 1)) ∧
    seglist.Reached (2 ^ 14) seglist.fresh ∧
      ¬ seglist.Honours true seglist.fresh (2 ^ 64 - 1) := by
  have hn : 2 ^ 64 - 16 < 2 ^ 64 - 1 := by norm_num
  refine ⟨⟨reached_fresh _, ?_⟩, ⟨reached_fresh _, ?_⟩, reached_fresh _, ?_⟩
  · have h : implicit.Returns true implicit.fresh (2 ^ 64 - 1) := by decide +kernel
    exact h.not_honours hn
  · have h : explicit.Returns true explicit.fresh (2 ^ 64 - 1) := by decide +kernel
    exact h.not_honours hn
  · have h : seglist.Returns true seglist.fresh (2 ^ 64 - 1) := by decide +kernel
    exact h.not_honours hn

/-! ## `calloc` -/

/-- `calloc(nmemb, size)` returns `NULL` and changes nothing, or it returns a block that was not
live, has room for `nmemb * size` bytes, all zero, and leaves the live payloads alone. -/
def Delivers (file : File) (grant : Bool) (s : State) (nmemb size : ℕ) : Prop :=
  ∃ r seg, (file.calloc s.heapPtr grant nmemb size).run s.seg = some (r, seg) ∧
    (r = none → seg = s.seg) ∧
    ∀ p, r = some p →
      (∃ bs x b, file.Tiled seg bs ∧ p = x + 1 ∧ Live file.first bs x b ∧
        nmemb * size + 8 ≤ b.size) ∧
      s.live p = none ∧ (∀ i < nmemb * size, seg.bytes (WSIZE * p + i) = 0) ∧
      ∀ q, (s.live q).isSome → State.payload { s with seg := seg } q = s.payload q

/-- A request for some bytes is delivered only if the product does not wrap and `malloc` returns
a pointer. -/
lemma Delivers.returns {grant : Bool} {nmemb size : ℕ} (h : file.Delivers grant s nmemb size)
    (hne : szMul nmemb size ≠ 0) :
    nmemb * size < 2 ^ 32 ∧ file.Returns grant s (nmemb * size) := by
  obtain ⟨r, seg, hrun, -, hsome⟩ := h
  rw [file.calloc_eq, callocWith, run_eq_some_iff, wp_bind] at hrun
  obtain ⟨r₁, s₁, hmalloc, hrun⟩ := hrun
  cases r₁ with
  | none =>
    -- the bytes would be set through `NULL`
    simp only [memset, hne, if_false, wp_bind] at hrun
    exact absurd hrun (wp_stuck _ _)
  | some p =>
    simp only [memset, wp_bind, wp_fill, wp_pure] at hrun
    obtain ⟨-, rfl, -⟩ := hrun
    obtain ⟨⟨bs, x, b, htiled, -, hx, hroom⟩, -⟩ := hsome p rfl
    have hlt := htiled.size_lt hx.1
    have hmul : szMul nmemb size = nmemb * size := szMul_eq (by omega)
    refine ⟨by omega, ?_⟩
    rw [← hmul, Returns, hmalloc]
    rfl

/-- `calloc` delivers exactly when the product does not wrap and there is room for it, or when
nothing is left of the product. -/
theorem calloc_delivers_iff (file : File) {cap : ℕ} (hcap : cap ≤ 2 ^ 32) {s : State}
    (hs : file.Reached cap s) (grant : Bool) (nmemb size : ℕ) :
    file.Delivers grant s nmemb size ↔ file.Multiplies grant s.seg nmemb size := by
  obtain ⟨bs, hruns⟩ := (wideContract file).runs_of_reached hcap hs
  constructor
  · intro h
    by_cases hzero : szMul nmemb size = 0
    · exact .inl hzero
    obtain ⟨hlt, hreturns⟩ := h.returns hzero
    refine .inr ⟨by omega, fun hfull => ?_⟩
    have hpos : 0 < nmemb * size := by
      rw [szMul_eq (by omega)] at hzero
      omega
    have hrun := ((wideContract file).malloc_none_iff hruns.inv hpos).2 ⟨rfl, hfull⟩
    rw [Returns, hruns.heapPtr, hrun] at hreturns
    cases hreturns
  · intro h
    obtain ⟨r, seg, hrun, hr, hzeros⟩ := (wideContract file).calloc_callocs hruns.inv h
    refine ⟨r, seg, hruns.heapPtr ▸ hrun, ?_, ?_⟩
    · rintro rfl
      exact hr
    · rintro p rfl
      have hblock := (wideContract file).exists_block hr
      obtain ⟨-, x, -, rfl, -, -, hfresh, -, hkeep⟩ := hr
      refine ⟨hblock, Contract.payloads_none hruns hfresh, hzeros _ rfl, fun q hq => ?_⟩
      obtain ⟨y, d, rfl, hy⟩ := hruns.exists_live hq
      exact payload_of_keeps hkeep hy (file.contract.tagged hruns.inv y d hy.1).1

theorem calloc_delivers_iff_fresh : seglist.Delivers true seglist.fresh 10 20 ↔
    seglist.Multiplies true seglist.fresh.seg 10 20 :=
  calloc_delivers_iff seglist (by norm_num) (reached_fresh seglist) true 10 20

/-- `2 ^ 63 + 8` times 2 bytes are 16 in the arithmetic of all three, and a request that is refused
is filled with zeros all the same. -/
theorem not_delivers :
    (implicit.Reached (2 ^ 14) implicit.fresh ∧
      ¬ implicit.Delivers true implicit.fresh (2 ^ 63 + 8) 2 ∧
      ¬ implicit.Delivers true implicit.fresh 1 (2 ^ 14)) ∧
    (explicit.Reached (2 ^ 14) explicit.fresh ∧
      ¬ explicit.Delivers true explicit.fresh (2 ^ 63 + 8) 2 ∧
      ¬ explicit.Delivers true explicit.fresh 1 (2 ^ 14)) ∧
    seglist.Reached (2 ^ 14) seglist.fresh ∧
      ¬ seglist.Delivers true seglist.fresh (2 ^ 63 + 8) 2 ∧
      ¬ seglist.Delivers true seglist.fresh 1 (2 ^ 14) := by
  have hwrap : ∀ file : File, ¬ file.Delivers true file.fresh (2 ^ 63 + 8) 2 := fun file h =>
    absurd (h.returns (by decide)).1 (by norm_num)
  have hroom : ∀ file : File, ¬ file.Returns true file.fresh (1 * 2 ^ 14) →
      ¬ file.Delivers true file.fresh 1 (2 ^ 14) := fun file hno h =>
    hno (h.returns (by decide)).2
  refine ⟨⟨reached_fresh _, hwrap _, hroom _ ?_⟩, ⟨reached_fresh _, hwrap _, hroom _ ?_⟩,
    reached_fresh _, hwrap _, hroom _ ?_⟩
  · decide +kernel
  · decide +kernel
  · decide +kernel

end File

/-! ## `realloc` of `mm-seglist.c` -/

namespace Seglist

/-- What `realloc` does when it takes a larger size for a smaller one: either the size does not
fit into a header, or it writes behind the end of the heap. -/
lemma returns_of_shrinks {s : Segment} {x n : ℕ} {d : Block} {grant : Bool} {junk : ℕ → UInt8}
    {Q : Option ℕ → Segment → Prop} (hpos : 0 < n) (htag : s.word x = d.tag)
    (hbrk : s.brk ≤ 2 ^ 32) (hlt : d.size < getMallocSize n)
    (hshrinks : shrinks d.size (getMallocSize n))
    (h : wp (realloc 1 grant junk (some (x + 1)) n) Q s) :
    2 ^ 32 ≤ getMallocSize n ∧ ∃ s', Q (some (x + 1)) s' := by
  obtain ⟨k, hk⟩ : ∃ k, getMallocSize n = k := ⟨_, rfl⟩
  have hdvd := dvd_getMallocSize n
  have hd8 := d.dvd
  have hle := d.le
  rw [hk] at hdvd hlt hshrinks ⊢
  simp only [realloc, hpos.ne', if_false, Nat.add_sub_cancel, wp_bind, wp_blockSize, htag,
    d.tag_div, hk, hlt.ne', hshrinks, if_true, getFooterEl, wp_pure, wp_store, WSIZE,
    Segment.brk_setWord, pack_one hdvd, pack_zero, Segment.word_setWord_same] at h
  obtain ⟨-, -, -, -, -, -, -, hend, r, s', -, hq⟩ := h
  refine ⟨?_, s', (wp_pure _ _ _).1 hq⟩
  by_contra hsmall
  have hheader : (k + 1) % 2 ^ 32 / 8 * 8 = k := by omega
  have hne : x ≠ x + k / 4 - 1 := by omega
  simp only [hheader, Segment.word_setWord_ne _ _ hne, Segment.word_setWord_same] at hend
  -- the footer of the block that is cut off is `2 ^ 32` bytes too far
  simp only [shrinks, szSub, DSIZE] at hshrinks hend
  omega

/-- `realloc(p, n)` returns a block with room for `n` bytes, or `NULL` while `p` is still live
with its size and contents. -/
def GivesRoom (env : Env) (s : State) (p n : ℕ) : Prop :=
  ∃ r s', serve allocator env s (.realloc (some p) n) = some (r, s') ∧
    (∀ q, r = some q → ∃ bs x b, File.seglist.Tiled s'.seg bs ∧ q = x + 1 ∧ Live 13 bs x b ∧
      n + 8 ≤ b.size) ∧
    (r = none → (s'.live p).isSome ∧ s'.blockSize p = s.blockSize p ∧ s'.payload p = s.payload p)

lemma givesRoom_of_reallocs {s : State} {bs : Layout} {env : Env} {x n : ℕ} {d : Block}
    (h : Runs 13 (ListBased.Inv format) s bs) (hx : Live 13 bs x d) (hpos : 0 < n)
    (hreallocs : wp (realloc 1 env.grant env.junk (some (x + 1)) n)
      (Reallocs 13 (ListBased.Inv format) s.seg bs x d n) s.seg) : GivesRoom env s (x + 1) n := by
  obtain ⟨seg₀, heapPtr, live⟩ := s
  obtain rfl : heapPtr = 1 := h.heapPtr
  obtain ⟨r, seg, hrun, hr⟩ := hreallocs
  have hserve : serve allocator env ⟨seg₀, 1, live⟩ (.realloc (some (x + 1)) n) = some (r, _) :=
    congrArg (Option.map _) hrun
  refine ⟨r, _, hserve, ?_, ?_⟩
  · rintro q rfl
    obtain ⟨bs', z, c, rfl, hinv, hroom, -, hlive, -⟩ := hr
    exact ⟨bs', z, c, ⟨hinv.tiles.brk, hinv.tiles.tags⟩, rfl, (hlive z c).2 (.inr ⟨rfl, rfl⟩),
      hroom⟩
  · rintro rfl
    obtain rfl : seg = seg₀ := hr
    have hlive := h.owned x d hx
    exact ⟨by simpa [hpos.ne'] using hlive, rfl, rfl⟩

/-- A larger size that is taken for a smaller one gives no room. -/
lemma not_givesRoom_of_shrinks {s : State} {bs : Layout} {env : Env} {x n : ℕ} {d : Block}
    (h : Runs 13 (ListBased.Inv format) s bs) (hx : Live 13 bs x d) (hpos : 0 < n)
    (hlt : d.size < getMallocSize n) (hshrinks : shrinks d.size (getMallocSize n)) :
    ¬ GivesRoom env s (x + 1) n := by
  rintro ⟨r, s', hserve, hsome, -⟩
  obtain ⟨⟨r₁, seg⟩, hrun, hr⟩ := Option.map_eq_some_iff.1 hserve
  rw [h.heapPtr] at hrun
  have hreturns : wp (realloc 1 env.grant env.junk (some (x + 1)) n) (fun r _ => r = r₁) s.seg :=
    ⟨r₁, seg, hrun, rfl⟩
  obtain ⟨hlarge, _, hq⟩ := returns_of_shrinks hpos (h.inv.tiles.tags x d hx.1).1
    h.inv.tiles.le hlt hshrinks hreturns
  cases hr
  obtain ⟨bs', y, b, htiled, -, hy, hroom⟩ := hsome (x + 1) hq.symm
  have hle := getMallocSize_le hpos
  have hb := htiled.size_lt hy.1
  have hdvd := b.dvd
  omega

/-- `realloc` gives room exactly when it does not take a larger size for a smaller one. -/
theorem gives_room_iff {cap : ℕ} (hcap : cap ≤ 2 ^ 32) {s : State}
    (hs : File.seglist.Reached cap s) (env : Env) {p n : ℕ} (hp : (s.live p).isSome)
    (hpos : 0 < n) (hn : n ≤ 2 ^ 64 - 16) :
    GivesRoom env s p n ↔
      ¬ (s.blockSize p < getMallocSize n ∧ shrinks (s.blockSize p) (getMallocSize n)) := by
  obtain ⟨bs, hruns⟩ := (wideContract : WideContract .seglist _).runs_of_reached hcap hs
  obtain ⟨x, d, rfl, hx⟩ := hruns.exists_live hp
  rw [blockSize_of_tag (hruns.inv.tiles.tags x d hx.1).1]
  constructor
  · rintro hroom ⟨hlt, hshrinks⟩
    exact not_givesRoom_of_shrinks hruns hx hpos hlt hshrinks hroom
  · intro hno
    refine givesRoom_of_reallocs hruns hx hpos ?_
    refine realloc_reallocs env.grant env.junk hruns.inv hx hpos hn fun hshrinks => ?_
    exact not_lt.1 fun hlt => hno ⟨hlt, hshrinks⟩

theorem gives_room_iff_sample : GivesRoom ⟨true, fun _ => 0⟩ sample 14 200 ↔
    ¬ (sample.blockSize 14 < getMallocSize 200 ∧
      shrinks (sample.blockSize 14) (getMallocSize 200)) :=
  gives_room_iff (by norm_num) (File.reached_of_reachable (by norm_num) reachable_sample) _
    (by decide +kernel) (by norm_num) (by norm_num)

/-- The block of 100 bytes is cut down to 16 bytes when `2 ^ 32 + 8` are asked for. -/
theorem not_gives_room : File.seglist.Reached (2 ^ 14) sample ∧ (sample.live 14).isSome ∧
    (serve allocator ⟨true, fun _ => 0⟩ sample (.realloc (some 14) (2 ^ 32 + 8))).map Prod.fst =
      some (some 14) ∧
    ¬ GivesRoom ⟨true, fun _ => 0⟩ sample 14 (2 ^ 32 + 8) := by
  have hserve : (serve allocator ⟨true, fun _ => 0⟩ sample
      (.realloc (some 14) (2 ^ 32 + 8))).map Prod.fst = some (some 14) := by decide +kernel
  refine ⟨File.reached_of_reachable (by norm_num) reachable_sample, by decide +kernel, hserve, ?_⟩
  rintro ⟨r, s', h, hsome, -⟩
  rw [h] at hserve
  cases hserve
  obtain ⟨bs, x, b, htiled, -, hx, hroom⟩ := hsome 14 rfl
  have hlt := htiled.size_lt hx.1
  omega

end Seglist

end Malloclab
end SystemsLabs
