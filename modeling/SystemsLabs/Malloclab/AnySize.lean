import SystemsLabs.Malloclab.ImplicitRuns
import SystemsLabs.Malloclab.ListRuns
import SystemsLabs.Runs.Machine

/-!
# Requests of any size

A `size_t` has 64 bits and a header 32. For a request of more than `2 ^ 64 - 16` bytes the
arithmetic of `getMallocSize` wraps, and `calloc` multiplies two sizes. The runs here are those of
clients that ask for any number of bytes, with `calloc` among their calls. `Sound` says which calls
the code gets through unharmed, and in a run of such calls the invariant of the heap holds.
-/

namespace SystemsLabs
namespace Malloclab

open Memory Layout SystemsLabs.Runs

/-! ## The three files -/

/-- The implementations. -/
inductive File
  | implicit
  | explicit
  | seglist
deriving DecidableEq

namespace File

/-- The functions of a file. -/
def allocator : File → Allocator
  | implicit => Implicit.allocator
  | explicit => Explicit.allocator
  | seglist => Seglist.allocator

/-- The word at which the first block begins. -/
def first : File → ℕ
  | implicit => 3
  | explicit => 5
  | seglist => 13

/-- The words behind the last block. -/
def behind : File → ℕ
  | implicit => 1
  | explicit => 0
  | seglist => 0

def chunksize : File → ℕ
  | implicit => Implicit.CHUNKSIZE
  | explicit => Explicit.CHUNKSIZE
  | seglist => Seglist.CHUNKSIZE

/-- `calloc(nmemb, size)`. -/
def calloc (file : File) (heapPtr : ℕ) (grant : Bool) (nmemb size : ℕ) : HeapM (Option ℕ) :=
  match file with
  | implicit => Implicit.calloc heapPtr grant nmemb size
  | explicit => Explicit.calloc heapPtr grant nmemb size
  | seglist => Seglist.calloc heapPtr grant nmemb size

lemma calloc_eq (file : File) (heapPtr : ℕ) (grant : Bool) (nmemb size : ℕ) :
    file.calloc heapPtr grant nmemb size =
      callocWith (file.allocator.malloc heapPtr grant) nmemb size := by
  cases file <;> rfl

/-- The blocks tile the heap, and each has its tag at both ends. -/
def Tiled (file : File) (s : Segment) (bs : Layout) : Prop :=
  s.brk = 4 * (file.first + len bs + file.behind) ∧ Tagged s.word file.first bs

/-- Some free block has at least `size` bytes. -/
def Fits (file : File) (s : Segment) (size : ℕ) : Prop :=
  ∃ bs x b, file.Tiled s bs ∧ At file.first bs x b ∧ b.alloc = false ∧ size ≤ b.size

/-- There is no room for `n` bytes: no free block fits, and memlib refuses to grow the heap. -/
def Full (file : File) (grant : Bool) (s : Segment) (n : ℕ) : Prop :=
  ¬ file.Fits s (getMallocSize n) ∧ ¬ Grants grant s (max (getMallocSize n) file.chunksize)

/-- The rounding of `n` does not wrap, or it makes no difference that it does. -/
def Rounds (file : File) (grant : Bool) (s : Segment) (n : ℕ) : Prop :=
  n ≤ 2 ^ 64 - 16 ∨ file.Full grant s n

/-- `realloc` to `n` bytes of the payload at `p`, of which only `mm-seglist.c` ever cuts the block:
then it must be the larger size. -/
def Resizes (file : File) (grant : Bool) (s : State) (p n : ℕ) : Prop :=
  match file with
  | seglist =>
    if Seglist.shrinks (s.blockSize p) (getMallocSize n) then
      n ≤ 2 ^ 64 - 16 ∧ getMallocSize n ≤ s.blockSize p
    else seglist.Rounds grant s.seg n
  | file => file.Rounds grant s.seg n

/-- The product does not wrap and there is room for it, or nothing is asked for. -/
def Multiplies (file : File) (grant : Bool) (s : Segment) (nmemb size : ℕ) : Prop :=
  szMul nmemb size = 0 ∨ (nmemb * size ≤ 2 ^ 64 - 16 ∧ ¬ file.Full grant s (nmemb * size))

end File

/-! ## Runs -/

/-- A call of a client. -/
inductive Request
  | call (call : Call ℕ)
  | calloc (nmemb size : ℕ)

/-- One call, in surroundings that behave as `env` says. -/
def File.step (file : File) (s : State) : Env × Request → Option State
  | (env, .call call) => (serve file.allocator env s call).map Prod.snd
  | (env, .calloc nmemb size) =>
    ((file.calloc s.heapPtr env.grant nmemb size).run s.seg).map fun (r, seg) =>
      { s with seg := seg, live := State.gain s.live r (nmemb * size) }

/-- What a client may do: it passes live pointers and 64-bit sizes. -/
def Permitted (s : State) : Request → Prop
  | .call (.malloc n) => n < 2 ^ 64
  | .call (.free p) => ∀ q ∈ p, (s.live q).isSome
  | .call (.realloc p n) => (∀ q ∈ p, (s.live q).isSome) ∧ n < 2 ^ 64
  | .call (.write p i _) => ∃ n ∈ s.live p, i < n
  | .calloc nmemb size => nmemb < 2 ^ 64 ∧ size < 2 ^ 64

/-- What the code gets through. -/
def File.Sound (file : File) (s : State) : Env × Request → Prop
  | (env, .call (.malloc n)) => file.Rounds env.grant s.seg n
  | (env, .call (.realloc none n)) => file.Rounds env.grant s.seg n
  | (env, .call (.realloc (some p) n)) => n = 0 ∨ file.Resizes env.grant s p n
  | (env, .calloc nmemb size) => file.Multiplies env.grant s.seg nmemb size
  | _ => True

/-- The heap of at most `cap` bytes has been set up. -/
def File.Started (file : File) (cap : ℕ) (s : State) : Prop :=
  ∃ bytes grant₁ grant₂ heapPtr seg,
    (file.allocator.mmInit grant₁ grant₂).run ⟨bytes, 0, cap⟩ = some (some heapPtr, seg) ∧
      s = ⟨seg, heapPtr, fun _ => none⟩

/-- The states of the runs all whose calls are sound. -/
def File.Reached (file : File) (cap : ℕ) (s : State) : Prop :=
  ∃ s₀, file.Started cap s₀ ∧
    Reaches file.step (fun s e => Permitted s e.2 ∧ file.Sound s e) s₀ s

/-! ## The contract for requests of any size -/

/-- What is needed of an implementation beyond its contract for small requests. -/
structure WideContract (file : File) (Inv : Segment → Layout → Prop) : Prop where
  contract : Contract file.allocator file.first Inv
  tiled : ∀ {s bs}, Inv s bs → file.Tiled s bs
  mallocZero : ∀ grant s, (file.allocator.malloc 1 grant 0).run s = some (none, s)
  malloc : ∀ {s bs} grant n, Inv s bs → n ≤ 2 ^ 64 - 16 →
    wp (file.allocator.malloc 1 grant n) (Mallocs file.first Inv s bs n) s
  mallocNone : ∀ {s s' bs} grant n, Inv s bs → 0 < n →
    ((file.allocator.malloc 1 grant n).run s = some (none, s') ↔ s' = s ∧
      FindsFit file.first bs (getMallocSize n) none ∧
      ¬ Grants grant s (max (getMallocSize n) file.chunksize))
  reallocNull : ∀ grant junk n, 0 < n →
    file.allocator.realloc 1 grant junk none n = file.allocator.malloc 1 grant n
  realloc : ∀ {s : State} {bs x b} grant junk n, Runs file.first Inv s bs →
    Live file.first bs x b → 0 < n → n < 2 ^ 64 → file.Resizes grant s (x + 1) n →
    (file.Rounds grant s.seg n →
      wp (file.allocator.malloc 1 grant n) (Mallocs file.first Inv s.seg bs n) s.seg) →
    wp (file.allocator.realloc 1 grant junk (some (x + 1)) n)
      (Reallocs file.first Inv s.seg bs x b n) s.seg

namespace WideContract

variable {file : File} {Inv : Segment → Layout → Prop} {s : State} {bs : Layout} {n : ℕ}
  {grant : Bool} {A : Allocator} {a : ℕ}

/-- Layouts are determined by the tags. -/
lemma fits_iff (hA : WideContract file Inv) {s : Segment} (h : Inv s bs) (size : ℕ) :
    ¬ file.Fits s size ↔ FindsFit file.first bs size none := by
  obtain ⟨hbrk, htags⟩ := hA.tiled h
  simp only [File.Fits, FindsFit, not_exists, not_and, not_le]
  constructor
  · exact fun hno x c hx hfree => hno bs x c ⟨hbrk, htags⟩ hx hfree
  · rintro hno bs' x c ⟨hbrk', htags'⟩ hx hfree
    obtain rfl := htags'.unique htags (by omega)
    exact hno x c hx hfree

/-- `malloc` returns `NULL` exactly when there is no room. -/
lemma malloc_none_iff (hA : WideContract file Inv) {s t : Segment} (h : Inv s bs) (hpos : 0 < n) :
    (file.allocator.malloc 1 grant n).run s = some (none, t) ↔ t = s ∧ file.Full grant s n := by
  rw [hA.mallocNone grant n h hpos, File.Full, hA.fits_iff h]

lemma malloc_mallocs (hA : WideContract file Inv) {s : Segment} (h : Inv s bs)
    (hn : file.Rounds grant s n) :
    wp (file.allocator.malloc 1 grant n) (Mallocs file.first Inv s bs n) s := by
  rcases hn with hn | hfull
  · exact hA.malloc grant n h hn
  rcases Nat.eq_zero_or_pos n with rfl | hpos
  · exact hA.malloc grant 0 h (Nat.zero_le _)
  · exact ⟨none, s, (hA.malloc_none_iff h hpos).2 ⟨rfl, hfull⟩, rfl⟩

/-- What `malloc` returns is a block that has room. -/
lemma exists_block (hA : WideContract file Inv) {s seg : Segment} {p : ℕ}
    (h : Mallocs file.first Inv s bs n (some p) seg) :
    ∃ bs' x b, file.Tiled seg bs' ∧ p = x + 1 ∧ Live file.first bs' x b ∧ n + 8 ≤ b.size := by
  obtain ⟨bs', x, b, rfl, hinv, hsize, -, hlive, -⟩ := h
  exact ⟨bs', x, b, hA.tiled hinv, rfl, (hlive x b).2 (.inr ⟨rfl, rfl⟩), hsize⟩

/-- `calloc` answers: it fails and changes nothing, or it allocates a block for `k` bytes, which
are zero. -/
def Callocs (a : ℕ) (Inv : Segment → Layout → Prop) (s : Segment) (bs : Layout) (k : ℕ)
    (r : Option ℕ) (s' : Segment) : Prop :=
  Mallocs a Inv s bs k r s' ∧ ∀ p, r = some p → ∀ i < k, s'.bytes (WSIZE * p + i) = 0

/-- The payload of a block that has just been allocated is filled. -/
lemma mallocs_filled (hA : Contract A a Inv) {s s₁ : Segment} {p k : ℕ}
    (h : Mallocs a Inv s bs k (some p) s₁) (v : UInt8) :
    WSIZE * p + k ≤ s₁.brk ∧
      Mallocs a Inv s bs k (some p) { s₁ with bytes := s₁.filled (WSIZE * p) k v } := by
  obtain ⟨bs₁, z, c, rfl, hinv, hsize, hfresh, hlive, hkeep⟩ := h
  have hz := (hlive z c).2 (.inr ⟨rfl, rfl⟩)
  have hbounds := hz.1.bounds
  have hinside := hA.inside hinv
  have h4 := c.four_words
  have hout : ∀ i, (i < 4 * (z + 1) ∨ 4 * (z + c.words - 1) ≤ i) →
      s₁.filled (WSIZE * (z + 1)) k v i = s₁.bytes i := by
    intro i hi
    refine if_neg ?_
    unfold WSIZE
    omega
  refine ⟨by unfold WSIZE; omega, bs₁, z, c, rfl, hA.write hinv hz ⟨rfl, rfl, fun i hi => ?_⟩,
    hsize, hfresh, hlive, fun y d hy i h1 h2 => ?_⟩
  · refine hout i ?_
    unfold Between at hi
    omega
  · refine (hout i ?_).trans (hkeep y d hy i h1 h2)
    rcases ((hlive y d).2 (.inl hy)).1.disjoint hz.1 with h | h | h
    · exact absurd (h.1 ▸ hy) (hfresh d)
    · omega
    · omega

lemma calloc_callocs (hA : WideContract file Inv) {s : Segment} (h : Inv s bs) {nmemb size : ℕ}
    (hm : file.Multiplies grant s nmemb size) :
    wp (file.calloc 1 grant nmemb size) (Callocs file.first Inv s bs (nmemb * size)) s := by
  rw [file.calloc_eq, callocWith]
  by_cases hzero : szMul nmemb size = 0
  · rw [hzero, wp_bind, wp_of_run (hA.mallocZero grant s)]
    simp only [memset, if_true, wp_bind, wp_pure]
    exact ⟨rfl, fun p hp => by cases hp⟩
  obtain ⟨hle, hroom⟩ := hm.resolve_left hzero
  have hmul : szMul nmemb size = nmemb * size := szMul_eq (by omega)
  rw [hmul] at hzero ⊢
  obtain ⟨r, s₁, hrun, hmallocs⟩ := hA.malloc grant (nmemb * size) h hle
  rw [wp_bind, wp_of_run hrun]
  cases r with
  | none => exact absurd ((hA.malloc_none_iff h (Nat.pos_of_ne_zero hzero)).1 hrun).2 hroom
  | some p =>
    obtain ⟨hin, hfilled⟩ := mallocs_filled hA.contract hmallocs 0
    simp only [memset, wp_bind, wp_fill, wp_pure]
    refine ⟨hin, hfilled, ?_⟩
    rintro _ ⟨⟩ i hi
    exact if_pos ⟨by omega, by omega⟩

/-! ## Runs keep the invariant -/

/-- What `malloc` hands out is live in the next state. -/
lemma exists_runs_gain (hA : WideContract file Inv) (h : Runs file.first Inv s bs) {r : Option ℕ}
    {t : Segment} (hr : Mallocs file.first Inv s.seg bs n r t) :
    ∃ bs', Runs file.first Inv { s with seg := t, live := State.gain s.live r n } bs' := by
  obtain ⟨bs', hruns, -⟩ := hA.contract.malloc_step h (dvd_zero 8) hr
  exact ⟨bs', hruns⟩

/-- A call of a client that asks for few bytes, or for none. -/
lemma legal_keeps (hA : WideContract file Inv) (h : Runs file.first Inv s bs) {env : Env}
    {call : Call ℕ} {s' : State} (hcall : Legal s call)
    (hstep : file.step s (env, .call call) = some s') : ∃ bs', Runs file.first Inv s' bs' := by
  obtain ⟨r, t, bs', hserve, hruns, -⟩ := hA.contract.serve_spec h (dvd_zero 8) env hcall
  rw [File.step, hserve] at hstep
  cases hstep
  exact ⟨bs', hruns⟩

/-- A `realloc` to some bytes. -/
lemma realloc_keeps (hA : WideContract file Inv) (h : Runs file.first Inv s bs) {env : Env}
    {p : Option ℕ} {s' : State} (hpos : 0 < n) (hp : ∀ q ∈ p, (s.live q).isSome)
    (hn : n < 2 ^ 64) (hsound : file.Sound s (env, .call (.realloc p n)))
    (hstep : file.step s (env, .call (.realloc p n)) = some s') :
    ∃ bs', Runs file.first Inv s' bs' := by
  obtain ⟨seg, heapPtr, live⟩ := s
  obtain rfl : heapPtr = 1 := h.heapPtr
  cases p with
  | none =>
    obtain ⟨r, t, hrun, hr⟩ := hA.malloc_mallocs h.inv hsound
    rw [← hA.reallocNull env.grant env.junk n hpos] at hrun
    rw [File.step, serve, hrun] at hstep
    cases hstep
    have hgain : (if r.isSome then State.gain live r n else live) = State.gain live r n := by
      cases r <;> rfl
    simp only [hpos.ne', if_false, State.lose, hgain]
    exact hA.exists_runs_gain h hr
  | some p =>
    obtain ⟨x, b, rfl, hx⟩ := h.exists_live (hp p rfl)
    obtain ⟨r, t, hrun, hr⟩ := hA.realloc env.grant env.junk n h hx hpos hn
      (hsound.resolve_left hpos.ne') (hA.malloc_mallocs h.inv)
    obtain ⟨bs', hruns, -⟩ := hA.contract.realloc_step h (dvd_zero 8) hpos hx hr
    rw [File.step, serve, hrun] at hstep
    cases hstep
    exact ⟨bs', hruns⟩

/-- A call that the code gets through leaves the invariant true. -/
lemma step_keeps (hA : WideContract file Inv) (h : Runs file.first Inv s bs) {e : Env × Request}
    {s' : State} (hperm : Permitted s e.2) (hsound : file.Sound s e)
    (hstep : file.step s e = some s') : ∃ bs', Runs file.first Inv s' bs' := by
  obtain ⟨env, request⟩ := e
  obtain ⟨seg, heapPtr, live⟩ := s
  obtain rfl : heapPtr = 1 := h.heapPtr
  cases request with
  | calloc nmemb size =>
    obtain ⟨r, t, hrun, hr, -⟩ := hA.calloc_callocs h.inv hsound
    rw [File.step, hrun] at hstep
    cases hstep
    exact hA.exists_runs_gain h hr
  | call call =>
    cases call with
    | malloc n =>
      obtain ⟨r, t, hrun, hr⟩ := hA.malloc_mallocs h.inv hsound
      rw [File.step, serve, hrun] at hstep
      cases hstep
      exact hA.exists_runs_gain h hr
    | free p => exact hA.legal_keeps h (show Legal _ (.free p) from hperm) hstep
    | write p i v => exact hA.legal_keeps h (show Legal _ (.write p i v) from hperm) hstep
    | realloc p n =>
      obtain ⟨hp, hn⟩ := hperm
      rcases Nat.eq_zero_or_pos n with rfl | hpos
      · exact hA.legal_keeps h (show Legal _ (.realloc p 0) from ⟨hp, by norm_num⟩) hstep
      · exact hA.realloc_keeps h hpos hp hn hsound hstep

/-- The invariant holds in every state of a run of such calls. -/
theorem runs_of_reached (hA : WideContract file Inv) {cap : ℕ} (hcap : cap ≤ 2 ^ 32)
    (hs : file.Reached cap s) : ∃ bs, Runs file.first Inv s bs := by
  obtain ⟨s₀, ⟨bytes, grant₁, grant₂, heapPtr, seg, hinit, rfl⟩, hreach⟩ := hs
  refine hreach.invariant (I := fun s => ∃ bs, Runs file.first Inv s bs) ?_ ?_
  · obtain ⟨rfl, bs, hinv, hno⟩ := wp_elim (hA.contract.mmInit _ _ hcap) hinit _ rfl
    exact ⟨bs, hinv, rfl, fun x b hx => absurd hx (hno x b), fun p n hp => by cases hp⟩
  · rintro s e s' ⟨bs, hruns⟩ ⟨hperm, hsound⟩ hstep
    exact hA.step_keeps hruns hperm hsound hstep

end WideContract

end Malloclab
end SystemsLabs
