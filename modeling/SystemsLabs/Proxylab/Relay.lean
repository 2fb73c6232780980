import SystemsLabs.Memory.Strings
import SystemsLabs.Proxylab.LruStore

/-!
# send_request

What the server sends is read in chunks. Each chunk is forwarded with its length, but for the
cache it is appended to `cache_content` as a string, up to the first NUL in `response`. The
array `response` keeps what earlier chunks left behind a shorter one, and neither array is
initialised. A run that reads behind an array, or writes behind it, goes wrong.
-/

namespace SystemsLabs
namespace Proxylab

open Memory Runs

def MAXBUF : ℕ := 8192

lemma MAXBUF_pos : 0 < MAXBUF := by decide

/-- The locals of the loop in `send_request`, and what the client has been sent. -/
structure Relay where
  response : List UInt8
  cacheContent : List UInt8
  cacheItemSize : ℤ
  sent : List UInt8

/-- What `Rio_readnb` delivers of the bytes that the server sends: full chunks, then the rest,
and then nothing. -/
def reads (R : List UInt8) : List (List UInt8) :=
  if R = [] then [[]] else R.take MAXBUF :: reads (R.drop MAXBUF)
termination_by R.length
decreasing_by
  have := List.length_pos_of_ne_nil ‹R ≠ []›
  have := MAXBUF_pos
  rw [List.length_drop]
  omega

namespace Relay

/-- The array `response` after `Rio_readnb` has delivered a chunk. -/
def receive (st : Relay) (chunk : List UInt8) : List UInt8 :=
  chunk ++ (st.response.set 0 0).drop chunk.length

/-- The body of the loop. -/
def turn (st : Relay) (chunk : List UInt8) : Option Relay :=
  let response := st.receive chunk
  let cacheItemSize := wrap (st.cacheItemSize + chunk.length)
  let cacheContent :=
    if cacheItemSize < MAX_OBJECT_SIZE then strcat st.cacheContent response
    else some st.cacheContent
  cacheContent.map fun cacheContent =>
    ⟨response, cacheContent, cacheItemSize, st.sent ++ response.take chunk.length⟩

/-- The loop, which ends after a read that delivers nothing. -/
def loop (st : Relay) : List (List UInt8) → Option Relay
  | [] => none
  | chunk :: rest =>
    (st.turn chunk).bind fun st => if 0 < chunk.length then st.loop rest else some st

end Relay

/-- The loop of `send_request` over what the server sends, with the arrays as they are before. -/
def relay (R response cacheContent : List UInt8) : Option Relay :=
  Relay.loop ⟨response, cacheContent.set 0 0, 0, []⟩ (reads R)

/-- `rio_writen(fd, bytes, n)`. -/
def writen (bytes : List UInt8) (n : ℤ) : Option (List UInt8) :=
  if 0 ≤ n ∧ n ≤ bytes.length then some (bytes.take n.toNat) else none

/-- `send_request` where the server can be reached and sends `R`, and `malloc` returns `node`.
The result is what the client is sent. -/
def sendRequest (fuel : ℕ) (c : Cache) (node : ℕ) (uri R response cacheContent : List UInt8) :
    Option (List UInt8 × Cache) :=
  (c.getCacheItem fuel uri).bind fun
    | (some cached, c) =>
      (writen (c.nodes cached).content (c.nodes cached).length).map fun sent => (sent, c)
    | (none, c) =>
      (relay R response cacheContent).bind fun st =>
        if st.cacheItemSize < MAX_OBJECT_SIZE then
          (c.putCacheItem fuel node uri (fun i => st.cacheContent.getD i 0) st.cacheItemSize).map
            fun c => (st.sent, c)
        else some (st.sent, c)

/-- The condition for the cached copy. In `response` there is a NUL after the first read. Every
later chunk starts with NUL, so that it is appended as the empty string. Behind the first NUL of
the answer `cache_content` held the right bytes before. -/
def Transparent (R response cacheContent : List UInt8) : Prop :=
  R = [] ∨
    ((0 : UInt8) ∈ R.take MAXBUF ++ response.drop R.length ∧
      (∀ k, 1 ≤ k → MAXBUF * k < R.length → R[MAXBUF * k]? = some 0) ∧
      ∀ i j, R[i]? = some 0 → i < j → j < R.length → cacheContent[j]? = R[j]?)

/-! ## The loop -/

section Loop
variable {R response cacheContent chunk : List UInt8} {st st' : Relay} {n : ℕ}

lemma reads_nil : reads [] = [[]] := by
  rw [reads, if_pos rfl]

/-- The first read, and the reads of the rest. -/
lemma reads_of_ne_nil (h : R ≠ []) : reads R = R.take MAXBUF :: reads (R.drop MAXBUF) := by
  rw [reads, if_neg h]

namespace Relay

/-- The count of the bytes and the arrays, with `R` still to come. -/
structure Fits (st : Relay) (R : List UInt8) : Prop where
  response : st.response.length = MAXBUF
  nonneg : 0 ≤ st.cacheItemSize
  small : st.cacheItemSize + R.length < MAX_OBJECT_SIZE

/-- A read fits into `response`. -/
lemma length_receive (hst : st.response.length = MAXBUF) (hchunk : chunk.length ≤ MAXBUF) :
    (st.receive chunk).length = MAXBUF := by
  rw [receive, List.length_append, List.length_drop, List.length_set, hst]
  omega

/-- A chunk of a small answer is forwarded and appended. -/
lemma turn_eq (h : st.Fits chunk) : st.turn chunk =
    (strcat st.cacheContent (st.receive chunk)).map fun content =>
      ⟨st.receive chunk, content, st.cacheItemSize + chunk.length, st.sent ++ chunk⟩ := by
  have hnonneg := h.nonneg
  have hsmall := h.small
  have hwrap : wrap (st.cacheItemSize + chunk.length) = st.cacheItemSize + chunk.length := by
    unfold MAX_OBJECT_SIZE at hsmall
    apply wrap_of_mem <;> omega
  have htake : (st.receive chunk).take chunk.length = chunk := List.take_left
  rw [turn]
  simp only [hwrap, htake, if_pos hsmall]

/-- A turn of the loop over the next chunk of `R`. -/
lemma loop_reads (h : st.Fits R) (hR : R ≠ []) : st.loop (reads R) =
    (strcat st.cacheContent (st.receive (R.take MAXBUF))).bind fun content =>
      loop ⟨st.receive (R.take MAXBUF), content, st.cacheItemSize + (R.take MAXBUF).length,
        st.sent ++ R.take MAXBUF⟩ (reads (R.drop MAXBUF)) := by
  have hnonneg := h.nonneg
  have hsmall := h.small
  have hlength := List.length_take_le' MAXBUF R
  have hpos : 0 < (R.take MAXBUF).length := by
    have := MAXBUF_pos
    have := List.length_pos_of_ne_nil hR
    rw [List.length_take]
    omega
  rw [reads_of_ne_nil hR, loop, turn_eq ⟨h.response, hnonneg, by omega⟩]
  cases strcat st.cacheContent (st.receive (R.take MAXBUF)) with
  | none => rfl
  | some content =>
    rw [Option.map_some, Option.bind_some, Option.bind_some, if_pos hpos]

/-- After the turn the rest of `R` is still to come. -/
lemma Fits.next (h : st.Fits R) (content sent : List UInt8) :
    Fits ⟨st.receive (R.take MAXBUF), content, st.cacheItemSize + (R.take MAXBUF).length, sent⟩
      (R.drop MAXBUF) := by
  have hnonneg := h.nonneg
  have hsmall := h.small
  refine ⟨length_receive h.response (List.length_take_le MAXBUF R), ?_, ?_⟩
  · show 0 ≤ st.cacheItemSize + (R.take MAXBUF).length
    omega
  · show st.cacheItemSize + (R.take MAXBUF).length + (R.drop MAXBUF).length < MAX_OBJECT_SIZE
    rw [List.length_take, List.length_drop]
    omega

/-- The last read delivers nothing, and leaves the string as it is. -/
lemma loop_reads_nil (h : st.Fits []) (hn : strlen st.cacheContent = some n) :
    ∃ response, st.loop (reads []) =
      some ⟨response, st.cacheContent, st.cacheItemSize, st.sent⟩ := by
  have hhead : (st.receive [])[0]? = some 0 := by
    have hpos := MAXBUF_pos
    rw [← h.response] at hpos
    show (st.response.set 0 0)[0]? = some 0
    rw [List.getElem?_set_self hpos]
  refine ⟨st.receive [], ?_⟩
  rw [reads_nil, loop, turn_eq h, strcat_of_head hn hhead, Option.map_some, Option.bind_some]
  simp

/-- Everything is forwarded and counted. The string in `cache_content` only grows. -/
theorem loop_spec (h : st.Fits R) (hn : strlen st.cacheContent = some n)
    (hloop : st.loop (reads R) = some st') :
    st'.sent = st.sent ++ R ∧ st'.cacheItemSize = st.cacheItemSize + R.length ∧
      st'.cacheContent.length = st.cacheContent.length ∧
      ∀ j < n, st'.cacheContent[j]? = st.cacheContent[j]? := by
  induction R using reads.induct generalizing st n with
  | case1 =>
    obtain ⟨response, heq⟩ := loop_reads_nil h hn
    cases heq.symm.trans hloop
    exact ⟨(List.append_nil _).symm, by simp, rfl, fun _ _ => rfl⟩
  | case2 R hR ih =>
    rw [loop_reads h hR] at hloop
    obtain ⟨content, hcat, hloop⟩ := Option.bind_eq_some_iff.1 hloop
    obtain ⟨n', m, hn', hm⟩ := exists_of_strcat hcat
    cases hn.symm.trans hn'
    obtain ⟨hsent, hsize, hlength, hkeep⟩ := ih (h.next _ _) (strlen_strcat hn hm hcat) hloop
    refine ⟨?_, ?_, hlength.trans (length_strcat hn hm hcat), ?_⟩
    · rw [hsent, List.append_assoc, List.take_append_drop]
    · rw [hsize, List.length_take, List.length_drop]
      show st.cacheItemSize + _ + _ = _
      omega
    · intro j hj
      rw [hkeep j (by omega)]
      show content[j]? = _
      rw [getElem?_strcat hn hm hcat, if_pos hj]

/-- Every chunk starts with NUL. -/
def Quiet (R : List UInt8) : Prop := ∀ k, MAXBUF * k < R.length → R[MAXBUF * k]? = some 0

/-- Chunk by chunk. -/
lemma quiet_iff (hR : R ≠ []) : Quiet R ↔ R[0]? = some 0 ∧ Quiet (R.drop MAXBUF) := by
  constructor
  · intro h
    refine ⟨h 0 (List.length_pos_of_ne_nil hR), ?_⟩
    intro k hk
    rw [List.length_drop] at hk
    rw [List.getElem?_drop, show MAXBUF + MAXBUF * k = MAXBUF * (k + 1) by ring]
    apply h
    rw [Nat.mul_succ]
    omega
  · intro h k hk
    obtain ⟨hzero, hrest⟩ := h
    cases k with
    | zero => exact hzero
    | succ k =>
      rw [Nat.mul_succ] at hk
      have hk' := hrest k (by rw [List.length_drop]; omega)
      rwa [List.getElem?_drop, show MAXBUF + MAXBUF * k = MAXBUF * (k + 1) by ring] at hk'

/-- The first byte of `response` is the first byte of the chunk. -/
lemma receive_head (st : Relay) (hR : R ≠ []) : (st.receive (R.take MAXBUF))[0]? = R[0]? := by
  have hpos : 0 < (R.take MAXBUF).length := by
    have := MAXBUF_pos
    have := List.length_pos_of_ne_nil hR
    rw [List.length_take]
    omega
  rw [receive, List.getElem?_append_left hpos, List.getElem?_take_of_lt MAXBUF_pos]

/-- Chunks that start with NUL are not appended. -/
lemma loop_of_quiet (h : st.Fits R) (hn : strlen st.cacheContent = some n) (hquiet : Quiet R) :
    ∃ st', st.loop (reads R) = some st' ∧ st'.cacheContent = st.cacheContent := by
  induction R using reads.induct generalizing st with
  | case1 =>
    obtain ⟨response, heq⟩ := loop_reads_nil h hn
    exact ⟨_, heq, rfl⟩
  | case2 R hR ih =>
    obtain ⟨hzero, hrest⟩ := (quiet_iff hR).1 hquiet
    rw [← receive_head st hR] at hzero
    rw [loop_reads h hR, strcat_of_head hn hzero, Option.bind_some]
    exact ih (h.next _ _) hn hrest

/-- The first chunk that does not start with NUL takes the place of the NUL for good. -/
lemma loop_of_not_quiet (h : st.Fits R) (hn : strlen st.cacheContent = some n)
    (hquiet : ¬ Quiet R) (hloop : st.loop (reads R) = some st') :
    st'.cacheContent[n]? ≠ some 0 := by
  induction R using reads.induct generalizing st with
  | case1 =>
    exfalso
    apply hquiet
    intro k hk
    exact absurd hk (Nat.not_lt_zero _)
  | case2 R hR ih =>
    rw [loop_reads h hR] at hloop
    obtain ⟨content, hcat, hloop⟩ := Option.bind_eq_some_iff.1 hloop
    obtain ⟨n', m, hn', hm⟩ := exists_of_strcat hcat
    cases hn.symm.trans hn'
    by_cases hzero : R[0]? = some 0
    · have hsame : content = st.cacheContent := by
        rw [← receive_head st hR] at hzero
        rw [strcat_of_head hn hzero] at hcat
        exact (Option.some.inj hcat).symm
      rw [hsame] at hloop
      exact ih (h.next _ _) hn (fun hq => hquiet ((quiet_iff hR).2 ⟨hzero, hq⟩)) hloop
    · have hpos : 0 < m := by
        by_contra hm0
        rw [Nat.eq_zero_of_not_pos hm0] at hm
        rw [← receive_head st hR] at hzero
        exact hzero (strlen_eq_some_iff.1 hm).1
      obtain ⟨-, -, -, hkeep⟩ := loop_spec (h.next _ _) (strlen_strcat hn hm hcat) hloop
      rw [hkeep n (by omega)]
      show content[n]? ≠ some 0
      rw [getElem?_strcat hn hm hcat, if_neg (by omega), if_pos (by omega), Nat.sub_self,
        receive_head st hR]
      exact hzero

end Relay

end Loop

/-! ## The cached copy -/

section Copy
variable {R response cacheContent : List UInt8} {st : Relay} {j m : ℕ}

/-- The array `response` after the first read. -/
def first (R response : List UInt8) : List UInt8 := R.take MAXBUF ++ response.drop R.length

/-- The first read fills `response` or leaves its end. -/
lemma length_first (hresponse : response.length = MAXBUF) : (first R response).length = MAXBUF := by
  rw [first, List.length_append, List.length_take, List.length_drop, hresponse]
  omega

/-- The first read is in the front of `response`. -/
lemma getElem?_first (response : List UInt8) (hj : j < R.length) (hj' : j < MAXBUF) :
    (first R response)[j]? = R[j]? := by
  rw [first, List.getElem?_append_left (by rw [List.length_take]; omega),
    List.getElem?_take_of_lt hj']

/-- The first read overwrites the NUL of `strcpy`. -/
lemma receive_first (hresponse : response.length = MAXBUF) (hR : R ≠ []) {content sent} {n : ℤ} :
    Relay.receive ⟨response, content, n, sent⟩ (R.take MAXBUF) = first R response := by
  have hpos := MAXBUF_pos
  have hlength := List.length_pos_of_ne_nil hR
  show R.take MAXBUF ++ (response.set 0 0).drop (R.take MAXBUF).length = _
  rw [first, List.drop_set, if_pos (by rw [List.length_take]; omega), List.length_take]
  rcases le_total R.length MAXBUF with hle | hle
  · rw [min_eq_right hle]
  · -- a full chunk leaves nothing of the array
    rw [min_eq_left hle, List.drop_eq_nil_of_le (by omega), List.drop_eq_nil_of_le (by omega)]

lemma fits_start (cacheContent : List UInt8) (hresponse : response.length = MAXBUF)
    (hR : R.length < MAX_OBJECT_SIZE) :
    Relay.Fits ⟨response, cacheContent.set 0 0, 0, []⟩ R :=
  ⟨hresponse, le_refl 0, by show (0 : ℤ) + R.length < MAX_OBJECT_SIZE; omega⟩

/-- `strcpy` has made `cache_content` empty. -/
lemma strlen_start (hcontent : cacheContent.length = MAX_OBJECT_SIZE) :
    strlen (cacheContent.set 0 0) = some 0 :=
  strlen_of_head (List.getElem?_set_self (by rw [hcontent]; decide))

/-- What the client is sent is what the server has sent, whatever the cache gets. -/
theorem relay_spec (hresponse : response.length = MAXBUF)
    (hcontent : cacheContent.length = MAX_OBJECT_SIZE) (hR : R.length < MAX_OBJECT_SIZE)
    (h : relay R response cacheContent = some st) :
    st.sent = R ∧ st.cacheItemSize = R.length ∧ st.cacheContent.length = MAX_OBJECT_SIZE := by
  obtain ⟨hsent, hsize, hlength, -⟩ :=
    Relay.loop_spec (fits_start cacheContent hresponse hR) (strlen_start hcontent) h
  refine ⟨hsent.trans (List.nil_append R), hsize.trans (zero_add _), ?_⟩
  rw [hlength, List.length_set, hcontent]

/-- The string of the first read replaces the start of `cache_content`. -/
lemma getElem?_content (hcontent : cacheContent.length = MAX_OBJECT_SIZE)
    (hm : strlen (first R response) = some m) {content : List UInt8}
    (hcat : strcat (cacheContent.set 0 0) (first R response) = some content) :
    content[j]? = if j < m then (first R response)[j]? else if j = m then some 0 else
      cacheContent[j]? := by
  rw [getElem?_strcat (strlen_start hcontent) hm hcat, if_neg (Nat.not_lt_zero j), Nat.zero_add,
    Nat.sub_zero]
  split_ifs with hj hj'
  · rfl
  · rfl
  · rw [List.getElem?_set_ne (by omega)]

/-- The loop after the first turn, which has left `content`. -/
def afterFirst (R response content : List UInt8) : Relay :=
  ⟨first R response, content, 0 + (R.take MAXBUF).length, [] ++ R.take MAXBUF⟩

/-- The loop appends the first read, and then the others. -/
lemma relay_eq (hresponse : response.length = MAXBUF) (hR : R.length < MAX_OBJECT_SIZE)
    (hne : R ≠ []) : relay R response cacheContent =
      (strcat (cacheContent.set 0 0) (first R response)).bind fun content =>
        (afterFirst R response content).loop (reads (R.drop MAXBUF)) := by
  rw [relay, Relay.loop_reads (fits_start cacheContent hresponse hR) hne, receive_first hresponse hne]
  rfl

lemma fits_afterFirst (hresponse : response.length = MAXBUF) (hR : R.length < MAX_OBJECT_SIZE)
    (hne : R ≠ []) (content : List UInt8) :
    (afterFirst R response content).Fits (R.drop MAXBUF) := by
  have hnext := (fits_start [] hresponse hR).next content ([] ++ R.take MAXBUF)
  rwa [receive_first hresponse hne] at hnext

/-- The later chunks start with NUL. -/
lemma quiet_drop_iff : Relay.Quiet (R.drop MAXBUF) ↔
    ∀ k, 1 ≤ k → MAXBUF * k < R.length → R[MAXBUF * k]? = some 0 := by
  constructor
  · intro h k hk hlt
    obtain ⟨k, rfl⟩ : ∃ k', k = k' + 1 := ⟨k - 1, by omega⟩
    rw [Nat.mul_succ] at hlt
    have hzero := h k (by rw [List.length_drop]; omega)
    rwa [List.getElem?_drop, show MAXBUF + MAXBUF * k = MAXBUF * (k + 1) by ring] at hzero
  · intro h k hk
    rw [List.length_drop] at hk
    rw [List.getElem?_drop, show MAXBUF + MAXBUF * k = MAXBUF * (k + 1) by ring]
    apply h (k + 1) (by omega)
    rw [Nat.mul_succ]
    omega

/-- The string of the first read ends in `response`. -/
lemma lt_of_strlen_first (hresponse : response.length = MAXBUF)
    (hm : strlen (first R response) = some m) : m < MAXBUF := by
  have hlt := lt_of_strlen hm
  rwa [length_first hresponse] at hlt

/-- A later chunk that does not start with NUL would have replaced the first NUL. -/
lemma quiet_of_copy (hresponse : response.length = MAXBUF) (hR : R.length < MAX_OBJECT_SIZE)
    (hne : R ≠ []) (hm : strlen (first R response) = some m) {content : List UInt8}
    (hlen : strlen content = some m)
    (hloop : (afterFirst R response content).loop (reads (R.drop MAXBUF)) = some st)
    (hcopy : ∀ j < R.length, st.cacheContent[j]? = R[j]?) : Relay.Quiet (R.drop MAXBUF) := by
  have hlt := lt_of_strlen_first hresponse hm
  by_contra hquiet
  have hmore : MAXBUF < R.length := by
    by_contra hle
    apply hquiet
    rw [List.drop_eq_nil_of_le (not_lt.1 hle)]
    intro k hk
    exact absurd hk (Nat.not_lt_zero _)
  apply Relay.loop_of_not_quiet (fits_afterFirst hresponse hR hne content) hlen hquiet hloop
  rw [hcopy m (by omega), ← getElem?_first response (by omega) hlt]
  exact (strlen_eq_some_iff.1 hm).1

/-- Where no later chunk is appended, the first turn has copied the answer if what was there
before is right behind its first NUL. -/
lemma copy_iff (hresponse : response.length = MAXBUF)
    (hcontent : cacheContent.length = MAX_OBJECT_SIZE)
    (hm : strlen (first R response) = some m) {content : List UInt8}
    (hcat : strcat (cacheContent.set 0 0) (first R response) = some content) :
    (∀ j < R.length, content[j]? = R[j]?) ↔
      ∀ i j, R[i]? = some 0 → i < j → j < R.length → cacheContent[j]? = R[j]? := by
  have hlt := lt_of_strlen_first hresponse hm
  have hzero : m < R.length → R[m]? = some 0 := by
    intro hmR
    rw [← getElem?_first response hmR hlt]
    exact (strlen_eq_some_iff.1 hm).1
  constructor
  · intro hcopy i j hi hij hj
    have hmi : m ≤ i := by
      rcases lt_or_ge i MAXBUF with hlt' | hge
      · apply strlen_le hm
        rw [getElem?_first response (by omega) hlt', hi]
      · omega
    rw [← hcopy j hj, getElem?_content hcontent hm hcat, if_neg (by omega), if_neg (by omega)]
  · intro hstale j hj
    rw [getElem?_content hcontent hm hcat]
    split_ifs with hjm hjm'
    · exact getElem?_first response hj (by omega)
    · rw [hjm', hzero (by omega)]
    · exact hstale m j (hzero (by omega)) (by omega) hj

/-- The bytes for the cache are those of the server exactly if the answer is transparent. -/
theorem relay_iff (hresponse : response.length = MAXBUF)
    (hcontent : cacheContent.length = MAX_OBJECT_SIZE) (hR : R.length < MAX_OBJECT_SIZE) :
    (∃ st, relay R response cacheContent = some st ∧
      ∀ j < R.length, st.cacheContent[j]? = R[j]?) ↔ Transparent R response cacheContent := by
  by_cases hne : R = []
  · subst hne
    obtain ⟨_, heq⟩ := Relay.loop_reads_nil (fits_start cacheContent hresponse hR) (strlen_start hcontent)
    exact iff_of_true ⟨_, heq, fun j hj => absurd hj (Nat.not_lt_zero j)⟩ (.inl rfl)
  rw [Transparent, or_iff_right hne, relay_eq hresponse hR hne, ← quiet_drop_iff]
  constructor
  · intro h
    obtain ⟨st, hst, hcopy⟩ := h
    obtain ⟨content, hcat, hloop⟩ := Option.bind_eq_some_iff.1 hst
    obtain ⟨-, m, -, hm⟩ := exists_of_strcat hcat
    have hlen := strlen_strcat (strlen_start hcontent) hm hcat
    rw [Nat.zero_add] at hlen
    -- a copy that is right has appended nothing after the first chunk
    have hquiet := quiet_of_copy hresponse hR hne hm hlen hloop hcopy
    obtain ⟨st', hst', hsame⟩ :=
      Relay.loop_of_quiet (fits_afterFirst hresponse hR hne content) hlen hquiet
    cases hst'.symm.trans hloop
    rw [hsame] at hcopy
    exact ⟨strlen_isSome.1 ⟨m, hm⟩, hquiet, (copy_iff hresponse hcontent hm hcat).1 hcopy⟩
  · intro h
    obtain ⟨hnul, hquiet, hstale⟩ := h
    obtain ⟨m, hm⟩ := strlen_isSome.2 hnul
    have hm : strlen (first R response) = some m := hm
    have hlt := lt_of_strlen_first hresponse hm
    have hroom : 0 + m < (cacheContent.set 0 0).length := by
      rw [List.length_set, hcontent]
      unfold MAXBUF at hlt
      unfold MAX_OBJECT_SIZE
      omega
    obtain ⟨content, hcat⟩ := Option.isSome_iff_exists.1
      (Option.isSome_of_eq_some (strcat_eq (strlen_start hcontent) hm hroom))
    have hlen := strlen_strcat (strlen_start hcontent) hm hcat
    obtain ⟨st, hst, hsame⟩ :=
      Relay.loop_of_quiet (fits_afterFirst hresponse hR hne content) hlen hquiet
    refine ⟨st, ?_, ?_⟩
    · rw [hcat, Option.bind_some, hst]
    · rw [hsame]
      exact (copy_iff hresponse hcontent hm hcat).2 hstale

end Copy

/-! ## Later hits -/

/-- A legal call that puts no object with this URI. -/
def OtherStep (uri : List UInt8) (p : Cache × LruStore) (e : Call × ℕ) : Prop :=
  LegalStep p e ∧ ∀ node uri' content length, e.1 = .put node uri' content length → uri' ≠ uri

/-- After any such calls a request for the URI that hits is answered with `R`. -/
def LaterHits (uri R : List UInt8) (p : Cache × LruStore) : Prop :=
  ∀ q, Reaches storeStep (OtherStep uri) p q →
    ∀ fuel node R' response cacheContent a d,
      q.1.getCacheItem fuel uri = some (some a, d) →
      sendRequest fuel q.1 node uri R' response cacheContent = some (R, d)

/-- The client is sent `R`, the cache gets the object `R` with its length, and later clients are
sent `R` again. -/
def Relays (fuel : ℕ) (c : Cache) (st : LruStore) (node : ℕ)
    (uri R response cacheContent : List UInt8) : Prop :=
  ∃ c' st', sendRequest fuel c node uri R response cacheContent = some (R, c') ∧
    c'.Implements st' ∧ st'.entries = ⟨uri, R⟩ :: st.kept R.length ∧ LaterHits uri R (c', st')

section Later
variable {uri R : List UInt8} {c : Cache} {st : LruStore} {l : List ℕ} {p q : Cache × LruStore}
  {e : Call × ℕ}

/-- Objects with the URI have the content `R`. -/
def Only (uri R : List UInt8) (st : LruStore) : Prop := ∀ e ∈ st.entries, e.uri = uri → e.content = R

/-- Calls that put no other object with the URI keep the one that is there. -/
lemma only_step (h : Only uri R p.2) (hok : OtherStep uri p e) (he : storeStep p e = some q) :
    Only uri R q.2 := by
  obtain ⟨r, -, rfl⟩ := Option.map_eq_some_iff.1 he
  obtain ⟨c, n⟩ := e
  cases c with
  | get uri' =>
    intro e he
    exact h e (Caching.Store.toFront_subset _ _ he)
  | put node uri' content length =>
    intro e he heuri
    simp only [Call.effect] at he
    split_ifs at he
    · rcases List.mem_cons.1 he with rfl | he
      · exact absurd heuri (hok.2 node uri' content length rfl)
      · exact h e (p.2.kept_subset _ he) heuri
    · exact h e he heuri

/-- A hit writes the content of an object with the URI. -/
lemma sendRequest_hit (hrep : c.Represents st l) (honly : Only uri R st) {fuel node a : ℕ}
    {R' response cacheContent : List UInt8} {d : Cache}
    (hget : c.getCacheItem fuel uri = some (some a, d)) :
    sendRequest fuel c node uri R' response cacheContent = some (R, d) := by
  have hrun : (Call.get uri).run (max fuel (l.length + 1)) c = some (some a, d) :=
    Call.run_mono hget (le_max_left _ _)
  have hfuel : l.length < max fuel (l.length + 1) := by omega
  obtain ⟨r, d', l', hrun', -, -, hserves⟩ := hrep.get uri hfuel
  cases hrun.symm.trans hrun'
  cases hfind : st.entries.find? fun e => e.uri = uri with
  | none =>
    simp only [hfind] at hserves
    cases hserves.1
  | some e =>
    simp only [hfind] at hserves
    obtain ⟨b, hb, hentry, hlength⟩ := hserves
    cases hb
    have hfound := List.find?_some hfind
    have huri : e.uri = uri := of_decide_eq_true hfound
    have hcontent : (d.nodes a).content = R := by
      rw [← honly e (List.mem_of_find?_eq_some hfind) huri, ← hentry]
      rfl
    have hsize : (d.nodes a).length = R.length := by
      rw [hlength, Entry.size, honly e (List.mem_of_find?_eq_some hfind) huri]
    rw [sendRequest, hget, Option.bind_some]
    show (writen (d.nodes a).content (d.nodes a).length).map (fun sent => (sent, d)) = _
    rw [hcontent, hsize, writen, if_pos ⟨Int.natCast_nonneg _, le_refl _⟩, Int.toNat_natCast,
      List.take_length, Option.map_some]

/-- An object that is the only one with its URI is what later hits write. -/
lemma laterHits (hrep : c.Represents st l) (honly : Only uri R st) : LaterHits uri R (c, st) := by
  intro q hq fuel node R' response cacheContent a d hget
  have hinv : (∃ l, q.1.Represents q.2 l) ∧ Only uri R q.2 := by
    apply hq.invariant
    · exact ⟨⟨l, hrep⟩, honly⟩
    · intro p e p' hp hok he
      exact ⟨represents_step hp.1 hok.1 he, only_step hp.2 hok he⟩
  obtain ⟨⟨l', hrep'⟩, honly'⟩ := hinv
  exact sendRequest_hit hrep' honly' hget

end Later

section Request
variable {uri R response cacheContent : List UInt8} {c : Cache} {st : LruStore} {l : List ℕ}
  {node fuel : ℕ}

/-- The object that is put has the bytes that the loop has copied. -/
lemma object_eq_iff {content : List UInt8} (hlength : R.length ≤ content.length) :
    object uri (fun i => content.getD i 0) R.length = ⟨uri, R⟩ ↔
      ∀ j < R.length, content[j]? = R[j]? := by
  have hget : ∀ j < R.length, ((List.range R.length).map fun i => content.getD i 0)[j]? =
      content[j]? := by
    intro j hj
    rw [List.getElem?_map, List.getElem?_range hj, Option.map_some, List.getD_eq_getElem?_getD,
      List.getElem?_eq_getElem (by omega), Option.getD_some]
  rw [object, Int.toNat_natCast, Entry.mk.injEq, and_iff_right rfl]
  constructor
  · intro h j hj
    rw [← hget j hj, h]
  · intro h
    apply List.ext_getElem?
    intro j
    rcases lt_or_ge j R.length with hj | hj
    · rw [hget j hj, h j hj]
    · rw [List.getElem?_eq_none hj, List.getElem?_eq_none]
      rwa [List.length_map, List.length_range]

/-- A miss relays the answer and puts it. -/
lemma sendRequest_miss (hrep : c.Represents st l) (hmiss : ∀ e ∈ st.entries, e.uri ≠ uri)
    (hfuel : l.length < fuel) (hresponse : response.length = MAXBUF)
    (hcontent : cacheContent.length = MAX_OBJECT_SIZE) (hR : R.length < MAX_OBJECT_SIZE) :
    sendRequest fuel c node uri R response cacheContent =
      (relay R response cacheContent).bind fun r =>
        (c.putCacheItem fuel node uri (fun i => r.cacheContent.getD i 0) R.length).map
          fun c => (R, c) := by
  have hnone : ∀ b ∈ l, (c.nodes b).uri ≠ uri := by
    intro b hb
    apply hmiss (c.entry b)
    rw [← hrep.entries]
    exact List.mem_map_of_mem hb
  rw [sendRequest, hrep.holds.getCacheItem_miss hfuel hnone, Option.bind_some]
  cases hrelay : relay R response cacheContent with
  | none => rfl
  | some r =>
    obtain ⟨hsent, hsize, -⟩ := relay_spec hresponse hcontent hR hrelay
    show (if r.cacheItemSize < MAX_OBJECT_SIZE then _ else _) = _
    rw [hsize, hsent, if_pos (by omega)]
    rfl

/-- The loop and the put, from a state of the cache in which the URI misses. -/
lemma relays_iff_transparent (hrep : c.Represents st l) (hnode : node ∉ l)
    (hmiss : ∀ e ∈ st.entries, e.uri ≠ uri) (hfuel : l.length < fuel)
    (hresponse : response.length = MAXBUF) (hcontent : cacheContent.length = MAX_OBJECT_SIZE)
    (hR : R.length < MAX_OBJECT_SIZE) :
    Relays fuel c st node uri R response cacheContent ↔
      uri.length < 1024 ∧ Transparent R response cacheContent := by
  have hle : (R.length : ℤ) ≤ MAX_CACHE_SIZE := by
    unfold MAX_OBJECT_SIZE at hR
    unfold MAX_CACHE_SIZE
    omega
  have heffect : ∀ content : ℕ → UInt8, ((Call.put node uri content R.length).effect st).entries =
      object uri content R.length :: st.kept R.length := by
    intro content
    have hsize := size_object uri content R.length
    rw [Call.effect, dif_pos (by omega), Caching.Store.entries_add, hsize, Int.toNat_natCast]
  rw [Relays, sendRequest_miss hrep hmiss hfuel hresponse hcontent hR,
    ← relay_iff hresponse hcontent hR]
  constructor
  · intro h
    obtain ⟨c', st', hsend, himp, hentries, -⟩ := h
    obtain ⟨r, hrelay, hput⟩ := Option.bind_eq_some_iff.1 hsend
    obtain ⟨c₁, hput, heq⟩ := Option.map_eq_some_iff.1 hput
    cases heq
    obtain ⟨-, -, hlength⟩ := relay_spec hresponse hcontent hR hrelay
    -- the put has returned, so there was room for the URI
    have huri := Cache.length_uri_of_putCacheItem hput
    obtain ⟨c₂, l₂, hput', hrep'⟩ := hrep.put (fun i => r.cacheContent.getD i 0) hnode huri
      (Int.natCast_nonneg R.length) hle hfuel
    cases hput.symm.trans hput'
    have hsame := himp.unique hrep'.implements
    rw [hentries, heffect] at hsame
    exact ⟨huri, r, hrelay, (object_eq_iff (by omega)).1 (List.cons.inj hsame).1.symm⟩
  · intro h
    obtain ⟨huri, r, hrelay, hcopy⟩ := h
    obtain ⟨-, -, hlength⟩ := relay_spec hresponse hcontent hR hrelay
    obtain ⟨c', l', hput, hrep'⟩ := hrep.put (fun i => r.cacheContent.getD i 0) hnode huri
      (Int.natCast_nonneg R.length) hle hfuel
    have hentries := heffect fun i => r.cacheContent.getD i 0
    rw [(object_eq_iff (by omega)).2 hcopy] at hentries
    refine ⟨c', _, ?_, hrep'.implements, hentries, laterHits hrep' ?_⟩
    · rw [hrelay, Option.bind_some, hput, Option.map_some]
    · -- the other objects in the list have other URIs
      intro e he heuri
      rw [hentries] at he
      rcases List.mem_cons.1 he with rfl | he
      · rfl
      · exact absurd heuri (hmiss e (st.kept_subset _ he))

/-- The proxy is transparent for an answer that is small enough to be cached exactly if the URI
fits into its block and the answer and the arrays meet the condition. -/
theorem relays_iff (s₀ c : Cache) (st : LruStore)
    (h : Reaches storeStep LegalStep (storeStart s₀) (c, st)) (node : ℕ) (hnode : ¬ c.Links node)
    (uri R response cacheContent : List UInt8) (hmiss : ∀ e ∈ st.entries, e.uri ≠ uri)
    (hresponse : response.length = MAXBUF) (hcontent : cacheContent.length = MAX_OBJECT_SIZE)
    (hR : R.length < MAX_OBJECT_SIZE) :
    ∃ n, ∀ fuel, n ≤ fuel → (Relays fuel c st node uri R response cacheContent ↔
      uri.length < 1024 ∧ Transparent R response cacheContent) := by
  obtain ⟨l, hrep⟩ := represents_of_reaches h
  rw [hrep.holds.links_iff] at hnode
  refine ⟨l.length + 1, ?_⟩
  intro fuel hfuel
  exact relays_iff_transparent hrep hnode hmiss hfuel hresponse hcontent hR

/-- An answer of two chunks, of which the second starts with NUL. -/
def twoChunks : List UInt8 := List.replicate 8191 65 ++ [0, 0, 66]

/-- An array that has the end of `twoChunks` where it should be copied to. -/
def prepared : List UInt8 := List.replicate 8193 0 ++ 66 :: List.replicate 94206 67

/-- The bytes of the answer from its first NUL on. -/
lemma getElem?_twoChunks {j : ℕ} (hj : 8191 ≤ j) :
    twoChunks[j]? = [(0 : UInt8), 0, 66][j - 8191]? := by
  rw [twoChunks, List.getElem?_append_right (by rwa [List.length_replicate]),
    List.length_replicate]

lemma transparent_twoChunks : Transparent twoChunks (List.replicate MAXBUF 67) prepared := by
  have hlength : twoChunks.length = 8194 := by
    rw [twoChunks, List.length_append, List.length_replicate]
    rfl
  refine .inr ⟨?_, ?_, ?_⟩
  · apply List.mem_append_left
    rw [List.mem_iff_getElem?]
    refine ⟨8191, ?_⟩
    rw [List.getElem?_take_of_lt (by decide), getElem?_twoChunks le_rfl]
    rfl
  · intro k hk hlt
    unfold MAXBUF at hlt ⊢
    rw [hlength] at hlt
    obtain rfl : k = 1 := by omega
    rw [getElem?_twoChunks (by decide)]
    rfl
  · intro i j hi hij hj
    rw [hlength] at hj
    have hfirst : 8191 ≤ i := by
      by_contra hlt
      rw [twoChunks, List.getElem?_append_left (by rw [List.length_replicate]; omega),
        List.getElem?_replicate, if_pos (by omega)] at hi
      cases hi
    -- only two bytes come behind a NUL
    rw [getElem?_twoChunks (by omega), prepared]
    obtain rfl | rfl : j = 8192 ∨ j = 8193 := by omega
    · rw [List.getElem?_append_left (by rw [List.length_replicate]; decide),
        List.getElem?_replicate, if_pos (by decide)]
      rfl
    · rw [List.getElem?_append_right (by rw [List.length_replicate]), List.length_replicate]
      rfl

/-- The answer is put into the empty cache, and is the answer to later requests. -/
theorem relays_iff_twoChunks :
    ∃ n, ∀ fuel, n ≤ fuel → Relays fuel (storeStart Cache.unset).1 (storeStart Cache.unset).2 0
      [97, 98] twoChunks (List.replicate MAXBUF 67) prepared := by
  have hnode : ¬ (storeStart Cache.unset).1.Links 0 := by
    show ¬ Cache.unset.initializeCache.Links 0
    rw [Cache.unset.holds_initializeCache.links_iff]
    exact List.not_mem_nil
  have hprepared : prepared.length = MAX_OBJECT_SIZE := by
    rw [prepared, List.length_append, List.length_cons, List.length_replicate,
      List.length_replicate]
    rfl
  have hsmall : twoChunks.length < MAX_OBJECT_SIZE := by
    rw [twoChunks, List.length_append, List.length_replicate]
    decide
  obtain ⟨n, hn⟩ := relays_iff Cache.unset _ _ (Reaches.refl _) 0 hnode [97, 98] twoChunks
    (List.replicate MAXBUF 67) prepared (fun _ he => by cases he) List.length_replicate hprepared
    hsmall
  exact ⟨n, fun fuel hfuel => (hn fuel hfuel).2 ⟨by decide, transparent_twoChunks⟩⟩

/-- A NUL within the answer, and a byte behind it that is not there before. -/
theorem not_relayed :
    ¬ ∃ fuel, Relays fuel (storeStart Cache.unset).1 (storeStart Cache.unset).2 0 [97]
      [65, 0, 66] (List.replicate MAXBUF 0) (List.replicate MAX_OBJECT_SIZE 0) := by
  intro h
  obtain ⟨fuel, hrelays⟩ := h
  have hrep : (storeStart Cache.unset).1.Represents (storeStart Cache.unset).2 [] :=
    ⟨Cache.unset.holds_initializeCache, rfl, fun _ hb => by cases hb⟩
  cases fuel with
  | zero =>
    obtain ⟨c', st', hsend, -⟩ := hrelays
    cases hsend
  | succ fuel =>
    rw [relays_iff_transparent hrep List.not_mem_nil (fun _ he => by cases he)
      (Nat.succ_pos fuel) List.length_replicate List.length_replicate (by decide)] at hrelays
    obtain ⟨-, hnil | ⟨-, -, hstale⟩⟩ := hrelays
    · cases hnil
    · have hbyte := hstale 1 2 rfl (by decide) (by decide)
      rw [List.getElem?_replicate, if_pos (by decide)] at hbyte
      cases hbyte

end Request

end Proxylab
end SystemsLabs
