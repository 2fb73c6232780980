import SystemsLabs.Proxylab.Relay

/-!
# Bounds of the relay loop

`strcat` counts bytes up to a NUL, and `Rio_readnb` writes none: `response` has one only where the
server has sent one or where it is left from before. The loop counts the bytes of the answer in
an `int` instead, and after the loop that count decides whether the answer is put into the cache.
-/

namespace SystemsLabs
namespace Proxylab

open Memory Runs

/-! ## The strings -/

/-- The arrays and the count in front of the loop. -/
def Relay.start (response cacheContent : List UInt8) : Relay :=
  ⟨response, cacheContent.set 0 0, 0, []⟩

/-- At every `strcat` of the loop `response` has a NUL, and there is room in `cache_content`. -/
def Relay.Appends (st : Relay) : List (List UInt8) → Prop
  | [] => True
  | chunk :: rest =>
    (wrap (st.cacheItemSize + chunk.length) < MAX_OBJECT_SIZE →
      ∃ n m, strlen st.cacheContent = some n ∧ strlen (st.receive chunk) = some m ∧
        n + m < MAX_OBJECT_SIZE) ∧
      ∀ st', st.turn chunk = some st' → 0 < chunk.length → st'.Appends rest

/-- What `strcat` finds in `response`, which holds each chunk in front of what was there before.
The chunks count from `n` on, and are appended where the count, an `int`, is small. -/
def appendedArrays (response : List UInt8) (n : ℕ) : List (List UInt8) → List (List UInt8)
  | [] => []
  | chunk :: chunks =>
    let array := chunk ++ response.drop chunk.length
    let arrays := appendedArrays array (n + chunk.length) chunks
    if wrap (n + chunk.length : ℕ) < MAX_OBJECT_SIZE then array :: arrays else arrays

/-- The condition on the chunks and on what is in `response` before: there is a NUL in or behind
every chunk that is appended, and the strings up to these NULs fit together. -/
def ChunksTerminated (response : List UInt8) (chunks : List (List UInt8)) : Prop :=
  (∀ array ∈ appendedArrays response 0 chunks, (0 : UInt8) ∈ array) ∧
    ((appendedArrays response 0 chunks).map (List.idxOf 0)).sum < MAX_OBJECT_SIZE

section Chunks
variable {R response cacheContent s : List UInt8} {chunks : List (List UInt8)} {st st' : Relay}
  {n m k : ℕ}

/-- A turn goes wrong exactly if its `strcat` does. -/
lemma turn_isSome_iff (hlen : st.cacheContent.length = MAX_OBJECT_SIZE) (chunk : List UInt8) :
    (∃ st', st.turn chunk = some st') ↔
      (wrap (st.cacheItemSize + chunk.length) < MAX_OBJECT_SIZE →
        ∃ n m, strlen st.cacheContent = some n ∧ strlen (st.receive chunk) = some m ∧
          n + m < MAX_OBJECT_SIZE) := by
  rw [Relay.turn]
  split_ifs with hlt
  · constructor
    · rintro ⟨st', hst'⟩ _
      obtain ⟨content, hcat, -⟩ := Option.map_eq_some_iff.mp hst'
      obtain ⟨n, m, hn, hm⟩ := exists_of_strcat hcat
      exact ⟨n, m, hn, hm, hlen ▸ (eq_of_strcat hn hm hcat).1⟩
    · intro h
      obtain ⟨n, m, hn, hm, hnm⟩ := h hlt
      rw [strcat_eq hn hm (by rwa [hlen])]
      exact ⟨_, rfl⟩
  · exact iff_of_true ⟨_, rfl⟩ fun h => absurd h hlt

/-- What a turn leaves of the arrays and of the count. -/
lemma turn_spec {chunk : List UInt8} (h : st.turn chunk = some st') :
    st'.response = st.receive chunk ∧ st'.cacheContent.length = st.cacheContent.length ∧
      st'.cacheItemSize = wrap (st.cacheItemSize + chunk.length) ∧
      if wrap (st.cacheItemSize + chunk.length) < MAX_OBJECT_SIZE then
        strcat st.cacheContent (st.receive chunk) = some st'.cacheContent
      else st'.cacheContent = st.cacheContent := by
  obtain ⟨content, hcat, rfl⟩ := Option.map_eq_some_iff.mp h
  split_ifs at hcat ⊢
  · obtain ⟨n, m, hn, hm⟩ := exists_of_strcat hcat
    exact ⟨rfl, length_strcat hn hm hcat, rfl, hcat⟩
  · cases hcat
    exact ⟨rfl, rfl, rfl, rfl⟩

/-- The loop goes wrong exactly if one of its `strcat`s does. -/
theorem loop_isSome_iff (hlen : st.cacheContent.length = MAX_OBJECT_SIZE)
    (hne : ∀ chunk ∈ chunks, chunk ≠ []) :
    (∃ st', st.loop (chunks ++ [[]]) = some st') ↔ st.Appends (chunks ++ [[]]) := by
  induction chunks generalizing st with
  | nil =>
    rw [List.nil_append, Relay.loop, Relay.Appends, ← turn_isSome_iff hlen]
    constructor
    · rintro ⟨st', hst'⟩
      obtain ⟨st₁, hturn, -⟩ := Option.bind_eq_some_iff.mp hst'
      exact ⟨⟨st₁, hturn⟩, fun _ _ hpos => absurd hpos (Nat.lt_irrefl 0)⟩
    · rintro ⟨⟨st₁, hturn⟩, -⟩
      rw [hturn]
      exact ⟨st₁, rfl⟩
  | cons chunk chunks ih =>
    have hpos := List.length_pos_of_ne_nil (hne chunk List.mem_cons_self)
    have hrest := fun c hc => hne c (List.mem_cons_of_mem chunk hc)
    rw [List.cons_append, Relay.loop, Relay.Appends, ← turn_isSome_iff hlen]
    constructor
    · rintro ⟨st', hst'⟩
      obtain ⟨st₁, hturn, hloop⟩ := Option.bind_eq_some_iff.mp hst'
      rw [if_pos hpos] at hloop
      refine ⟨⟨st₁, hturn⟩, ?_⟩
      intro st₂ hst₂ _
      cases hturn.symm.trans hst₂
      exact (ih ((turn_spec hturn).2.1.trans hlen) hrest).mp ⟨st', hloop⟩
    · rintro ⟨⟨st₁, hturn⟩, happends⟩
      obtain ⟨st', hloop⟩ :=
        (ih ((turn_spec hturn).2.1.trans hlen) hrest).mpr (happends st₁ hturn hpos)
      rw [hturn, Option.bind_some, if_pos hpos]
      exact ⟨st', hloop⟩

/-- The length of a string is the place of its NUL. -/
lemma strlen_eq_idxOf (h : (0 : UInt8) ∈ s) : strlen s = some (s.idxOf 0) := by
  rw [strlen, List.findIdx?_eq_some_iff_findIdx_eq]
  refine ⟨List.idxOf_lt_length_of_mem h, ?_⟩
  rw [List.idxOf]
  congr 1

/-- An `int` may wrap early or late. -/
lemma wrap_add_wrap (x y : ℤ) : wrap (wrap x + y) = wrap (x + y) := Int.bmod_add_bmod

/-- A chunk overwrites the NUL that `strcpy` has written. -/
lemma receive_of_ne_nil {chunk : List UInt8} (h : chunk ≠ []) :
    st.receive chunk = chunk ++ st.response.drop chunk.length := by
  rw [Relay.receive, List.drop_set, if_pos (List.length_pos_of_ne_nil h)]

/-- The chunks are appended as they should be, where `n` bytes have come and `m` of them are in
`cache_content`. -/
theorem appends_iff (hst : 0 < st.response.length) (hsize : st.cacheItemSize = wrap n)
    (hm : strlen st.cacheContent = some m) (hlen : st.cacheContent.length = MAX_OBJECT_SIZE)
    (hne : ∀ chunk ∈ chunks, chunk ≠ []) :
    st.Appends (chunks ++ [[]]) ↔
      (∀ array ∈ appendedArrays st.response n chunks, (0 : UInt8) ∈ array) ∧
        m + ((appendedArrays st.response n chunks).map (List.idxOf 0)).sum < MAX_OBJECT_SIZE := by
  have hroom : m < MAX_OBJECT_SIZE := hlen ▸ lt_of_strlen hm
  induction chunks generalizing st n m with
  | nil =>
    -- the last read leaves the NUL of `strcpy`
    have hhead : (st.receive [])[0]? = some 0 := List.getElem?_set_self hst
    have happend : st.Appends [[]] := by
      refine ⟨fun _ => ⟨m, 0, hm, strlen_of_head hhead, hroom⟩, ?_⟩
      intro st' _ hpos
      exact absurd hpos (Nat.lt_irrefl 0)
    exact iff_of_true happend ⟨fun _ hmem => (by cases hmem), hroom⟩
  | cons chunk chunks ih =>
    have hchunk := hne chunk List.mem_cons_self
    have hpos := List.length_pos_of_ne_nil hchunk
    have hrest := fun c hc => hne c (List.mem_cons_of_mem chunk hc)
    have hcount : wrap (st.cacheItemSize + chunk.length) = wrap (n + chunk.length : ℕ) := by
      rw [hsize, wrap_add_wrap, Nat.cast_add]
    have hreceive : 0 < (st.receive chunk).length := by
      rw [receive_of_ne_nil hchunk, List.length_append]
      omega
    rw [List.cons_append, Relay.Appends, appendedArrays, ← receive_of_ne_nil hchunk, hcount]
    by_cases hlt : wrap (n + chunk.length : ℕ) < MAX_OBJECT_SIZE
    · -- this chunk is appended, so its string counts
      rw [if_pos hlt, List.forall_mem_cons, List.map_cons, List.sum_cons, ← Nat.add_assoc]
      constructor
      · rintro ⟨hfirst, happends⟩
        obtain ⟨m', k, hm', hk, hmk⟩ := hfirst hlt
        cases hm.symm.trans hm'
        have hnul := strlen_isSome.mp ⟨k, hk⟩
        cases hk.symm.trans (strlen_eq_idxOf hnul)
        obtain ⟨st', hturn⟩ := (turn_isSome_iff hlen chunk).mpr fun _ => ⟨m, _, hm, hk, hmk⟩
        obtain ⟨hresponse, hlen', hsize', hcat⟩ := turn_spec hturn
        rw [hcount, if_pos hlt] at hcat
        have hloop := (ih (by rwa [hresponse]) (hsize'.trans hcount)
          (strlen_strcat hm hk hcat) (hlen'.trans hlen) hrest hmk).mp (happends st' hturn hpos)
        rw [hresponse] at hloop
        exact ⟨⟨hnul, hloop.1⟩, hloop.2⟩
      · rintro ⟨⟨hnul, hnuls⟩, hsum⟩
        have hk := strlen_eq_idxOf hnul
        have hmk : m + (st.receive chunk).idxOf 0 < MAX_OBJECT_SIZE := by omega
        refine ⟨fun _ => ⟨m, _, hm, hk, hmk⟩, fun st' hturn _ => ?_⟩
        obtain ⟨hresponse, hlen', hsize', hcat⟩ := turn_spec hturn
        rw [hcount, if_pos hlt] at hcat
        apply (ih (by rwa [hresponse]) (hsize'.trans hcount) (strlen_strcat hm hk hcat)
          (hlen'.trans hlen) hrest hmk).mpr
        rw [hresponse]
        exact ⟨hnuls, hsum⟩
    · rw [if_neg hlt]
      obtain ⟨st', hturn⟩ := (turn_isSome_iff hlen chunk).mpr fun h => absurd (hcount ▸ h) hlt
      obtain ⟨hresponse, hlen', hsize', hkeep⟩ := turn_spec hturn
      rw [hcount, if_neg hlt] at hkeep
      have hloop := ih (by rwa [hresponse]) (hsize'.trans hcount) (hkeep ▸ hm)
        (hlen'.trans hlen) hrest hroom
      rw [hresponse] at hloop
      refine Iff.trans ?_ hloop
      constructor
      · rintro ⟨-, happends⟩
        exact happends st' hturn hpos
      · intro happends
        refine ⟨fun h => absurd h hlt, fun st₁ hst₁ _ => ?_⟩
        cases hturn.symm.trans hst₁
        exact happends

/-- The strings stay in their arrays exactly for chunks that are terminated. -/
lemma start_appends_iff (hresponse : response.length = MAXBUF)
    (hcontent : cacheContent.length = MAX_OBJECT_SIZE) (hne : ∀ chunk ∈ chunks, chunk ≠ []) :
    (Relay.start response cacheContent).Appends (chunks ++ [[]]) ↔
      ChunksTerminated response chunks := by
  have hlen : (Relay.start response cacheContent).cacheContent.length = MAX_OBJECT_SIZE := by
    rw [Relay.start, List.length_set, hcontent]
  have hpos : 0 < (Relay.start response cacheContent).response.length :=
    hresponse.symm ▸ MAXBUF_pos
  have h := appends_iff (n := 0) hpos rfl (strlen_start hcontent) hlen hne
  rw [h, Nat.zero_add]
  rfl

end Chunks

/-! ## The reads of an answer -/

/-- Read `k` of what the server sends. -/
def piece (R : List UInt8) (k : ℕ) : List UInt8 := (R.drop (MAXBUF * k)).take MAXBUF

/-- Read `k` in the array, with the end of the read before it behind it. What is in front of the
first read is `response`. -/
def window (R response : List UInt8) (k : ℕ) : List UInt8 :=
  piece R k ++ (piece (response ++ R) k).drop (piece R k).length

/-- How many reads are appended: those after which fewer than `MAX_OBJECT_SIZE` bytes have come. -/
def appended (n : ℕ) : ℕ :=
  if n < MAX_OBJECT_SIZE then (n + MAXBUF - 1) / MAXBUF else (MAX_OBJECT_SIZE - 1) / MAXBUF

/-- The condition on the answer and on what is in `response` before: there is a NUL in or behind
every read that is appended, and the strings up to these NULs fit together. -/
def Terminated (R response : List UInt8) : Prop :=
  (∀ k < appended R.length, (0 : UInt8) ∈ window R response k) ∧
    ∑ k ∈ Finset.range (appended R.length), (window R response k).idxOf 0 < MAX_OBJECT_SIZE

section Reads
variable {R response cacheContent : List UInt8} {t n : ℕ}

/-- The reads that deliver something. -/
def fullReads (R : List UInt8) : List (List UInt8) := (reads R).dropLast

/-- The reads are those that deliver something, and the last one. -/
lemma reads_eq (R : List UInt8) : reads R = fullReads R ++ [[]] := by
  induction R using reads.induct with
  | case1 =>
    rw [fullReads, reads_nil]
    rfl
  | case2 R hR ih =>
    have hne : reads (R.drop MAXBUF) ≠ [] := by
      rw [ih]
      simp
    rw [fullReads, reads_of_ne_nil hR, List.dropLast_cons_of_ne_nil hne, List.cons_append]
    exact congrArg _ ih

lemma fullReads_of_ne_nil (hR : R ≠ []) :
    fullReads R = R.take MAXBUF :: fullReads (R.drop MAXBUF) := by
  have hne : reads (R.drop MAXBUF) ≠ [] := by
    rw [reads_eq]
    simp
  rw [fullReads, reads_of_ne_nil hR, List.dropLast_cons_of_ne_nil hne]
  rfl

/-- Every read but the last one delivers something. -/
lemma ne_nil_of_mem_fullReads : ∀ chunk ∈ fullReads R, chunk ≠ [] := by
  induction R using reads.induct with
  | case1 =>
    rw [fullReads, reads_nil]
    intro chunk hchunk
    cases hchunk
  | case2 R hR ih =>
    rw [fullReads_of_ne_nil hR]
    intro chunk hchunk
    rcases List.mem_cons.1 hchunk with rfl | hchunk
    · have hpos := List.length_pos_of_ne_nil hR
      have := MAXBUF_pos
      rw [← List.length_pos_iff, List.length_take]
      omega
    · exact ih chunk hchunk

/-- The reads deliver the answer. -/
lemma flatten_fullReads (R : List UInt8) : (fullReads R).flatten = R := by
  induction R using reads.induct with
  | case1 =>
    rw [fullReads, reads_nil]
    rfl
  | case2 R hR ih =>
    rw [fullReads_of_ne_nil hR, List.flatten_cons, ih, List.take_append_drop]

/-- The count of the reads that are appended where `t` bytes have come already. -/
def appendedFrom (t n : ℕ) : ℕ :=
  if t + n < MAX_OBJECT_SIZE then (n + MAXBUF - 1) / MAXBUF else (MAX_OBJECT_SIZE - 1 - t) / MAXBUF

lemma appendedFrom_zero_left (n : ℕ) : appendedFrom 0 n = appended n := by
  rw [appendedFrom, appended, Nat.zero_add, Nat.sub_zero]

lemma appendedFrom_zero_right (t : ℕ) : appendedFrom t 0 = 0 := by
  unfold appendedFrom MAX_OBJECT_SIZE MAXBUF
  split_ifs <;> omega

/-- A read with which the bound is reached is not appended, and none behind it. -/
lemma appendedFrom_of_ge (h : MAX_OBJECT_SIZE ≤ t + min n MAXBUF) : appendedFrom t n = 0 := by
  unfold appendedFrom
  unfold MAX_OBJECT_SIZE MAXBUF at *
  split_ifs <;> omega

/-- A read below the bound is appended. -/
lemma appendedFrom_of_lt (hn : 0 < n) (h : t + min n MAXBUF < MAX_OBJECT_SIZE) :
    appendedFrom t n = appendedFrom (t + min n MAXBUF) (n - MAXBUF) + 1 := by
  unfold appendedFrom
  unfold MAX_OBJECT_SIZE MAXBUF at *
  split_ifs <;> omega

lemma piece_zero (R : List UInt8) : piece R 0 = R.take MAXBUF := by
  rw [piece, Nat.mul_zero, List.drop_zero]

/-- The pieces of the rest are the later pieces. -/
lemma piece_drop (R : List UInt8) (k : ℕ) : piece (R.drop MAXBUF) k = piece R (k + 1) := by
  rw [piece, piece, List.drop_drop, Nat.mul_succ, Nat.add_comm]

/-- Behind a full array the pieces are those of the answer. -/
lemma piece_append (hst : response.length = MAXBUF) (R : List UInt8) (k : ℕ) :
    piece (response ++ R) (k + 1) = piece R k := by
  rw [← piece_drop, List.drop_left' hst]

/-- The first read has behind it what was in the array before. -/
lemma window_zero (R : List UInt8) (hst : response.length = MAXBUF) :
    window R response 0 = R.take MAXBUF ++ response.drop (R.take MAXBUF).length := by
  rw [window, piece_zero, piece_zero, List.take_left' hst]

/-- A read fills the array or leaves its end. -/
lemma length_window (hst : response.length = MAXBUF) : (window R response 0).length = MAXBUF := by
  rw [window_zero R hst, List.length_append, List.length_drop, hst]
  have := List.length_take_le MAXBUF R
  omega

/-- The later reads are the reads of the rest. -/
lemma window_succ (hst : response.length = MAXBUF) (hR : MAXBUF ≤ R.length) (k : ℕ) :
    window (R.drop MAXBUF) (window R response 0) k = window R response (k + 1) := by
  have hfull : window R response 0 = R.take MAXBUF := by
    rw [window_zero R hst, List.length_take_of_le hR, List.drop_eq_nil_of_le hst.le,
      List.append_nil]
  rw [hfull, window, window, List.take_append_drop, piece_drop, piece_append hst]

/-- As long as the count does not overflow, the reads that are appended are the first ones. -/
lemma appendedArrays_fullReads (hst : response.length = MAXBUF) (hfit : t + R.length < 2 ^ 31) :
    appendedArrays response t (fullReads R) =
      (List.range (appendedFrom t R.length)).map (window R response) := by
  induction R using reads.induct generalizing response t with
  | case1 =>
    rw [List.length_nil, appendedFrom_zero_right, fullReads, reads_nil]
    rfl
  | case2 R hR ih =>
    have hlength : (R.take MAXBUF).length = min R.length MAXBUF := by
      rw [List.length_take, Nat.min_comm]
    have hdrop : t + min R.length MAXBUF + (R.drop MAXBUF).length = t + R.length := by
      rw [List.length_drop]
      omega
    have hwrap : wrap (t + min R.length MAXBUF : ℕ) = (t + min R.length MAXBUF : ℕ) := by
      rw [wrap_of_mem] <;> omega
    rw [fullReads_of_ne_nil hR, appendedArrays, ← window_zero R hst, hlength, hwrap,
      ih (length_window hst) (hdrop ▸ hfit)]
    split_ifs with hlt
    all_goals rw [Nat.cast_lt] at hlt
    · rw [appendedFrom_of_lt (List.length_pos_of_ne_nil hR) hlt, List.range_succ_eq_map,
        List.map_cons, List.map_map, List.length_drop]
      refine congrArg (List.cons _) (List.map_congr_left ?_)
      intro k hk
      -- a second read comes only behind a full one
      rcases Nat.lt_or_ge R.length MAXBUF with hshort | hge
      · rw [Nat.sub_eq_zero_of_le hshort.le, appendedFrom_zero_right] at hk
        cases hk
      · exact window_succ hst hge k
    · rw [appendedFrom_of_ge (not_lt.mp hlt), appendedFrom_of_ge (by omega)]
      rfl

/-- For the reads of an answer below 2^31 bytes the condition is that on its reads. -/
lemma chunksTerminated_fullReads (hst : response.length = MAXBUF) (hR : R.length < 2 ^ 31) :
    ChunksTerminated response (fullReads R) ↔ Terminated R response := by
  rw [ChunksTerminated, appendedArrays_fullReads hst (by rwa [Nat.zero_add]),
    appendedFrom_zero_left, List.forall_mem_map, List.map_map]
  simp only [List.mem_range]
  rfl

/-- The strings stay in their arrays exactly for an answer that is terminated. -/
theorem appends_iff_terminated (R response cacheContent : List UInt8)
    (hresponse : response.length = MAXBUF) (hcontent : cacheContent.length = MAX_OBJECT_SIZE)
    (hR : R.length < 2 ^ 31) :
    (Relay.start response cacheContent).Appends (reads R) ↔ Terminated R response := by
  rw [reads_eq, start_appends_iff hresponse hcontent ne_nil_of_mem_fullReads,
    chunksTerminated_fullReads hresponse hR]

/-- Of the two reads of `twoChunks` the first ends with a NUL, and the second starts with one. -/
lemma terminated_twoChunks (hst : response.length = MAXBUF) : Terminated twoChunks response := by
  have hlength : twoChunks.length = 8194 := by
    rw [twoChunks, List.length_append, List.length_replicate]
    rfl
  have hcount : appended twoChunks.length = 2 := by
    rw [hlength]
    rfl
  have hsecond : window twoChunks response 1 =
      window (twoChunks.drop MAXBUF) (window twoChunks response 0) 0 :=
    (window_succ hst (by rw [hlength]; decide) 0).symm
  have hnul : (0 : UInt8) ∈ window twoChunks response 0 := by
    rw [window_zero _ hst]
    apply List.mem_append_left
    rw [List.mem_iff_getElem?]
    refine ⟨8191, ?_⟩
    rw [List.getElem?_take_of_lt (by decide), getElem?_twoChunks le_rfl]
    rfl
  have hnul' : (0 : UInt8) ∈ window twoChunks response 1 := by
    rw [hsecond, window_zero _ (length_window hst)]
    apply List.mem_append_left
    rw [List.mem_iff_getElem?]
    refine ⟨0, ?_⟩
    rw [List.getElem?_take_of_lt MAXBUF_pos, List.getElem?_drop, getElem?_twoChunks (by decide)]
    rfl
  have hfirst := List.idxOf_lt_length_of_mem hnul
  have hlast := List.idxOf_lt_length_of_mem hnul'
  rw [length_window hst] at hfirst
  rw [hsecond, length_window (length_window hst), ← hsecond] at hlast
  rw [Terminated, hcount, Finset.sum_range_succ, Finset.sum_range_one]
  refine ⟨?_, ?_⟩
  · intro k hk
    obtain rfl | rfl : k = 0 ∨ k = 1 := by omega
    · exact hnul
    · exact hnul'
  · unfold MAXBUF at hfirst hlast
    unfold MAX_OBJECT_SIZE
    omega

theorem appends_iff_terminated_twoChunks :
    (Relay.start (List.replicate MAXBUF 67) (List.replicate MAX_OBJECT_SIZE 67)).Appends
      (reads twoChunks) :=
  (appends_iff_terminated twoChunks _ _ List.length_replicate List.length_replicate
    (by rw [twoChunks, List.length_append, List.length_replicate]; decide)).2
    (terminated_twoChunks List.length_replicate)

/-- An answer that fills `response` without a NUL. -/
theorem not_appends :
    ¬ (Relay.start (List.replicate MAXBUF 0) (List.replicate MAX_OBJECT_SIZE 0)).Appends
      (reads (List.replicate MAXBUF 65)) := by
  have hne : List.replicate MAXBUF (65 : UInt8) ≠ [] := List.cons_ne_nil _ _
  have hsize : wrap ((Relay.start (List.replicate MAXBUF 0)
      (List.replicate MAX_OBJECT_SIZE 0)).cacheItemSize + (MAXBUF : ℕ)) < MAX_OBJECT_SIZE := by
    decide
  rw [reads_of_ne_nil hne, List.take_of_length_le List.length_replicate.le]
  rintro ⟨hfirst, -⟩
  rw [List.length_replicate] at hfirst
  obtain ⟨-, m, -, hm, -⟩ := hfirst hsize
  have hnul := strlen_isSome.mp ⟨m, hm⟩
  rw [Relay.receive, List.length_replicate, List.drop_eq_nil_of_le, List.append_nil,
    List.mem_replicate] at hnul
  · exact absurd hnul.2 (by decide)
  · rw [List.length_set]
    exact List.length_replicate.le

end Reads

/-! ## The size of the answer -/

/-- The length with which `put_cache_item` is called after the loop. -/
def Relay.put (st : Relay) : Option ℤ :=
  if st.cacheItemSize < MAX_OBJECT_SIZE then some st.cacheItemSize else none

/-- Wherever the cache may be when an object of this length is put, the eviction loop ends. -/
def EvictionEnds (length : ℤ) : Prop :=
  ∀ (s₀ c c' : Cache) (lru : LruStore), Reaches storeStep LegalStep (storeStart s₀) (c, lru) →
    ∀ node, ¬ c.Links node → ∀ (uri : List UInt8) (content : ℕ → UInt8),
      c.createNode node uri content length = some c' →
      ∃ n, ∀ fuel, n ≤ fuel → (c'.evict length fuel).isSome

/-- An answer in these chunks is put exactly if it is small, and then with its length. Whatever is
put has a length that the cache can take. -/
def PutsSmall (st : Relay) (chunks : List (List UInt8)) : Prop :=
  ((∃ length, st.put = some length) ↔ chunks.flatten.length < MAX_OBJECT_SIZE) ∧
    ∀ length, st.put = some length →
      length = chunks.flatten.length ∧ 0 ≤ length ∧ length ≤ MAX_CACHE_SIZE ∧ EvictionEnds length

/-- The count does not come out below the bound after an overflow. -/
def CountsRight (n : ℕ) : Prop :=
  n < MAX_OBJECT_SIZE ∨ MAX_OBJECT_SIZE ≤ n % 2 ^ 32 ∧ n % 2 ^ 32 < 2 ^ 31

section Size
variable {response cacheContent : List UInt8} {chunks : List (List UInt8)} {st st' : Relay}
  {length : ℤ}

/-- The loop counts the bytes of all chunks. -/
lemma cacheItemSize_loop (hne : ∀ chunk ∈ chunks, chunk ≠ [])
    (hloop : st.loop (chunks ++ [[]]) = some st') :
    st'.cacheItemSize = wrap (st.cacheItemSize + chunks.flatten.length) := by
  induction chunks generalizing st with
  | nil =>
    obtain ⟨st₁, hturn, hst₁⟩ := Option.bind_eq_some_iff.mp hloop
    cases hst₁
    exact (turn_spec hturn).2.2.1
  | cons chunk chunks ih =>
    have hpos := List.length_pos_of_ne_nil (hne chunk List.mem_cons_self)
    obtain ⟨st₁, hturn, hrest⟩ := Option.bind_eq_some_iff.mp hloop
    rw [if_pos hpos] at hrest
    rw [ih (fun c hc => hne c (List.mem_cons_of_mem chunk hc)) hrest, (turn_spec hturn).2.2.1,
      wrap_add_wrap, List.flatten_cons, List.length_append, Nat.cast_add, add_assoc]

/-- The eviction loop ends for a length that the cache can take. -/
lemma evictionEnds_of_le (hnonneg : 0 ≤ length) (hle : length ≤ MAX_CACHE_SIZE) :
    EvictionEnds length := by
  intro s₀ c c' lru hreach node hnode uri content hcreate
  obtain ⟨l, hrep⟩ := represents_of_reaches hreach
  rw [hrep.holds.links_iff] at hnode
  refine ⟨l.length + 1, ?_⟩
  intro fuel hfuel
  obtain ⟨d, hevict, -⟩ := (hrep.holds.createNode hnode hcreate).evict hnonneg hle hfuel
  rw [hevict, Option.isSome_some]

lemma wrap_natCast (n : ℕ) : wrap n =
    if n % 2 ^ 32 < 2 ^ 31 then ((n % 2 ^ 32 : ℕ) : ℤ) else ((n % 2 ^ 32 : ℕ) : ℤ) - 2 ^ 32 := by
  rw [wrap, Int.bmod_def]
  split_ifs <;> omega

/-- What the count decides about the answer. -/
lemma putsSmall_iff_countsRight (hsize : st.cacheItemSize = wrap chunks.flatten.length) :
    PutsSmall st chunks ↔ CountsRight chunks.flatten.length := by
  rw [wrap_natCast] at hsize
  rw [PutsSmall, CountsRight]
  generalize chunks.flatten.length = L at hsize ⊢
  have hbound : MAX_OBJECT_SIZE = 102400 := rfl
  constructor
  · rintro ⟨hputs, -⟩
    rw [Relay.put] at hputs
    -- a length that wraps to a small or a negative number would be put
    by_contra hcond
    have hlt : st.cacheItemSize < MAX_OBJECT_SIZE := by
      rw [hsize]
      split_ifs <;> omega
    rw [if_pos hlt] at hputs
    have hsmall := hputs.mp ⟨_, rfl⟩
    omega
  · intro hcond
    rcases hcond with hsmall | ⟨hge, hlt⟩
    · have hsize' : st.cacheItemSize = L := by
        rw [hsize, Nat.mod_eq_of_lt (by omega), if_pos (by omega)]
      rw [Relay.put, hsize', if_pos (by omega)]
      refine ⟨iff_of_true ⟨_, rfl⟩ hsmall, ?_⟩
      rintro length ⟨⟩
      have hle : (L : ℤ) ≤ MAX_CACHE_SIZE := by
        unfold MAX_CACHE_SIZE
        omega
      exact ⟨rfl, by omega, hle, evictionEnds_of_le (by omega) hle⟩
    · rw [if_pos hlt] at hsize
      rw [Relay.put, hsize, if_neg (by omega)]
      refine ⟨iff_of_false (by simp) ?_, by simp⟩
      have := Nat.mod_le L (2 ^ 32)
      omega

/-- The loop ends and answers are put as they should be exactly where the strings stay in their
arrays and the count does not come out below the bound after an overflow. -/
theorem putsSmall_iff (chunks : List (List UInt8)) (hne : ∀ chunk ∈ chunks, chunk ≠ [])
    (response cacheContent : List UInt8) (hresponse : response.length = MAXBUF)
    (hcontent : cacheContent.length = MAX_OBJECT_SIZE) :
    (∃ st, (Relay.start response cacheContent).loop (chunks ++ [[]]) = some st ∧
        PutsSmall st chunks) ↔
      ChunksTerminated response chunks ∧ CountsRight chunks.flatten.length := by
  have hlen : (Relay.start response cacheContent).cacheContent.length = MAX_OBJECT_SIZE := by
    rw [Relay.start, List.length_set, hcontent]
  have hsize : ∀ st, (Relay.start response cacheContent).loop (chunks ++ [[]]) = some st →
      st.cacheItemSize = wrap chunks.flatten.length := by
    intro st hloop
    rw [cacheItemSize_loop hne hloop]
    exact congrArg wrap (zero_add _)
  rw [← start_appends_iff hresponse hcontent hne, ← loop_isSome_iff hlen hne]
  constructor
  · rintro ⟨st, hloop, hputs⟩
    exact ⟨⟨st, hloop⟩, (putsSmall_iff_countsRight (hsize st hloop)).mp hputs⟩
  · rintro ⟨⟨st, hloop⟩, hcount⟩
    exact ⟨st, hloop, (putsSmall_iff_countsRight (hsize st hloop)).mpr hcount⟩

/-- Two reads are put as one object. -/
theorem putsSmall_iff_twoChunks :
    ∃ st, (Relay.start (List.replicate MAXBUF 67) (List.replicate MAX_OBJECT_SIZE 67)).loop
        (fullReads twoChunks ++ [[]]) = some st ∧ PutsSmall st (fullReads twoChunks) := by
  have hlength : twoChunks.length = 8194 := by
    rw [twoChunks, List.length_append, List.length_replicate]
    rfl
  apply (putsSmall_iff (fullReads twoChunks) ne_nil_of_mem_fullReads _ _ List.length_replicate
    List.length_replicate).mpr
  refine ⟨(chunksTerminated_fullReads List.length_replicate (by rw [hlength]; decide)).mpr
    (terminated_twoChunks List.length_replicate), .inl ?_⟩
  rw [flatten_fullReads, hlength]
  decide

/-- What is appended begins with a chunk. -/
lemma exists_of_mem_appendedArrays {array : List UInt8} {n : ℕ}
    (h : array ∈ appendedArrays response n chunks) : ∃ chunk ∈ chunks, chunk <+: array := by
  induction chunks generalizing response n with
  | nil => cases h
  | cons chunk chunks ih =>
    rw [appendedArrays] at h
    have hrest : ∀ {m}, array ∈ appendedArrays (chunk ++ response.drop chunk.length) m chunks →
        ∃ c ∈ chunk :: chunks, c <+: array := by
      intro m hmem
      obtain ⟨c, hc, hpre⟩ := ih hmem
      exact ⟨c, List.mem_cons_of_mem _ hc, hpre⟩
    split_ifs at h
    · rcases List.mem_cons.1 h with rfl | h
      · exact ⟨chunk, List.mem_cons_self, List.prefix_append _ _⟩
      · exact hrest h
    · exact hrest h

/-- Chunks that start with NUL are appended as empty strings. -/
lemma chunksTerminated_of_zeros (hzero : ∀ chunk ∈ chunks, ∃ rest, chunk = (0 : UInt8) :: rest) :
    ChunksTerminated response chunks := by
  have hhead : ∀ array ∈ appendedArrays response 0 chunks, ∃ rest, array = (0 : UInt8) :: rest := by
    intro array harray
    obtain ⟨chunk, hchunk, t, rfl⟩ := exists_of_mem_appendedArrays harray
    obtain ⟨rest, rfl⟩ := hzero chunk hchunk
    exact ⟨rest ++ t, List.cons_append⟩
  constructor
  · intro array harray
    obtain ⟨rest, rfl⟩ := hhead array harray
    exact List.mem_cons_self
  · rw [List.sum_eq_zero]
    · decide
    · intro x hx
      obtain ⟨array, harray, rfl⟩ := List.mem_map.1 hx
      obtain ⟨rest, rfl⟩ := hhead array harray
      exact List.idxOf_cons_self

/-- An answer of 2 ^ 31 zeros is put with a negative length. -/
theorem not_putsSmall :
    ∃ st, (Relay.start (List.replicate MAXBUF 0) (List.replicate MAX_OBJECT_SIZE 0)).loop
        (List.replicate (2 ^ 18) (List.replicate MAXBUF 0) ++ [[]]) = some st ∧
      ¬ PutsSmall st (List.replicate (2 ^ 18) (List.replicate MAXBUF 0)) := by
  have hzero : ∀ chunk ∈ List.replicate (2 ^ 18) (List.replicate MAXBUF (0 : UInt8)),
      ∃ rest, chunk = (0 : UInt8) :: rest :=
    fun chunk hc => ⟨List.replicate 8191 0, (List.mem_replicate.mp hc).2⟩
  have hne : ∀ chunk ∈ List.replicate (2 ^ 18) (List.replicate MAXBUF (0 : UInt8)),
      chunk ≠ [] := by
    intro chunk hc
    obtain ⟨rest, rfl⟩ := hzero chunk hc
    exact List.cons_ne_nil _ _
  have hlength : (List.replicate (2 ^ 18) (List.replicate MAXBUF (0 : UInt8))).flatten.length =
      2 ^ 31 := by
    rw [List.length_flatten, List.map_replicate, List.sum_replicate, List.length_replicate, MAXBUF]
    rfl
  have hlen : (Relay.start (List.replicate MAXBUF 0)
      (List.replicate MAX_OBJECT_SIZE 0)).cacheContent.length = MAX_OBJECT_SIZE := by
    rw [Relay.start, List.length_set, List.length_replicate]
  obtain ⟨st, hloop⟩ := (loop_isSome_iff hlen hne).mpr ((start_appends_iff List.length_replicate
    List.length_replicate hne).mpr (chunksTerminated_of_zeros hzero))
  have hsize : st.cacheItemSize =
      wrap (List.replicate (2 ^ 18) (List.replicate MAXBUF (0 : UInt8))).flatten.length :=
    (cacheItemSize_loop hne hloop).trans (congrArg wrap (zero_add _))
  refine ⟨st, hloop, fun hputs => ?_⟩
  have hcount := (putsSmall_iff_countsRight hsize).mp hputs
  rw [hlength] at hcount
  revert hcount
  unfold CountsRight MAX_OBJECT_SIZE
  omega

end Size

end Proxylab
end SystemsLabs
