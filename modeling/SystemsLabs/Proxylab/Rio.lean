import SystemsLabs.Posix.Streams

/-!
# Robust input and output

`rio_readn` and `rio_writen` repeat a system call until all bytes are there. `rio_readnb` and
`rio_readlineb` read through `rio_read`, which has a buffer in front of the descriptor. All of
them see what is left of the stream as its unread bytes in the buffer and then those that the
descriptor still delivers, so that short reads, interruptions and refills do not show.
-/

namespace SystemsLabs
namespace Proxylab

open Posix

def RIO_BUFSIZE : ℕ := 8192

variable {α : Type*}

/-! ## The functions -/

/-- `rio_t`, where `src` is what `rio_fd` refers to. -/
structure Rio (α : Type*) where
  src : Source α
  cnt : ℤ
  bufptr : ℕ
  buf : List α

namespace Rio

/-- `rio_readinitb(rp, fd)`, which does not initialise the buffer. -/
def readinitb (src : Source α) (buf : List α) : Rio α := ⟨src, 0, 0, buf⟩

/-- The end of `rio_read`: `cnt` bytes are copied out of the buffer. -/
def copy (rp : Rio α) (n : ℕ) : Option (Except Errno (List α) × Rio α) :=
  let cnt := if rp.cnt < n then rp.cnt else n
  if rp.bufptr + cnt ≤ rp.buf.length then
    some (.ok ((rp.buf.drop rp.bufptr).take cnt.toNat),
      { rp with bufptr := rp.bufptr + cnt.toNat, cnt := rp.cnt - cnt })
  else none

/-- The loop of `rio_read`, and what comes behind it. -/
def readLoop (n : ℕ) : (fuel : ℕ) → Rio α → Option (Except Errno (List α) × Rio α)
  | 0, _ => none
  | fuel + 1, rp =>
    if rp.cnt ≤ 0 then
      match rp.src.read RIO_BUFSIZE with
      | none => none
      | some (.error .EINTR, src) => readLoop n fuel { rp with src := src, cnt := -1 }
      | some (.error .other, src) => some (.error .other, { rp with src := src, cnt := -1 })
      | some (.ok [], src) => some (.ok [], { rp with src := src, cnt := 0 })
      | some (.ok chunk, src) =>
        readLoop n fuel ⟨src, chunk.length, 0, chunk ++ rp.buf.drop chunk.length⟩
    else rp.copy n

/-- `rio_read(rp, usrbuf, n)`. -/
def read (n : ℕ) (rp : Rio α) : Option (Except Errno (List α) × Rio α) :=
  readLoop n (rp.src.answers.length + 1) rp

/-- `rio_readn(fd, usrbuf, n)`: what it returns, and what it has written to `usrbuf`. -/
def readn (n : ℕ) (src : Source α) : Option (ℤ × List α × Source α) :=
  readFully Source.read n (n + src.answers.length + 1) n [] src

/-- `rio_readnb(rp, usrbuf, n)`, which has the loop of `rio_readn`. -/
def readnb (n : ℕ) (rp : Rio α) : Option (ℤ × List α × Rio α) :=
  readFully read n (n + rp.src.answers.length + 1) n [] rp

/-- The loop of `rio_readlineb`, where `k` more bytes may be read. -/
def readlinebLoop [DecidableEq α] (newline : α) :
    (k : ℕ) → List α → Rio α → Option (ℤ × List α × Rio α)
  | 0, line, rp => some (line.length + 1, line, rp)
  | k + 1, line, rp =>
    match read 1 rp with
    | none => none
    | some (.error _, rp) => some (-1, line, rp)
    | some (.ok [], rp) => some (if line = [] then 0 else line.length + 1, line, rp)
    | some (.ok (c :: _), rp) =>
      if c = newline then some (line.length + 1, line ++ [c], rp)
      else readlinebLoop newline k (line ++ [c]) rp

/-- `rio_readlineb(rp, usrbuf, maxlen)`: what it returns, and what it has written to `usrbuf`.
Behind that it writes a NUL if it returns something positive. -/
def readlineb [DecidableEq α] (newline : α) (maxlen : ℕ) (rp : Rio α) :
    Option (ℤ × List α × Rio α) :=
  readlinebLoop newline (maxlen - 1) [] rp

/-- The loop of `rio_writen`. -/
def writenLoop (n : ℤ) : (fuel : ℕ) → List α → Sink α → Option (ℤ × Sink α)
  | _, [], snk => some (n, snk)
  | 0, _ :: _, _ => none
  | fuel + 1, b :: left, snk =>
    match snk.write (b :: left) with
    | none => none
    | some (nwritten, snk) =>
      if nwritten ≤ 0 then
        -- what a call that wrote nothing leaves in `errno` is the error of an earlier one
        if snk.errno = .EINTR then writenLoop n fuel (b :: left) snk else some (-1, snk)
      else writenLoop n fuel ((b :: left).drop nwritten.toNat) snk

/-- `rio_writen(fd, usrbuf, n)`, where `bytes` are the `n` bytes of `usrbuf`. -/
def writen (bytes : List α) (snk : Sink α) : Option (ℤ × Sink α) :=
  writenLoop bytes.length (snk.answers.length + 1) bytes snk

end Rio

/-! ## The buffer -/

namespace Rio
variable {rp rp' : Rio α} {n fuel : ℕ} {chunk : List α} {r : Except Errno (List α)} {e : Errno}

/-- The unread bytes lie in the buffer. -/
structure Valid (rp : Rio α) : Prop where
  buf : rp.buf.length = RIO_BUFSIZE
  room : 0 < rp.cnt → rp.bufptr + rp.cnt ≤ RIO_BUFSIZE

def unread (rp : Rio α) : List α := (rp.buf.drop rp.bufptr).take rp.cnt.toNat

/-- What is left of the stream. -/
def rest (rp : Rio α) : List α := rp.unread ++ rp.src.bytes

def answers (rp : Rio α) : List Answer := rp.src.answers

/-- An empty buffer has nothing left to deliver. -/
lemma unread_of_nonpos (h : rp.cnt ≤ 0) : rp.unread = [] := by
  rw [unread, Int.toNat_of_nonpos h, List.take_zero]

/-- With an empty buffer the rest is that of the file. -/
lemma rest_of_nonpos (h : rp.cnt ≤ 0) : rp.rest = rp.src.bytes := by
  rw [rest, unread_of_nonpos h, List.nil_append]

/-- A new buffer is empty. -/
lemma valid_init (src : Source α) {buf : List α} (hbuf : buf.length = RIO_BUFSIZE) :
    (readinitb src buf).Valid where
  buf := hbuf
  room h := absurd h (lt_irrefl 0)

/-- A new buffer has delivered nothing. -/
lemma rest_init (src : Source α) (buf : List α) : (readinitb src buf).rest = src.bytes :=
  rest_of_nonpos (le_refl (0 : ℤ))

/-- The buffer after a `read`. -/
def refilled (rp : Rio α) (src : Source α) (chunk : List α) : Rio α :=
  ⟨src, chunk.length, 0, chunk ++ rp.buf.drop chunk.length⟩

/-- A refilled buffer has all that was read still to deliver. -/
lemma Valid.refilled (h : rp.Valid) (src : Source α) (hchunk : chunk.length ≤ RIO_BUFSIZE) :
    (rp.refilled src chunk).Valid where
  buf := by
    show (chunk ++ rp.buf.drop chunk.length).length = RIO_BUFSIZE
    rw [List.length_append, List.length_drop, h.buf]
    omega
  room _ := by
    show ((0 : ℕ) : ℤ) + (chunk.length : ℤ) ≤ RIO_BUFSIZE
    omega

/-- What is unread is what has just been read. -/
lemma unread_refilled (rp : Rio α) (src : Source α) (chunk : List α) :
    (rp.refilled src chunk).unread = chunk := by
  show ((chunk ++ rp.buf.drop chunk.length).drop 0).take (chunk.length : ℤ).toNat = chunk
  rw [List.drop_zero, Int.toNat_natCast, List.take_left]

/-- A piece is copied out of a buffer that is not empty. -/
lemma Valid.copy_eq (h : rp.Valid) (hcnt : 0 < rp.cnt) (n : ℕ) : ∃ rp',
    rp.copy n = some (.ok (rp.unread.take n), rp') ∧ rp'.Valid ∧ rp'.src = rp.src ∧
      rp'.unread = rp.unread.drop n := by
  have hroom := h.room hcnt
  have hbuf := h.buf
  have hif : (if rp.cnt < n then rp.cnt else (n : ℤ)) = min n rp.cnt.toNat := by
    split_ifs with hlt <;> omega
  have hle : (rp.bufptr : ℤ) + ((min n rp.cnt.toNat : ℕ) : ℤ) ≤ rp.buf.length := by omega
  refine ⟨{ rp with
      bufptr := rp.bufptr + min n rp.cnt.toNat, cnt := rp.cnt - (min n rp.cnt.toNat : ℕ) },
    ?_, ⟨hbuf, ?_⟩, rfl, ?_⟩
  · rw [copy]
    simp only [hif, if_pos hle, Int.toNat_natCast]
    rw [unread, List.take_take]
  · show 0 < rp.cnt - (min n rp.cnt.toNat : ℕ) →
      ((rp.bufptr + min n rp.cnt.toNat : ℕ) : ℤ) + (rp.cnt - (min n rp.cnt.toNat : ℕ)) ≤ RIO_BUFSIZE
    omega
  · show (rp.buf.drop (rp.bufptr + min n rp.cnt.toNat)).take
      (rp.cnt - (min n rp.cnt.toNat : ℕ)).toNat = _
    rw [unread, List.drop_take, List.drop_drop]
    rcases le_total n rp.cnt.toNat with hn | hn
    · rw [min_eq_left hn, show (rp.cnt - (n : ℤ)).toNat = rp.cnt.toNat - n by omega]
    · -- the whole of the buffer
      rw [min_eq_right hn, show (rp.cnt - (rp.cnt.toNat : ℤ)).toNat = 0 by omega,
        Nat.sub_eq_zero_of_le hn, List.take_zero, List.take_zero]

/-- What the call makes of a stream: it takes a piece from the front, or it fails. -/
structure Took (rp rp' : Rio α) (n : ℕ) (r : Except Errno (List α)) : Prop where
  valid : rp'.Valid
  ok : ∀ chunk, r = .ok chunk → rp.rest = chunk ++ rp'.rest ∧ chunk.length ≤ n ∧
    (0 < n → chunk = [] → rp.rest = []) ∧ calls rp.answers ≤ calls rp'.answers + 1
  error : ∀ e, r = .error e →
    e = .other ∧ rp'.rest = rp.rest ∧ Answer.fails .other ∈ rp.answers
  subset : rp'.answers ⊆ rp.answers
  interruptions : interruptions rp'.answers ≤ interruptions rp.answers

/-- Without a refill the bytes come from the buffer. -/
lemma Took.of_copy (h : rp.Valid) (hcnt : 0 < rp.cnt) (hcopy : rp.copy n = some (r, rp')) :
    Took rp rp' n r ∧ calls rp.answers ≤ calls rp'.answers := by
  obtain ⟨rp'', heq, hvalid, hsrc, hunread⟩ := h.copy_eq hcnt n
  cases heq.symm.trans hcopy
  have hanswers : rp'.answers = rp.answers := by rw [answers, hsrc, answers]
  have hpos : 0 < rp.unread.length := by
    have hroom := h.room hcnt
    have hbuf := h.buf
    rw [unread, List.length_take, List.length_drop]
    omega
  refine ⟨⟨hvalid, ?_, ?_, ?_, ?_⟩, ?_⟩
  · intro chunk hchunk
    cases hchunk
    refine ⟨?_, List.length_take_le n _, ?_, ?_⟩
    · rw [rest, rest, hunread, hsrc, ← List.append_assoc, List.take_append_drop]
    · intro hn hnil
      have hlength := congrArg List.length hnil
      rw [List.length_take, List.length_nil] at hlength
      omega
    · rw [hanswers]
      omega
  · intro e he
    cases he
  · rw [hanswers]
    exact List.Subset.refl _
  · rw [hanswers]
  · rw [hanswers]

/-- One answer has been used up before. -/
lemma Took.cons {rp₁ : Rio α} {a : Answer} (h : Took rp₁ rp' n r) (hrest : rp₁.rest = rp.rest)
    (hanswers : rp.answers = a :: rp₁.answers)
    (hcalls : ∀ chunk, r = .ok chunk → calls rp.answers ≤ calls rp'.answers + 1) :
    Took rp rp' n r where
  valid := h.valid
  ok := by
    intro chunk hchunk
    obtain ⟨htakes, hle, hnil, -⟩ := h.ok chunk hchunk
    rw [hrest] at htakes hnil
    exact ⟨htakes, hle, hnil, hcalls chunk hchunk⟩
  error := by
    intro e he
    obtain ⟨hother, hsame, hmem⟩ := h.error e he
    refine ⟨hother, hsame.trans hrest, ?_⟩
    rw [hanswers]
    exact List.mem_cons_of_mem a hmem
  subset := by
    rw [hanswers]
    exact List.subset_cons_of_subset a h.subset
  interruptions := by
    have hle := h.interruptions
    rw [hanswers]
    unfold Posix.interruptions at hle ⊢
    rw [List.countP_cons]
    omega

/-- Behind a `read` that failed the buffer is empty. -/
lemma Valid.failed (h : rp.Valid) (src : Source α) : Valid { rp with src := src, cnt := -1 } :=
  ⟨h.buf, fun hpos => absurd hpos (show ¬ (0 : ℤ) < -1 by decide)⟩

section Reads
variable {src : Source α} (h : rp.Valid) (hcnt : rp.cnt ≤ 0)
include h hcnt

/-- A failed read takes nothing. -/
lemma Took.of_failed (hread : rp.src.read RIO_BUFSIZE = some (.error .other, src)) :
    Took rp { rp with src := src, cnt := -1 } n (.error .other) := by
  obtain ⟨hbytes, hanswers⟩ := Source.read_error hread
  refine ⟨h.failed src, ?_, ?_, ?_, ?_⟩
  · intro chunk hchunk
    cases hchunk
  · intro e he
    cases he
    refine ⟨rfl, ?_, ?_⟩
    · rw [rest_of_nonpos hcnt, rest_of_nonpos (show (-1 : ℤ) ≤ 0 by decide), hbytes]
    · rw [answers, hanswers]
      exact List.mem_cons_self
  · rw [answers, answers, hanswers]
    exact List.subset_cons_self _ _
  · rw [answers, answers, hanswers, interruptions_answered (by decide)]

/-- At the end of the file nothing is left. -/
lemma Took.of_end (hread : rp.src.read RIO_BUFSIZE = some (.ok [], src)) :
    Took rp { rp with src := src, cnt := 0 } n (.ok []) := by
  obtain ⟨hinv, -⟩ := Source.reader.takes trivial hread
  have hnil := Source.reader.ends trivial (by decide) hread
  obtain ⟨hleft, hint⟩ := Source.answered.once trivial hread
  obtain ⟨a, hanswers⟩ := Source.answers_of_read hread
  rw [List.nil_append] at hinv
  refine ⟨⟨h.buf, fun hpos => absurd hpos (lt_irrefl 0)⟩, ?_, ?_, ?_, hint⟩
  · intro chunk hchunk
    cases hchunk
    refine ⟨?_, Nat.zero_le n, fun _ _ => ?_, hleft⟩
    · rw [rest_of_nonpos hcnt, rest_of_nonpos (le_refl (0 : ℤ)), List.nil_append, hinv]
    · rw [rest_of_nonpos hcnt, hnil]
  · intro e he
    cases he
  · rw [answers, answers, hanswers]
    exact List.subset_cons_self _ _

/-- With a refill the bytes come from what has been read. -/
lemma Took.of_refill (hne : chunk ≠ [])
    (hread : rp.src.read RIO_BUFSIZE = some (.ok chunk, src))
    (hcopy : (rp.refilled src chunk).copy n = some (r, rp')) : Took rp rp' n r := by
  obtain ⟨htakes, hle⟩ := Source.reader.takes trivial hread
  obtain ⟨m, -, -, -, -, k, hanswers⟩ := Source.read_ok hread
  have hcnt' : 0 < (rp.refilled src chunk).cnt := by
    show 0 < (chunk.length : ℤ)
    exact_mod_cast List.length_pos_iff.2 hne
  obtain ⟨htook, hcalls⟩ := Took.of_copy (h.refilled src hle) hcnt' hcopy
  refine htook.cons ?_ hanswers ?_
  · rw [rest_of_nonpos hcnt, rest, unread_refilled, htakes]
    rfl
  · intro _ _
    rw [answers, hanswers, calls_answered (by intro heq; cases heq)]
    exact Nat.succ_le_succ hcalls

end Reads

/-- By induction on the interruptions; a `read` that delivers something ends the loop. -/
lemma took_of_loop (h : rp.Valid) (hloop : readLoop n fuel rp = some (r, rp')) :
    Took rp rp' n r := by
  induction fuel generalizing rp with
  | zero => cases hloop
  | succ fuel ih =>
    rw [readLoop] at hloop
    by_cases hcnt : rp.cnt ≤ 0
    · rw [if_pos hcnt] at hloop
      split at hloop
      · cases hloop
      · rename_i src hread
        obtain ⟨hbytes, hanswers⟩ := Source.read_error hread
        have htook := ih (h.failed src) hloop
        refine htook.cons ?_ hanswers ?_
        · rw [rest_of_nonpos hcnt, rest_of_nonpos (show (-1 : ℤ) ≤ 0 by decide), hbytes]
        · intro chunk hchunk
          obtain ⟨-, -, -, hle⟩ := htook.ok chunk hchunk
          rw [answers, hanswers, calls_interrupted]
          exact hle
      · rename_i src hread
        cases hloop
        exact Took.of_failed h hcnt hread
      · rename_i src hread
        cases hloop
        exact Took.of_end h hcnt hread
      · rename_i chunk src hne hread
        have hchunk : chunk ≠ [] := by
          rintro rfl
          exact hne rfl
        -- the loop stops at once, and copies
        refine Took.of_refill h hcnt hchunk hread ?_
        cases fuel with
        | zero => cases hloop
        | succ fuel =>
          have hpos := List.length_pos_iff.2 hchunk
          rw [readLoop, if_neg (by show ¬ (chunk.length : ℤ) ≤ 0; omega)] at hloop
          exact hloop
    · rw [if_neg hcnt] at hloop
      exact (Took.of_copy h (not_le.1 hcnt) hloop).1

/-- Every call takes a piece of what is left, or nothing. -/
lemma took_of_read (h : rp.Valid) (hread : read n rp = some (r, rp')) : Took rp rp' n r :=
  took_of_loop h hread

/-- `rio_read` takes from what is left of the stream. -/
lemma reader : Reader (read (α := α)) Valid rest where
  keeps h hread := (took_of_read h hread).valid
  takes := by
    intro n rp chunk rp' h hread
    obtain ⟨htakes, hle, -, -⟩ := (took_of_read h hread).ok chunk rfl
    exact ⟨htakes, hle⟩
  ends := by
    intro n rp rp' h hn hread
    obtain ⟨-, -, hnil, -⟩ := (took_of_read h hread).ok [] rfl
    exact hnil hn rfl
  fails := by
    intro n rp e rp' h hread
    exact ((took_of_read h hread).error e rfl).2.1

/-- The loop ends when a call of `read` is answered and not interrupted. -/
lemma isSome_loop (h : rp.Valid) (hcalls : 0 < calls rp.answers)
    (hfuel : rp.answers.length < fuel) : (readLoop n fuel rp).isSome := by
  induction fuel generalizing rp with
  | zero => omega
  | succ fuel ih =>
    have hsome := Source.answered.returns (n := RIO_BUFSIZE) (s := rp.src) trivial hcalls
    rw [readLoop]
    by_cases hcnt : rp.cnt ≤ 0
    · rw [if_pos hcnt]
      split
      · rename_i hread
        rw [hread] at hsome
        exact hsome
      · rename_i src hread
        obtain ⟨-, hanswers⟩ := Source.read_error hread
        rw [answers, hanswers] at hcalls hfuel
        rw [calls_interrupted] at hcalls
        rw [List.length_cons] at hfuel
        exact ih ⟨h.buf, fun hpos => absurd hpos (show ¬ (0 : ℤ) < -1 by decide)⟩ hcalls
          (Nat.lt_of_succ_lt_succ hfuel)
      · rfl
      · rfl
      · rename_i chunk src hne hread
        obtain ⟨-, hle⟩ := Source.reader.takes trivial hread
        have hpos : 0 < chunk.length := by
          rw [List.length_pos_iff]
          intro hnil
          subst hnil
          exact hne rfl
        obtain ⟨a, hanswers⟩ := Source.answers_of_read hread
        rw [answers, hanswers, List.length_cons] at hfuel
        obtain ⟨fuel, rfl⟩ : ∃ m, fuel = m + 1 := ⟨fuel - 1, by omega⟩
        obtain ⟨rp', hcopy, -⟩ := (h.refilled src hle).copy_eq
          (by show 0 < (chunk.length : ℤ); omega) n
        rw [readLoop, if_neg (by show ¬ (chunk.length : ℤ) ≤ 0; omega)]
        exact Option.isSome_iff_exists.2 ⟨_, hcopy⟩
    · rw [if_neg hcnt]
      obtain ⟨rp', hcopy, -⟩ := h.copy_eq (not_le.1 hcnt) n
      exact Option.isSome_iff_exists.2 ⟨_, hcopy⟩

/-- A call uses up one answer at most. -/
lemma answered : Answered (read (α := α)) Valid answers where
  returns h hcalls := isSome_loop h hcalls (Nat.lt_succ_self _)
  once := by
    intro n rp chunk rp' h hread
    have htook := took_of_read h hread
    exact ⟨(htook.ok chunk rfl).2.2.2, htook.interruptions⟩
  interrupted := by
    intro n rp rp' h hread
    exact absurd ((took_of_read h hread).error _ rfl).1 (by decide)

end Rio

end Proxylab
end SystemsLabs
