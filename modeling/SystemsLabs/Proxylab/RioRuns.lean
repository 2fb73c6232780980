import SystemsLabs.Proxylab.Rio
import SystemsLabs.Runs.Machine

/-!
# Runs of the buffered functions

Calls of `rio_readnb` and `rio_readlineb` on one `rio_t`, in any order. Whatever the system
does, the bytes that the calls hand over and what is left of the stream are together the stream.
Where no `read` fails, the calls hand over what they would take from the stream itself, so that
what they return does not depend on how the stream arrives.
-/

namespace SystemsLabs
namespace Proxylab
namespace Rio

open Posix Runs

variable {α : Type*}

/-! ## Reading from the stream itself -/

section Ideal
variable [DecidableEq α] (newline : α)

/-- The next line of a stream, or `k` bytes of it. -/
def lineOf : (k : ℕ) → List α → List α
  | 0, _ => []
  | _, [] => []
  | k + 1, c :: l => if c = newline then [c] else c :: lineOf k l

/-- What `rio_readlineb` returns with `line`, where it may read `k` bytes. Its count includes
the NUL where the line has no newline. -/
def lineCount (k : ℕ) (line : List α) : ℤ :=
  if line = [] ∧ 0 < k then 0
  else if line.getLast? = some newline then line.length else line.length + 1

/-- A call on a `rio_t`. -/
inductive Call
  | readnb (n : ℕ)
  | readlineb (maxlen : ℕ)

/-- A call: what it returns, the bytes it hands over, and the `rio_t` after it. -/
def Call.run : Call → Rio α → Option (ℤ × List α × Rio α)
  | readnb n, rp => rp.readnb n
  | readlineb maxlen, rp => rp.readlineb newline maxlen

/-- What the call would return with the stream before it. -/
def Call.ideal : Call → List α → ℤ × List α
  | readnb n, l => ((l.take n).length, l.take n)
  | readlineb maxlen, l => (lineCount newline (maxlen - 1) (lineOf newline (maxlen - 1) l),
      lineOf newline (maxlen - 1) l)

/-- The calls of `read` that a call makes at most, interrupted ones aside. -/
def Call.cost : Call → ℕ
  | readnb n => n + 1
  | readlineb maxlen => maxlen - 1

/-- What the calls would return with the stream before them, and what they leave of it. -/
def ideal : List Call → List α → List (ℤ × List α) × List α
  | [], l => ([], l)
  | c :: cs, l =>
    let r := c.ideal newline l
    let (rs, l) := ideal cs (l.drop r.2.length)
    (r :: rs, l)

end Ideal

/-- A `rio_t`, and what the calls on it have returned. -/
structure Session (α : Type*) where
  rp : Rio α
  log : List (ℤ × List α)

/-- The bytes that have been handed over. -/
def Session.taken (s : Session α) : List α := s.log.flatMap Prod.snd

def Session.step [DecidableEq α] (newline : α) (s : Session α) (c : Call) : Option (Session α) :=
  (c.run newline s.rp).map fun (rc, got, rp) => ⟨rp, s.log ++ [(rc, got)]⟩

/-- The start, with a buffer that is not initialised. -/
def Session.start (src : Source α) (buf : List α) : Session α := ⟨readinitb src buf, []⟩

/-! ## One call -/

section Calls
variable {rp rp' : Rio α} {n : ℕ} {rc : ℤ} {got : List α}

/-- A valid `rio_t` no `read` of which will fail. -/
def Steady (rp : Rio α) : Prop := rp.Valid ∧ Unfailing rp.answers

/-- As long as no `read` fails, `rio_read` is a reader. -/
lemma steadyReader : Reader (read (α := α)) Steady rest :=
  reader.and fun h hun hread hmem => hun ((took_of_read h hread).subset hmem)

/-- Then only interruptions are left. -/
lemma Steady.error {e : Errno} (h : rp.Steady) (hread : rp.read n = some (.error e, rp')) :
    e = .EINTR :=
  absurd ((took_of_read h.1 hread).error e rfl).2.2 h.2

/-- What `rio_readnb` returns is the front of what was left. -/
lemma readnb_spec (h : rp.Valid) (hrun : rp.readnb n = some (rc, got, rp')) :
    rp'.Valid ∧ rp.rest = got ++ rp'.rest ∧
      (rc = got.length ∧ got = rp.rest.take n ∨ rc = -1 ∧ got.length < n) :=
  reader.readFully_spec h (Nat.zero_add n) hrun

/-- Without failures it is all that was asked for, as far as there is as much. -/
lemma Steady.readnb_eq (h : rp.Steady) (hrun : rp.readnb n = some (rc, got, rp')) :
    rp'.Steady ∧ rp.rest = got ++ rp'.rest ∧ got = rp.rest.take n ∧ rc = got.length ∧
      calls rp.answers ≤ calls rp'.answers + (n + 1) := by
  obtain ⟨hsteady, happend, hrc | hrc⟩ := steadyReader.readFully_spec h (Nat.zero_add n) hrun
  · exact ⟨hsteady, happend, hrc.2, hrc.1,
      (answered.and _).calls_le_of_readFully steadyReader Steady.error h hrun⟩
  · exact absurd hrc.1 (steadyReader.readFully_nonneg Steady.error h (Nat.zero_add n) hrun)

/-- `rio_readnb` returns if enough calls are answered. -/
lemma isSome_readnb (h : rp.Valid) (hcalls : n < calls rp.answers) : (rp.readnb n).isSome := by
  apply answered.readFully_isSome reader h hcalls
  have hle : interruptions rp.answers ≤ rp.answers.length := List.countP_le_length
  show n + interruptions rp.answers < n + rp.answers.length + 1
  omega

/-- `rio_readn` and `rio_readnb` deliver the same, whatever the answers to the one and to the
other are. The one leaves the rest of the stream in the descriptor, and the other leaves up to a
buffer of it in the `rio_t`. -/
theorem readn_agrees {R buf : List α} {as as' : List Answer} (hbuf : buf.length = RIO_BUFSIZE)
    (hun : Unfailing as) (hun' : Unfailing as') (hcalls : n < calls as) (hcalls' : n < calls as') :
    ∃ src rp, readn n ⟨R, as⟩ = some (((R.take n).length : ℤ), R.take n, src) ∧ src.bytes = R.drop n ∧
      readnb n (readinitb ⟨R, as'⟩ buf) = some (((R.take n).length : ℤ), R.take n, rp) ∧
      rp.unread ++ rp.src.bytes = R.drop n ∧ rp.unread.length ≤ RIO_BUFSIZE := by
  have hreader : Reader (Source.read (α := α)) (fun src => True ∧ Unfailing src.answers)
      Source.bytes := Source.reader.and fun _ hun hread => Source.unfailing_of_read hun hread
  have hsteady : ∀ {n : ℕ} {src : Source α} {e : Errno} {src' : Source α},
      (True ∧ Unfailing src.answers) → src.read n = some (.error e, src') → e = .EINTR := by
    intro n src e src' h hread
    cases e with
    | EINTR => rfl
    | other =>
      obtain ⟨-, hanswers⟩ := Source.read_error hread
      exact absurd (hanswers ▸ List.mem_cons_self) h.2
  have hle : interruptions as ≤ as.length := List.countP_le_length
  obtain ⟨⟨rc, got, src⟩, hrun⟩ := Option.isSome_iff_exists.1
    (Source.answered.readFully_isSome (n := n) (s := ⟨R, as⟩) Source.reader trivial hcalls
      (show n + interruptions as < n + as.length + 1 by omega) [])
  obtain ⟨-, happend, hrc | hrc⟩ := hreader.readFully_spec ⟨trivial, hun⟩ (Nat.zero_add n) hrun
  swap
  · exact absurd hrc.1 (hreader.readFully_nonneg hsteady ⟨trivial, hun⟩ (Nat.zero_add n) hrun)
  obtain ⟨hcount, hgot⟩ := hrc
  rw [List.nil_append] at hgot happend
  obtain ⟨⟨rc', got', rp⟩, hrun'⟩ :=
    Option.isSome_iff_exists.1 (isSome_readnb (valid_init ⟨R, as'⟩ hbuf) hcalls')
  obtain ⟨hsteady', happend', hgot', hcount', -⟩ :=
    Steady.readnb_eq ⟨valid_init ⟨R, as'⟩ hbuf, hun'⟩ hrun'
  rw [rest_init] at hgot' happend'
  subst hgot
  subst hgot'
  refine ⟨src, rp, ?_, ?_, ?_, ?_, ?_⟩
  · rw [readn, hrun, hcount]
  · exact List.append_cancel_left (happend.symm.trans (List.take_append_drop n R).symm)
  · rw [hrun', hcount']
  · exact List.append_cancel_left (happend'.symm.trans (List.take_append_drop n R).symm)
  · rw [unread, List.length_take, List.length_drop, hsteady'.1.buf]
    omega

theorem readn_agrees_short : ∃ (src : Source ℕ) (rp : Rio ℕ),
    readn 2 ⟨[1, 2, 3], [.moves 1, .fails .EINTR, .moves 5, .moves 1]⟩ = some (2, [1, 2], src) ∧
      src.bytes = [3] ∧
      readnb 2 (readinitb ⟨[1, 2, 3], [.moves 9, .moves 1, .moves 1]⟩ (List.replicate 8192 0)) =
        some (2, [1, 2], rp) ∧
      rp.unread ++ rp.src.bytes = [3] ∧ rp.unread.length ≤ RIO_BUFSIZE :=
  readn_agrees List.length_replicate (by decide) (by decide) (by decide) (by decide)

section Lines
variable [DecidableEq α] {newline c : α} {k : ℕ} {line line' l : List α}

lemma lineOf_nil (k : ℕ) : lineOf newline k [] = [] := by
  cases k <;> rfl

/-- A line is read character by character. -/
lemma lineOf_cons : lineOf newline (k + 1) (c :: l) =
    if c = newline then [c] else c :: lineOf newline k l := rfl

/-- The count for a line without its newline, with `k` bytes more to come at most. -/
lemma lineCount_open (hline : newline ∉ line) (hk : line = [] → k = 0) :
    lineCount newline (line.length + k) line = line.length + 1 := by
  have hlast : line.getLast? ≠ some newline := fun h => hline (List.mem_of_getLast? h)
  rw [lineCount, if_neg, if_neg hlast]
  intro h
  obtain ⟨hnil, hpos⟩ := h
  rw [hnil, hk hnil] at hpos
  exact absurd hpos (lt_irrefl 0)

/-- By induction on the bytes that may still be read. `line` has been read before, and the
newline is not in it. -/
lemma readlinebLoop_spec (h : rp.Valid) (hline : newline ∉ line)
    (hloop : readlinebLoop newline k line rp = some (rc, line', rp')) :
    rp'.Valid ∧ rp'.answers ⊆ rp.answers ∧ line ++ rp.rest = line' ++ rp'.rest ∧
      (line' = line ++ lineOf newline k rp.rest ∧
          rc = lineCount newline (line.length + k) line' ∧
          calls rp.answers ≤ calls rp'.answers + k ∨
        rc = -1 ∧ Answer.fails .other ∈ rp.answers) := by
  induction k generalizing line rp with
  | zero =>
    cases hloop
    refine ⟨h, List.Subset.refl _, rfl, Or.inl ⟨?_, ?_, le_refl _⟩⟩
    · rw [lineOf, List.append_nil]
    · rw [lineCount_open hline (fun _ => rfl)]
  | succ k ih =>
    rw [readlinebLoop] at hloop
    split at hloop
    · cases hloop
    · rename_i e rp₁ hread
      cases hloop
      have htook := took_of_read h hread
      obtain ⟨-, hrest, hmem⟩ := htook.error e rfl
      refine ⟨htook.valid, htook.subset, ?_, Or.inr ⟨rfl, hmem⟩⟩
      rw [hrest]
    · -- the end of the stream
      rename_i rp₁ hread
      cases hloop
      have htook := took_of_read h hread
      obtain ⟨happend, -, hnil, hcalls⟩ := htook.ok [] rfl
      have hend := hnil Nat.one_pos rfl
      rw [List.nil_append] at happend
      refine ⟨htook.valid, htook.subset, ?_, Or.inl ⟨?_, ?_, by omega⟩⟩
      · rw [happend]
      · rw [hend, lineOf_nil, List.append_nil]
      · split_ifs with hempty
        · rw [hempty, lineCount, if_pos ⟨rfl, by omega⟩]
        · rw [lineCount_open hline (fun hnil => absurd hnil hempty)]
    · rename_i c chunk rp₁ hread
      have htook := took_of_read h hread
      obtain ⟨happend, hle, -, hcalls⟩ := htook.ok (c :: chunk) rfl
      -- no more than one byte has been asked for
      have hchunk : chunk = [] := by
        rw [List.length_cons] at hle
        exact List.length_eq_zero_iff.1 (by omega)
      rw [hchunk, List.singleton_append] at happend
      rw [happend, lineOf_cons]
      by_cases hc : c = newline
      · rw [if_pos hc] at hloop
        cases hloop
        refine ⟨htook.valid, htook.subset, by simp, Or.inl ⟨?_, ?_, by omega⟩⟩
        · rw [if_pos hc]
        · rw [lineCount, if_neg (by simp), if_pos (by simp [hc]), List.length_append]
          rfl
      · rw [if_neg hc] at hloop
        have hline' : newline ∉ line ++ [c] := by
          simp [hline, Ne.symm hc]
        obtain ⟨hvalid, hsubset, hsame, hrc⟩ := ih htook.valid hline' hloop
        refine ⟨hvalid, fun a ha => htook.subset (hsubset ha), ?_, ?_⟩
        · rw [← hsame, List.append_assoc, List.singleton_append]
        · rw [if_neg hc]
          obtain ⟨heq, hcount, hleft⟩ | ⟨hrc, hmem⟩ := hrc
          · refine Or.inl ⟨?_, ?_, by omega⟩
            · rw [heq, List.append_assoc, List.singleton_append]
            · rw [hcount, List.length_append, List.length_singleton, Nat.add_assoc,
                Nat.add_comm 1 k]
          · exact Or.inr ⟨hrc, htook.subset hmem⟩

/-- `rio_readlineb` returns if enough calls are answered. -/
lemma isSome_readlinebLoop (h : rp.Valid) (hcalls : k ≤ calls rp.answers) (line : List α) :
    (readlinebLoop newline k line rp).isSome := by
  induction k generalizing line rp with
  | zero => rfl
  | succ k ih =>
    have hsome := answered.returns (n := 1) h (Nat.zero_lt_of_lt hcalls)
    rw [readlinebLoop]
    split
    · rename_i hread
      rw [hread] at hsome
      exact hsome
    · rfl
    · rfl
    · rename_i c chunk rp₁ hread
      have htook := took_of_read h hread
      obtain ⟨-, -, -, hleft⟩ := htook.ok _ rfl
      split_ifs
      · rfl
      · exact ih htook.valid (by omega) _

end Lines

section Runs
variable [DecidableEq α] {newline : α} {c : Call}

/-- What one call hands over is gone from the front of the stream. -/
lemma Call.run_spec (h : rp.Valid) (hrun : c.run newline rp = some (rc, got, rp')) :
    rp'.Valid ∧ rp.rest = got ++ rp'.rest := by
  cases c with
  | readnb n =>
    obtain ⟨hvalid, happend, -⟩ := readnb_spec h hrun
    exact ⟨hvalid, happend⟩
  | readlineb maxlen =>
    obtain ⟨hvalid, -, happend, -⟩ := readlinebLoop_spec h List.not_mem_nil hrun
    exact ⟨hvalid, happend⟩

/-- One call returns what it would return with the stream before it. -/
lemma Call.run_ideal (newline : α) (h : rp.Steady) (hcost : c.cost ≤ calls rp.answers) :
    ∃ rp', c.run newline rp =
        some ((c.ideal newline rp.rest).1, (c.ideal newline rp.rest).2, rp') ∧ rp'.Steady ∧
      rp'.rest = rp.rest.drop (c.ideal newline rp.rest).2.length ∧
      calls rp.answers ≤ calls rp'.answers + c.cost := by
  cases c with
  | readnb n =>
    obtain ⟨⟨rc, got, rp'⟩, hrun⟩ := Option.isSome_iff_exists.1 (isSome_readnb h.1 hcost)
    obtain ⟨hsteady, happend, hgot, hrc, hcalls⟩ := h.readnb_eq hrun
    refine ⟨rp', ?_, hsteady, ?_, hcalls⟩
    · rw [run, hrun, hrc, hgot]
      rfl
    · show rp'.rest = rp.rest.drop (rp.rest.take n).length
      rw [← hgot, happend, List.drop_left]
  | readlineb maxlen =>
    have hcost : maxlen - 1 ≤ calls rp.answers := hcost
    have hsome : (readlinebLoop newline (maxlen - 1) [] rp).isSome := isSome_readlinebLoop h.1 hcost []
    obtain ⟨⟨rc, got, rp'⟩, hrun⟩ := Option.isSome_iff_exists.1 hsome
    obtain ⟨hvalid, hsubset, happend, hrc⟩ := readlinebLoop_spec h.1 List.not_mem_nil hrun
    obtain ⟨hline, hcount, hcalls⟩ | ⟨-, hmem⟩ := hrc
    · rw [List.nil_append] at hline happend
      rw [List.length_nil, Nat.zero_add] at hcount
      refine ⟨rp', ?_, ⟨hvalid, fun hmem => h.2 (hsubset hmem)⟩, ?_, hcalls⟩
      · show readlinebLoop newline (maxlen - 1) [] rp = _
        rw [hrun, hcount, hline]
        rfl
      · show rp'.rest = rp.rest.drop (lineOf newline (maxlen - 1) rp.rest).length
        rw [← hline, happend, List.drop_left]
    · exact absurd hmem h.2

end Runs

end Calls

/-! ## Runs -/

namespace Session
variable {s s' : Session α} {src : Source α} {buf : List α}

/-- The buffer is in order, and nothing of the stream is lost. -/
structure Keeps (stream : List α) (s : Session α) : Prop where
  valid : s.rp.Valid
  all : stream = s.taken ++ s.rp.rest

lemma keeps_start (hbuf : buf.length = RIO_BUFSIZE) : Keeps src.bytes (start src buf) where
  valid := valid_init src hbuf
  all := (rest_init src buf).symm

/-- What a call returns is taken. -/
lemma taken_append (s : Session α) (rp : Rio α) (rc : ℤ) (got : List α) :
    taken ⟨rp, s.log ++ [(rc, got)]⟩ = s.taken ++ got := by
  simp [taken]

section Newlines
variable [DecidableEq α] {newline : α} {cs : List Call} {c : Call}

/-- What a call takes is gone from the rest, and nothing else is. -/
lemma Keeps.step {stream : List α} (h : Keeps stream s) (hstep : s.step newline c = some s') :
    Keeps stream s' := by
  obtain ⟨⟨rc, got, rp⟩, hrun, rfl⟩ := Option.map_eq_some_iff.1 hstep
  obtain ⟨hvalid, happend⟩ := Call.run_spec h.valid hrun
  refine ⟨hvalid, ?_⟩
  rw [taken_append, List.append_assoc]
  exact happend ▸ h.all

/-- However the stream arrives, and whichever calls fail: the bytes handed over by the calls,
one after the other, and what is left are the stream. -/
theorem nothing_lost (hbuf : buf.length = RIO_BUFSIZE)
    (h : Reaches (step newline) (fun _ _ => True) (start src buf) s) :
    src.bytes = s.taken ++ s.rp.rest :=
  (h.invariant (keeps_start hbuf) fun _ _ _ hs _ hstep => hs.step hstep).all

/-- Call after call returns what the ideal reader returns. -/
lemma after_ideal (newline : α) (cs : List Call) (h : s.rp.Steady)
    (hcost : (cs.map Call.cost).sum ≤ calls s.rp.answers) :
    ∃ s', after (step newline) s cs = some s' ∧
      s'.log = s.log ++ (ideal newline cs s.rp.rest).1 ∧
      s'.rp.rest = (ideal newline cs s.rp.rest).2 := by
  induction cs generalizing s with
  | nil => exact ⟨s, rfl, (List.append_nil _).symm, rfl⟩
  | cons c cs ih =>
    rw [List.map_cons, List.sum_cons] at hcost
    obtain ⟨rp, hrun, hsteady, hrest, hcalls⟩ :=
      Call.run_ideal newline h (Nat.le_of_add_right_le hcost)
    have hstep : s.step newline c = some ⟨rp, s.log ++ [c.ideal newline s.rp.rest]⟩ := by
      rw [step, hrun]
      rfl
    obtain ⟨s', hafter, hlog, hrest'⟩ :=
      ih (s := ⟨rp, s.log ++ [c.ideal newline s.rp.rest]⟩) hsteady (by show _ ≤ calls rp.answers; omega)
    refine ⟨s', after_cons_eq_some.2 ⟨_, hstep, hafter⟩, ?_, ?_⟩
    · rw [hlog, List.append_assoc, List.singleton_append, hrest]
      rfl
    · rw [hrest', hrest]
      rfl

theorem nothing_lost_line : ∃ s, step '\n' (start ⟨"ab\ncd".toList, List.replicate 9 (.moves 4)⟩
    (List.replicate 8192 'x')) (.readlineb 10) = some s ∧
      "ab\ncd".toList = s.taken ++ s.rp.rest := by
  obtain ⟨s, hafter, -⟩ := after_ideal '\n' [.readlineb 10]
    (s := start ⟨"ab\ncd".toList, List.replicate 9 (.moves 4)⟩ (List.replicate 8192 'x'))
    ⟨valid_init _ List.length_replicate, by decide⟩ (by decide)
  obtain ⟨t, hstep, ht⟩ := after_cons_eq_some.1 hafter
  cases ht
  exact ⟨s, hstep, nothing_lost List.length_replicate ((Reaches.refl _).tail trivial hstep)⟩

/-- If no `read` fails and enough of them are answered, every call returns, and with what it
would have returned with the stream before it: short reads, interruptions, refills and earlier
calls of the other function do not show. -/
theorem calls_return_ideal (hbuf : buf.length = RIO_BUFSIZE) (hun : Unfailing src.answers)
    (hcost : (cs.map Call.cost).sum ≤ calls src.answers) :
    ∃ s, after (step newline) (start src buf) cs = some s ∧
      s.log = (ideal newline cs src.bytes).1 ∧ s.rp.rest = (ideal newline cs src.bytes).2 := by
  have hsteady : (start src buf).rp.Steady := ⟨valid_init src hbuf, hun⟩
  obtain ⟨s, hafter, hlog, hrest⟩ := after_ideal newline cs hsteady hcost
  have hstart : (start src buf).rp.rest = src.bytes := rest_init src buf
  rw [hstart] at hlog hrest
  exact ⟨s, hafter, hlog, hrest⟩

theorem calls_return_ideal_line : ∃ s,
    after (step '\n') (start ⟨"ab\ncd".toList, .fails .EINTR :: List.replicate 14 (.moves 1)⟩
        (List.replicate 8192 'x')) [.readlineb 10, .readnb 4] = some s ∧
      s.log = [(3, "ab\n".toList), (2, "cd".toList)] ∧ s.rp.rest = [] :=
  calls_return_ideal List.length_replicate (by decide) (by decide)

end Newlines

end Session

end Rio
end Proxylab
end SystemsLabs
