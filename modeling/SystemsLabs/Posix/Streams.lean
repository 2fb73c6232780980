import Mathlib.Data.List.Count
import Mathlib.Tactic

/-!
# Reading and writing piece by piece

A `read` may deliver less than it is asked for and a `write` may take less than it is given,
and a signal may interrupt either of them. How the coming calls are answered is a list, so to
speak about all lists is to speak about everything that the system may do. Where no answer is
left a call does not return.

Whoever needs all of `n` elements repeats the call. `Reader` says what this rests on, for the
system call as well as for a reader with a buffer in front of it.
-/

namespace SystemsLabs
namespace Posix

inductive Errno
  | EINTR
  | other
deriving DecidableEq

/-- The answer to a call: it moves `k` elements if there are as many, or it fails. -/
inductive Answer
  | moves (k : ℕ)
  | fails (e : Errno)
deriving DecidableEq

/-- An open file that is read: what comes until its end, and the answers to the coming calls. -/
structure Source (α : Type*) where
  bytes : List α
  answers : List Answer

/-- An open file that is written, with the `errno` that the last failure has left. -/
structure Sink (α : Type*) where
  bytes : List α
  errno : Errno
  answers : List Answer

section Calls
variable {α : Type*}

/-- `read`, which delivers nothing only where nothing is asked for or the file ends. -/
def Source.read (n : ℕ) (src : Source α) : Option (Except Errno (List α) × Source α) :=
  match src.answers with
  | [] => none
  | .moves k :: answers =>
    let m := min n (max 1 k)
    some (.ok (src.bytes.take m), ⟨src.bytes.drop m, answers⟩)
  | .fails e :: answers => some (.error e, ⟨src.bytes, answers⟩)

/-- `write`, which returns -1 where it fails. -/
def Sink.write (bytes : List α) (snk : Sink α) : Option (ℤ × Sink α) :=
  match snk.answers with
  | [] => none
  | .moves k :: answers =>
    let chunk := bytes.take k
    some (chunk.length, ⟨snk.bytes ++ chunk, snk.errno, answers⟩)
  | .fails e :: answers => some (-1, ⟨snk.bytes, e, answers⟩)

/-- The calls still answered, and the interruptions among the answers. -/
def calls (answers : List Answer) : ℕ := answers.countP (· ≠ .fails .EINTR)

def interruptions (answers : List Answer) : ℕ := answers.countP (· = .fails .EINTR)

/-- No call fails but by an interruption. -/
def Unfailing (answers : List Answer) : Prop := Answer.fails .other ∉ answers

instance (answers : List Answer) : Decidable (Unfailing answers) := inferInstanceAs (Decidable (_ ∉ _))

lemma Unfailing.of_cons {a : Answer} {answers : List Answer} (h : Unfailing (a :: answers)) :
    Unfailing answers := fun hmem => h (List.mem_cons_of_mem a hmem)

/-- An interruption is no answered call. -/
lemma calls_interrupted (answers : List Answer) :
    calls (.fails .EINTR :: answers) = calls answers := by
  simp [calls]

lemma calls_answered {a : Answer} (ha : a ≠ .fails .EINTR) (answers : List Answer) :
    calls (a :: answers) = calls answers + 1 := by
  simp [calls, ha]

lemma interruptions_interrupted (answers : List Answer) :
    interruptions (.fails .EINTR :: answers) = interruptions answers + 1 := by
  simp [interruptions]

lemma interruptions_answered {a : Answer} (ha : a ≠ .fails .EINTR) (answers : List Answer) :
    interruptions (a :: answers) = interruptions answers := by
  simp [interruptions, ha]

end Calls

/-! ## Readers -/

section Readers
variable {σ α : Type*}

/-- Seen from what is left, `read` takes a piece from its front. It takes nothing only at the
end, and where it fails. -/
structure Reader (read : ℕ → σ → Option (Except Errno (List α) × σ)) (Inv : σ → Prop)
    (rest : σ → List α) : Prop where
  keeps : ∀ {n s r s'}, Inv s → read n s = some (r, s') → Inv s'
  takes : ∀ {n s chunk s'}, Inv s → read n s = some (.ok chunk, s') →
    rest s = chunk ++ rest s' ∧ chunk.length ≤ n
  ends : ∀ {n s s'}, Inv s → 0 < n → read n s = some (.ok [], s') → rest s = []
  fails : ∀ {n s e s'}, Inv s → read n s = some (.error e, s') → rest s' = rest s

/-- A call returns while answers are left, and uses at most one of them up. -/
structure Answered (read : ℕ → σ → Option (Except Errno (List α) × σ)) (Inv : σ → Prop)
    (answers : σ → List Answer) : Prop where
  returns : ∀ {n s}, Inv s → 0 < calls (answers s) → (read n s).isSome
  once : ∀ {n s chunk s'}, Inv s → read n s = some (.ok chunk, s') →
    calls (answers s) ≤ calls (answers s') + 1 ∧
      interruptions (answers s') ≤ interruptions (answers s)
  interrupted : ∀ {n s s'}, Inv s → read n s = some (.error .EINTR, s') →
    calls (answers s) ≤ calls (answers s') ∧
      interruptions (answers s') < interruptions (answers s)

/-- Reads until `n` elements are there, with `nleft` of them to go and `got` there already. An
interrupted call is made again. -/
def readFully (read : ℕ → σ → Option (Except Errno (List α) × σ)) (n : ℕ) :
    (fuel nleft : ℕ) → List α → σ → Option (ℤ × List α × σ)
  | _, 0, got, s => some (n, got, s)
  | 0, _ + 1, _, _ => none
  | fuel + 1, nleft + 1, got, s =>
    match read (nleft + 1) s with
    | none => none
    | some (.error .EINTR, s) => readFully read n fuel (nleft + 1) got s
    | some (.error .other, s) => some (-1, got, s)
    | some (.ok [], s) => some (n - (nleft + 1 : ℕ), got, s)
    | some (.ok chunk, s) => readFully read n fuel (nleft + 1 - chunk.length) (got ++ chunk) s

variable {read : ℕ → σ → Option (Except Errno (List α) × σ)} {Inv : σ → Prop}
  {rest : σ → List α} {answers : σ → List Answer} {n fuel nleft : ℕ} {got got' chunk : List α}
  {s s' : σ} {rc : ℤ}

/-- A piece that a call takes from the front, out of what `nleft` elements are wanted of. -/
lemma take_drop_of_append {l t : List α} (h : l = chunk ++ t) (hle : chunk.length ≤ nleft) :
    l.take nleft = chunk ++ t.take (nleft - chunk.length) ∧
      l.drop nleft = t.drop (nleft - chunk.length) := by
  constructor
  · rw [h, List.take_append, List.take_of_length_le hle]
  · rw [h, List.drop_append, List.drop_eq_nil_of_le hle, List.nil_append]

/-- The count that is returned is that of the elements read. They are all that was left, or as
many as were wanted. Where a call fails, what was read before is gone from the front. -/
theorem Reader.readFully_spec (hR : Reader read Inv rest) (hs : Inv s)
    (hn : got.length + nleft = n) (h : readFully read n fuel nleft got s = some (rc, got', s')) :
    Inv s' ∧ got ++ rest s = got' ++ rest s' ∧
      (rc = got'.length ∧ got' = got ++ (rest s).take nleft ∨ rc = -1 ∧ got'.length < n) := by
  induction fuel generalizing nleft got s with
  | zero =>
    cases nleft with
    | zero =>
      cases h
      refine ⟨hs, rfl, Or.inl ⟨?_, ?_⟩⟩
      · rw [← hn, Nat.add_zero]
      · rw [List.take_zero, List.append_nil]
    | succ nleft => cases h
  | succ fuel ih =>
    cases nleft with
    | zero =>
      cases h
      refine ⟨hs, rfl, Or.inl ⟨?_, ?_⟩⟩
      · rw [← hn, Nat.add_zero]
      · rw [List.take_zero, List.append_nil]
    | succ nleft =>
      rw [readFully] at h
      split at h
      · cases h
      · -- interrupted: nothing has been read
        rename_i t hread
        obtain ⟨hinv, happend, hrc⟩ := ih (hR.keeps hs hread) hn h
        rw [hR.fails hs hread] at happend hrc
        exact ⟨hinv, happend, hrc⟩
      · rename_i t hread
        cases h
        refine ⟨hR.keeps hs hread, ?_, Or.inr ⟨rfl, by omega⟩⟩
        rw [hR.fails hs hread]
      · -- the end of the file
        rename_i t hread
        cases h
        have hnil := hR.ends hs (Nat.succ_pos nleft) hread
        refine ⟨hR.keeps hs hread, ?_, Or.inl ⟨by omega, ?_⟩⟩
        · have happend := (hR.takes hs hread).1
          rw [List.nil_append] at happend
          rw [happend]
        · rw [hnil, List.take_nil, List.append_nil]
      · rename_i chunk t _ hread
        obtain ⟨happend, hle⟩ := hR.takes hs hread
        obtain ⟨htake, -⟩ := take_drop_of_append happend hle
        have hn' : (got ++ chunk).length + (nleft + 1 - chunk.length) = n := by
          rw [List.length_append]
          omega
        obtain ⟨hinv, hsame, hrc⟩ := ih (hR.keeps hs hread) hn' h
        refine ⟨hinv, ?_, ?_⟩
        · rw [happend, ← List.append_assoc, hsame]
        · rwa [htake, ← List.append_assoc]

/-- Without a failure the call does not fail. -/
lemma Reader.readFully_nonneg (hR : Reader read Inv rest)
    (hsteady : ∀ {n s e s'}, Inv s → read n s = some (.error e, s') → e = .EINTR) (hs : Inv s)
    (hn : got.length + nleft = n) (h : readFully read n fuel nleft got s = some (rc, got', s')) :
    rc ≠ -1 := by
  induction fuel generalizing nleft got s with
  | zero =>
    cases nleft with
    | zero =>
      cases h
      omega
    | succ nleft => cases h
  | succ fuel ih =>
    cases nleft with
    | zero =>
      cases h
      omega
    | succ nleft =>
      rw [readFully] at h
      split at h
      · cases h
      · rename_i t hread
        exact ih (hR.keeps hs hread) hn h
      · rename_i t hread
        exact absurd (hsteady hs hread) (by decide)
      · cases h
        omega
      · rename_i chunk t _ hread
        obtain ⟨-, hle⟩ := hR.takes hs hread
        refine ih (hR.keeps hs hread) ?_ h
        rw [List.length_append]
        omega

/-- What every call keeps may be added to the invariant. -/
lemma Reader.and (hR : Reader read Inv rest) {J : σ → Prop}
    (hJ : ∀ {n s r s'}, Inv s → J s → read n s = some (r, s') → J s') :
    Reader read (fun s => Inv s ∧ J s) rest where
  keeps h hread := ⟨hR.keeps h.1 hread, hJ h.1 h.2 hread⟩
  takes h := hR.takes h.1
  ends h := hR.ends h.1
  fails h := hR.fails h.1

/-- More may be known about the states. -/
lemma Answered.and (hA : Answered read Inv answers) (J : σ → Prop) :
    Answered read (fun s => Inv s ∧ J s) answers where
  returns h := hA.returns h.1
  once h := hA.once h.1
  interrupted h := hA.interrupted h.1

/-- With an answer for each element wanted, and one for the end, the loop ends. -/
lemma Answered.readFully_isSome (hR : Reader read Inv rest) (hA : Answered read Inv answers)
    (hs : Inv s) (hcalls : nleft < calls (answers s))
    (hfuel : nleft + interruptions (answers s) < fuel) (got : List α) :
    (readFully read n fuel nleft got s).isSome := by
  induction fuel generalizing nleft got s with
  | zero => omega
  | succ fuel ih =>
    cases nleft with
    | zero => rfl
    | succ nleft =>
      have hsome := hA.returns (n := nleft + 1) hs (Nat.zero_lt_of_lt hcalls)
      rw [readFully]
      split
      · rename_i hread
        rw [hread] at hsome
        exact hsome
      · rename_i t hread
        obtain ⟨hleft, hint⟩ := hA.interrupted hs hread
        exact ih (hR.keeps hs hread) (by omega) (by omega) got
      · rfl
      · rfl
      · rename_i chunk t hne hread
        obtain ⟨hleft, hint⟩ := hA.once hs hread
        have hpos : 0 < chunk.length := by
          rw [List.length_pos_iff]
          intro hnil
          subst hnil
          exact hne rfl
        exact ih (hR.keeps hs hread) (by omega) (by omega) _

/-- An answer for each element, and one for the end, are all that the loop uses up. -/
lemma Answered.calls_le_of_readFully (hR : Reader read Inv rest) (hA : Answered read Inv answers)
    (hsteady : ∀ {n s e s'}, Inv s → read n s = some (.error e, s') → e = .EINTR) (hs : Inv s)
    (h : readFully read n fuel nleft got s = some (rc, got', s')) :
    calls (answers s) ≤ calls (answers s') + (nleft + 1) := by
  induction fuel generalizing nleft got s with
  | zero =>
    cases nleft with
    | zero =>
      cases h
      omega
    | succ nleft => cases h
  | succ fuel ih =>
    cases nleft with
    | zero =>
      cases h
      omega
    | succ nleft =>
      rw [readFully] at h
      split at h
      · cases h
      · rename_i t hread
        have hleft := (hA.interrupted hs hread).1
        have hrest := ih (hR.keeps hs hread) h
        omega
      · rename_i t hread
        exact absurd (hsteady hs hread) (by decide)
      · rename_i t hread
        cases h
        have hleft := (hA.once hs hread).1
        omega
      · rename_i chunk t hne hread
        have hleft := (hA.once hs hread).1
        have hrest := ih (hR.keeps hs hread) h
        have hpos : 0 < chunk.length := by
          rw [List.length_pos_iff]
          intro hnil
          subst hnil
          exact hne rfl
        omega

end Readers

/-! ## The system calls -/

section Descriptors
variable {α : Type*} {src src' : Source α} {snk snk' : Sink α} {n : ℕ} {chunk bytes : List α}
  {r : Except Errno (List α)} {e : Errno} {rc : ℤ}

/-- The answers that a call leaves. -/
lemma Source.answers_of_read (h : src.read n = some (r, src')) :
    ∃ a, src.answers = a :: src'.answers := by
  rw [read] at h
  split at h
  · cases h
  · rename_i hanswers
    cases h
    exact ⟨_, hanswers⟩
  · rename_i hanswers
    cases h
    exact ⟨_, hanswers⟩

/-- A `read` that succeeds takes a front piece. -/
lemma Source.read_ok (h : src.read n = some (.ok chunk, src')) :
    ∃ m, m ≤ n ∧ (0 < n → 0 < m) ∧ chunk = src.bytes.take m ∧ src'.bytes = src.bytes.drop m ∧
      ∃ k, src.answers = .moves k :: src'.answers := by
  rw [read] at h
  split at h
  · cases h
  · rename_i k answers hanswers
    cases h
    exact ⟨_, min_le_left n (max 1 k), by omega, rfl, rfl, k, hanswers⟩
  · cases h

/-- A `read` that fails takes nothing. -/
lemma Source.read_error (h : src.read n = some (.error e, src')) :
    src'.bytes = src.bytes ∧ src.answers = .fails e :: src'.answers := by
  rw [read] at h
  split at h
  · cases h
  · cases h
  · rename_i hanswers
    cases h
    exact ⟨rfl, hanswers⟩

/-- `read` takes from what comes until the end of the file. -/
lemma Source.reader : Reader (Source.read (α := α)) (fun _ => True) Source.bytes where
  keeps _ _ := trivial
  takes := by
    intro n src chunk src' _ h
    obtain ⟨m, hm, -, rfl, hrest, -⟩ := read_ok h
    refine ⟨?_, ?_⟩
    · rw [hrest, List.take_append_drop]
    · rw [List.length_take]
      omega
  ends := by
    intro n src src' _ hn h
    obtain ⟨m, -, hm, hnil, -, -⟩ := read_ok h
    have hlength := congrArg List.length hnil
    rw [List.length_nil, List.length_take] at hlength
    have := hm hn
    exact List.length_eq_zero_iff.1 (by omega)
  fails _ h := (read_error h).1

/-- A call uses up one answer. -/
lemma Source.answered : Answered (Source.read (α := α)) (fun _ => True) Source.answers where
  returns := by
    intro n src _ h
    unfold read
    split
    · rename_i hanswers
      rw [hanswers] at h
      exact absurd h (by decide)
    · rfl
    · rfl
  once := by
    intro n src chunk src' _ h
    obtain ⟨m, -, -, -, -, k, hanswers⟩ := read_ok h
    have ha : Answer.moves k ≠ .fails .EINTR := by
      intro heq
      cases heq
    rw [hanswers, calls_answered ha, interruptions_answered ha]
    exact ⟨le_refl _, le_refl _⟩
  interrupted := by
    intro n src src' _ h
    rw [(read_error h).2, calls_interrupted, interruptions_interrupted]
    exact ⟨le_refl _, Nat.lt_succ_self _⟩

/-- The later answers do not fail either. -/
lemma Source.unfailing_of_read (hun : Unfailing src.answers) (h : src.read n = some (r, src')) :
    Unfailing src'.answers := by
  obtain ⟨a, hanswers⟩ := answers_of_read h
  rw [hanswers] at hun
  exact hun.of_cons

/-- A piece of what is given is written, and its length returned. -/
lemma Sink.write_spec (h : snk.write bytes = some (rc, snk')) :
    (∃ a, snk.answers = a :: snk'.answers) ∧
      ((∃ k, rc = (bytes.take k).length ∧ snk'.bytes = snk.bytes ++ bytes.take k ∧
          snk'.errno = snk.errno ∧ snk.answers = .moves k :: snk'.answers) ∨
        rc = -1 ∧ snk'.bytes = snk.bytes ∧ snk.answers = .fails snk'.errno :: snk'.answers) := by
  rw [write] at h
  split at h
  · cases h
  · rename_i k answers hanswers
    cases h
    exact ⟨⟨_, hanswers⟩, Or.inl ⟨k, rfl, rfl, rfl, hanswers⟩⟩
  · rename_i e answers hanswers
    cases h
    exact ⟨⟨_, hanswers⟩, Or.inr ⟨rfl, rfl, hanswers⟩⟩

lemma Sink.isSome_write (bytes : List α) (h : snk.answers ≠ []) : (snk.write bytes).isSome := by
  unfold write
  split
  · rename_i hanswers
    exact absurd hanswers h
  · rfl
  · rfl

end Descriptors

end Posix
end SystemsLabs
