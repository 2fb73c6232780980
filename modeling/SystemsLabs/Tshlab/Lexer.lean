import Mathlib.Data.List.TakeWhile
import SystemsLabs.Tshlab.CommandLines

/-!
# The tokens of a line

Whatever the line, the loop of `parseline` reads it token by token: a redirection mark, a word in
quotes or a bare one, or an opening quote without a second one (`tokens`). What the tokens do to
the arguments, to the two file names and to the parsing state is a machine of its own
(`Reading.take`), which knows nothing of the array. `parseline_tokens` says that `parseline` is
this machine behind this lexer, and where in the array the strings lie.
-/

namespace SystemsLabs
namespace Tshlab

open Memory

/-! ## Lexer -/

/-- What the loop may find behind white space. -/
inductive Token
  | input
  | output
  | word (quoted : Bool) (s : List Char)
  | unmatched (q : Char)
deriving DecidableEq

/-- The first token of a line, and what is left to read behind it. -/
def nextToken (line : List Char) : Option (Token × List Char) :=
  match line.dropWhile (· ∈ delims) with
  | [] => none
  | c :: rest =>
    if c = '<' then some (.input, rest)
    else if c = '>' then some (.output, rest)
    else if c ∈ quotes then
      if c ∈ rest then some (.word true (rest.takeWhile (· ≠ c)), (rest.dropWhile (· ≠ c)).tail)
      else some (.unmatched c, [])
    else
      some (.word false ((c :: rest).takeWhile (· ∉ delims)),
        ((c :: rest).dropWhile (· ∉ delims)).tail)

/-- At most `n` tokens of a line. -/
def lex : (n : ℕ) → List Char → List Token
  | 0, _ => []
  | n + 1, line =>
    match nextToken line with
    | none => []
    | some (t, rest) => t :: lex n rest

/-- The tokens of a line. -/
def tokens (line : List Char) : List Token := lex (line.length + 1) line

/-! ## The parsing machine -/

/-- The arguments and file names so far, and the redirection marks since the last word. -/
structure Reading where
  argv : List (List Char)
  infile : Option (List Char)
  outfile : Option (List Char)
  input : Bool
  output : Bool

namespace Reading

def start : Reading := ⟨[], none, none, false, false⟩

/-- What a token does, or what is printed. -/
def take (r : Reading) : Token → Except String Reading
  | .input =>
    if r.infile.isSome then .error "Error: Ambiguous I/O redirection\n"
    else .ok { r with input := true }
  | .output =>
    if r.outfile.isSome then .error "Error: Ambiguous I/O redirection\n"
    else .ok { r with output := true }
  | .unmatched q => .error ("Error: unmatched " ++ String.singleton q ++ ".\n")
  | .word _ s =>
    match r.input, r.output with
    | false, false => .ok { r with argv := r.argv ++ [s] }
    | true, false => .ok { r with infile := some s, input := false }
    | false, true => .ok { r with outfile := some s, output := false }
    | true, true => .error "Error: Ambiguous I/O redirection\n"

/-- The tokens are taken one after the other, until there is no more room for arguments. -/
def run (r : Reading) : List Token → Except String Reading
  | [] => .ok r
  | t :: ts =>
    match r.take t with
    | .error message => .error message
    | .ok r => if MAXARGS - 1 ≤ r.argv.length then .ok r else r.run ts

/-- The parsing state. -/
def bits (r : Reading) : ℕ :=
  (if r.input then ST_INFILE else ST_NORMAL) ||| if r.output then ST_OUTFILE else ST_NORMAL

/-- The last argument begins with `&`. -/
def amp (r : Reading) : Bool := (r.argv.getLast?.bind List.head?) = some '&'

/-- What `parseline` returns. -/
def bg (r : Reading) : ℤ := if r.argv = [] then 1 else if r.amp then 1 else 0

/-- The arguments that stay in `argv`. -/
def kept (r : Reading) : List (List Char) := if r.amp then r.argv.dropLast else r.argv

/-- As a command, with the `&` among its arguments. -/
def command (r : Reading) : Command := ⟨r.argv, r.infile, r.outfile, false⟩

end Reading

/-- What `parseline` makes of the tokens of a line. -/
def readTokens (ts : List Token) : Except String Reading :=
  match Reading.start.run ts with
  | .error message => .error message
  | .ok r =>
    if r.input || r.output then .error "Error: must provide file name for redirection\n" else .ok r

/-! ## Where the strings lie -/

/-- What a pointer of the tokens points to. -/
inductive Entry
  | arg (i : ℕ)
  | infile
  | outfile
deriving DecidableEq

/-- The pointers that are recorded. -/
def Tokens.pointer (tok : Tokens) : Entry → Option ℕ
  | .arg i => if i < tok.argc then tok.argv i else none
  | .infile => tok.infile
  | .outfile => tok.outfile

/-- No two strings share a place in the array, not even the NUL of one. -/
def Tokens.Apart (tok : Tokens) (array : List Char) : Prop :=
  ∀ e e' p q, e ≠ e' → tok.pointer e = some p → tok.pointer e' = some q →
    p + (stringAt array p).length < q ∨ q + (stringAt array q).length < p

/-- The variables of the loop agree with the machine, where `done` has been read. -/
structure Scan.Shows (st : Scan) (done : List Char) (r : Reading) : Prop where
  tok : st.tok.Holds done r.command
  apart : st.tok.Apart done
  state : st.state = r.bits

/-- What `parseline` leaves of a line. -/
structure Tokens.Result (tok : Tokens) (array : List Char) (r : Reading) : Prop where
  argc : tok.argc = r.kept.length
  null : tok.argv tok.argc = none
  argv : ∀ i s, r.kept[i]? = some s → ∃ p, tok.argv i = some p ∧ Ends array p s
  infile : Option.Rel (Ends array) tok.infile r.infile
  outfile : Option.Rel (Ends array) tok.outfile r.outfile
  builtins : ∀ s ∈ r.argv.head?, tok.builtins = builtinOf s
  apart : tok.Apart array

/-- The shapes of a line with a first token. A bare word takes the character behind it with it. -/
inductive Begins : Token → List Char → List Char → Prop
  | input {w rest : List Char} (hw : Blank w) : Begins .input (w ++ '<' :: rest) rest
  | output {w rest : List Char} (hw : Blank w) : Begins .output (w ++ '>' :: rest) rest
  | quoted {w s rest : List Char} {q : Char} (hw : Blank w) (hq : q ∈ quotes) (hs : q ∉ s) :
    Begins (.word true s) (w ++ q :: (s ++ [q]) ++ rest) rest
  | bare {w s rest : List Char} {x : Char} (hw : Blank w) (hs : Renders s s) (hx : x ∈ delims) :
    Begins (.word false s) (w ++ s ++ x :: rest) rest
  | last {w s : List Char} (hw : Blank w) (hs : Renders s s) : Begins (.word false s) (w ++ s ++ []) []
  | unmatched {w s : List Char} {q : Char} (hw : Blank w) (hq : q ∈ quotes) (hs : q ∉ s) :
    Begins (.unmatched q) (w ++ q :: s) []

section Lexer

variable {line rest : List Char} {t : Token}

/-- The first element that fails a test. -/
lemma dropWhile_eq_cons {α : Type*} {p : α → Bool} {l : List α} {a : α} {rest : List α}
    (h : l.dropWhile p = a :: rest) : l = l.takeWhile p ++ a :: rest ∧ p a = false := by
  refine ⟨?_, ?_⟩
  · rw [← h, List.takeWhile_append_dropWhile]
  · have hhead := List.head?_dropWhile_not p l
    rw [h] at hhead
    simpa using hhead

/-- A line without a token is blank. -/
lemma nextToken_eq_none (h : nextToken line = none) : Blank line := by
  rw [nextToken] at h
  split at h
  · next hnil =>
    intro c hc
    simpa using List.dropWhile_eq_nil_iff.mp hnil c hc
  · split_ifs at h

/-- The token that the lexer finds is the first one of the line. -/
lemma begins_of_nextToken (h : nextToken line = some (t, rest)) : Begins t line rest := by
  rw [nextToken] at h
  split at h
  · cases h
  · next c tail hdrop =>
    obtain ⟨hline, hc⟩ := dropWhile_eq_cons hdrop
    have hw : Blank (line.takeWhile (· ∈ delims)) := fun x hx => by
      simpa using List.mem_takeWhile_imp hx
    have hc : c ∉ delims := by simpa using hc
    rw [hline]
    generalize line.takeWhile (· ∈ delims) = w at hw
    -- by the first character: a mark, a quote with or without its partner, or a bare word
    split_ifs at h with hlt hgt hquote hmem
    · cases h
      rw [hlt]
      exact .input hw
    · cases h
      rw [hgt]
      exact .output hw
    · cases h
      obtain ⟨s, rest, rfl, hs⟩ := List.eq_append_cons_of_mem hmem
      have hpos : ∀ x ∈ s, decide (x ≠ c) = true := fun x hx =>
        decide_eq_true (ne_of_mem_of_not_mem hx hs)
      rw [List.takeWhile_append_of_pos hpos, List.takeWhile_cons_of_neg (by simp),
        List.dropWhile_append_of_pos hpos, List.dropWhile_cons_of_neg (by simp), List.append_nil,
        List.tail_cons]
      have hbegins : Begins (.word true s) (w ++ c :: (s ++ [c]) ++ rest) rest :=
        .quoted hw hquote hs
      simpa using hbegins
    · cases h
      exact .unmatched hw hquote hmem
    · cases h
      have hbare : Renders ((c :: tail).takeWhile (· ∉ delims))
          ((c :: tail).takeWhile (· ∉ delims)) := by
        refine .bare ?_ ?_ ?_
        · rw [List.takeWhile_cons_of_pos (by simpa using hc)]
          exact List.cons_ne_nil _ _
        · intro x hx
          simpa using List.mem_takeWhile_imp hx
        · rw [List.takeWhile_cons_of_pos (by simpa using hc)]
          rintro x ⟨⟩
          exact ⟨hlt, hgt, hquote⟩
      have hsplit := (List.takeWhile_append_dropWhile (p := (· ∉ delims)) (l := c :: tail)).symm
      cases hrest : (c :: tail).dropWhile (· ∉ delims) with
      | nil =>
        rw [hrest] at hsplit
        have hbegins := Begins.last hw hbare
        rw [List.append_assoc, ← hsplit] at hbegins
        exact hbegins
      | cons x rest =>
        obtain ⟨-, hx⟩ := dropWhile_eq_cons hrest
        rw [hrest] at hsplit
        have hbegins : Begins (.word false ((c :: tail).takeWhile (· ∉ delims)))
            (w ++ (c :: tail).takeWhile (· ∉ delims) ++ x :: rest) rest :=
          .bare hw hbare (by simpa using hx)
        rw [List.append_assoc, ← hsplit] at hbegins
        exact hbegins

/-- A token uses up some of the line. -/
lemma Begins.length_lt (h : Begins t line rest) : rest.length < line.length := by
  cases h with
  | last hw hs =>
    obtain ⟨c, more, hc, -⟩ := hs.head
    simp [hc]
  | input | output | quoted | bare | unmatched =>
    simp only [List.length_append, List.length_cons, List.length_nil]
    omega

/-- What is left is part of the line. -/
lemma Begins.subset (h : Begins t line rest) : rest ⊆ line := by
  cases h with
  | last | unmatched => exact List.nil_subset _
  | input | output | quoted | bare =>
    intro x hx
    simp [hx]

end Lexer

/-! ## The pointers of the tokens -/

section Pointers

variable {tok tok' : Tokens} {done more array s : List Char} {c : Command} {p : ℕ} {e : Entry}

/-- A string and its NUL are part of the array. -/
lemma ends_lt (h : Ends array p s) : p + s.length < array.length := by
  obtain ⟨pre, post, rfl, rfl, -⟩ := h
  simp only [List.length_append, List.length_cons]
  omega

/-- Every pointer points to a string. -/
lemma Tokens.Holds.ends (h : tok.Holds done c) (hp : tok.pointer e = some p) :
    ∃ s, Ends done p s := by
  cases e with
  | arg i =>
    rw [Tokens.pointer] at hp
    split_ifs at hp with hi
    rw [h.argc] at hi
    obtain ⟨q, hq, hends⟩ := h.argv i _ (List.getElem?_eq_getElem hi)
    rw [hq] at hp
    cases hp
    exact ⟨_, hends⟩
  | infile =>
    have hfile := h.infile
    rw [show tok.infile = some p from hp] at hfile
    generalize c.infile = file at hfile
    cases hfile with
    | some hends => exact ⟨_, hends⟩
  | outfile =>
    have hfile := h.outfile
    rw [show tok.outfile = some p from hp] at hfile
    generalize c.outfile = file at hfile
    cases hfile with
    | some hends => exact ⟨_, hends⟩

/-- Strings that lie apart stay apart when the loop goes on. -/
lemma Tokens.Apart.append (h : tok.Apart done) (hends : tok.Holds done c) (more : List Char) :
    tok.Apart (done ++ more) := by
  intro e e' p q hne hp hq
  obtain ⟨s, hs⟩ := hends.ends hp
  obtain ⟨s', hs'⟩ := hends.ends hq
  have hapart := h e e' p q hne hp hq
  rwa [hs.stringAt_eq, hs'.stringAt_eq, ← (hs.append more).stringAt_eq,
    ← (hs'.append more).stringAt_eq] at hapart

/-- A string behind all others is recorded. -/
lemma Tokens.Apart.add (h : tok.Apart done) (hholds : tok.Holds done c)
    (hlen : done.length ≤ p) (e₀ : Entry)
    (htok : ∀ e, tok'.pointer e = if e = e₀ then some p else tok.pointer e) :
    tok'.Apart (done ++ more) := by
  have hold := h.append hholds more
  have hbehind : ∀ e q, tok.pointer e = some q →
      q + (stringAt (done ++ more) q).length < p := by
    intro e q hq
    obtain ⟨s, hs⟩ := hholds.ends hq
    rw [(hs.append more).stringAt_eq]
    exact (ends_lt hs).trans_le hlen
  intro e e' q q' hne hq hq'
  rw [htok] at hq hq'
  split_ifs at hq with he
  · cases hq
    rw [if_neg (by rintro rfl; exact hne he)] at hq'
    exact .inr (hbehind e' q' hq')
  · split_ifs at hq' with he'
    · cases hq'
      exact .inl (hbehind e q hq)
    · exact hold e e' q q' hne hq hq'

end Pointers

/-! ## One turn of the loop -/

section Turns

variable {st : Scan} {endbuf p : ℕ} {done rest rest' pad w text s more : List Char} {r : Reading}
  {t : Token}

/-- The `switch` does what the machine does with a word. -/
lemma Scan.Shows.word (h : st.Shows done r) (b : Bool) (hends : Ends (done ++ more) p s)
    (hlen : done.length ≤ p) :
    r.take (.word b s) = .error "Error: Ambiguous I/O redirection\n" ∧
        record st.tok st.state p = none ∨
      ∃ r' tok', r.take (.word b s) = .ok r' ∧ record st.tok st.state p = some tok' ∧
        tok'.Holds (done ++ more) r'.command ∧ tok'.Apart (done ++ more) ∧ r'.bits = ST_NORMAL := by
  have hholds := h.tok.append more
  rw [h.state, Reading.take, Reading.bits]
  -- the bits of the state say where the word goes
  cases hin : r.input <;> cases hout : r.output
  · refine .inr ⟨_, _, rfl, rfl, hholds.arg hends, ?_, ?_⟩
    · apply h.apart.add h.tok hlen (.arg st.tok.argc)
      intro e
      cases e with
      | arg i =>
        simp only [Tokens.pointer, Function.update_apply, Entry.arg.injEq]
        by_cases hi : i = st.tok.argc
        · rw [if_pos (by omega), if_pos hi, if_pos hi]
        · rw [if_neg hi, if_neg hi]
          by_cases hlt : i < st.tok.argc
          · rw [if_pos hlt, if_pos (by omega)]
          · rw [if_neg hlt, if_neg (by omega)]
      | infile => rfl
      | outfile => rfl
    · simp [Reading.bits, ST_NORMAL]
  · refine .inr ⟨_, _, rfl, rfl, hholds.file hends .output, ?_, ?_⟩
    · apply h.apart.add h.tok hlen .outfile
      intro e
      cases e <;> rfl
    · simp [Reading.bits, ST_NORMAL]
  · refine .inr ⟨_, _, rfl, rfl, hholds.file hends .input, ?_, ?_⟩
    · apply h.apart.add h.tok hlen .infile
      intro e
      cases e <;> rfl
    · simp [Reading.bits, ST_NORMAL]
  · exact .inl ⟨rfl, rfl⟩

/-- There is no second quote. -/
lemma turn_unmatched {q : Char} (h : st.Reads endbuf done (w ++ q :: s) pad) (hw : Blank w)
    (hq : q ∈ quotes) (hs : q ∉ s) (hnul : '\x00' ∉ s) :
    turn endbuf st = .error ("Error: unmatched " ++ String.singleton q ++ ".\n") := by
  have hne : q ∉ delims ∧ q ≠ '<' ∧ q ≠ '>' := by
    fin_cases hq <;> decide
  obtain ⟨hskip, hend, hget⟩ := h.getD_eq hw hne.1
  obtain ⟨-, pad', hpad⟩ := h.rest_ne (by simp)
  have harray : st.array = done ++ w ++ [q] ++ (s ++ '\x00' :: pad') := by
    rw [h.array, hpad]
    simp
  have hnone : strchr st.array ((done ++ w).length + 1) q = none := by
    have hlen : (done ++ w).length + 1 = (done ++ w ++ [q]).length := by
      simp only [List.length_append, List.length_singleton]
    rw [harray, hlen]
    exact strchr_none hnul hs
  rw [turn]
  simp only [hskip, hget, if_neg hend, if_neg hne.2.1, if_neg hne.2.2, tokenEnd, if_pos hq, hnone]

/-- What the loop does with the next token, where `take` says what the machine does with it. -/
def Turns (endbuf : ℕ) (st : Scan) (rest' : List Char) : Except String Reading → Prop
  | .error message => turn endbuf st = .error message
  | .ok r =>
    if MAXARGS - 1 ≤ r.argv.length then
      ∃ st', turn endbuf st = .ok (false, st') ∧ st'.Shows st'.array r
    else
      ∃ st' done' pad', turn endbuf st = .ok (true, st') ∧ st'.Reads endbuf done' rest' pad' ∧
        st'.Shows done' r

/-- A pointer is set exactly where there is a string. -/
lemma rel_isSome {array : List Char} {p : Option ℕ} {s : Option (List Char)}
    (h : Option.Rel (Ends array) p s) : p.isSome = s.isSome := by
  cases h <;> rfl

namespace Mark

/-- The token. -/
def token : Mark → Token
  | .input => .input
  | .output => .output

/-- The file of the command so far. -/
def redirected (r : Reading) : Mark → Option (List Char)
  | .input => r.infile
  | .output => r.outfile

/-- The mark is read, and its file name is still missing. -/
def note (r : Reading) : Mark → Reading
  | .input => { r with input := true }
  | .output => { r with output := true }

/-- What the machine does with a mark. -/
lemma take_token (mark : Mark) (r : Reading) :
    r.take mark.token =
      if (mark.redirected r).isSome then .error "Error: Ambiguous I/O redirection\n"
      else .ok (mark.note r) := by
  cases mark <;> rfl

/-- A mark alone adds nothing to the command. -/
lemma command_note (mark : Mark) (r : Reading) : (mark.note r).command = r.command := by
  cases mark <;> rfl

/-- A mark sets its bit. -/
lemma bits_note (mark : Mark) (r : Reading) : (mark.note r).bits = r.bits ||| mark.flag := by
  obtain ⟨argv, infile, outfile, input, output⟩ := r
  cases mark <;> cases input <;> cases output <;>
    simp [note, flag, Reading.bits, ST_NORMAL, ST_INFILE, ST_OUTFILE]

/-- The loop and the machine know the same files. -/
lemma isSome_file (mark : Mark) {tok : Tokens} (h : tok.Holds done r.command) :
    (mark.redirected r).isSome = (mark.file tok).isSome := by
  cases mark with
  | input => exact (rel_isSome h.infile).symm
  | output => exact (rel_isSome h.outfile).symm

end Mark

/-- A redirection mark, where the file name is still missing. -/
lemma turns_mark (mark : Mark) (h : st.Reads endbuf done (w ++ mark.char :: rest) pad)
    (hw : Blank w) (hshows : st.Shows done r) (hroom : r.argv.length < MAXARGS - 1) :
    Turns endbuf st rest (r.take mark.token) := by
  have hturn := turn_mark mark h hw
  have hcommand := mark.command_note r
  have hargv : (mark.note r).argv = r.argv := congrArg Command.argv hcommand
  rw [mark.take_token, mark.isSome_file hshows.tok]
  split_ifs with hsome
  · rwa [if_pos hsome] at hturn
  · rw [if_neg hsome] at hturn
    rw [Turns, if_neg (by rw [hargv]; omega)]
    refine ⟨_, _, pad, hturn, h.mark _, ?_, ?_, ?_⟩
    · rw [hcommand, List.append_assoc]
      exact hshows.tok.append _
    · rw [List.append_assoc]
      exact hshows.apart.append hshows.tok _
    · rw [mark.bits_note, ← hshows.state]

/-- A word, in quotes or bare. -/
lemma turns_word (h : st.Reads endbuf done (w ++ text ++ rest) pad) (hw : Blank w)
    (htext : Renders s text) (hnul : '\x00' ∉ s)
    (hsep : text = s → ∀ x ∈ rest.head?, x ∈ delims)
    (hrest : text ≠ s ∧ rest' = rest ∨ text = s ∧ (rest = [] ∧ rest' = [] ∨
      ∃ x ∈ delims, rest = x :: rest'))
    (hshows : st.Shows done r) (b : Bool) : Turns endbuf st rest' (r.take (.word b s)) := by
  obtain ⟨p, array, done', rest'', pad', hturn, hreads, hends, hlen, ⟨more, rfl⟩, hcut⟩ :=
    turn_cut h hw htext hnul hsep
  -- both sides drop the delimiter behind a bare word, and nothing else
  obtain rfl : rest'' = rest' := by
    rcases hcut with ⟨hne, rfl⟩ | ⟨heq, ⟨rfl, rfl⟩ | ⟨x, -, hx⟩⟩
    · rcases hrest with ⟨-, rfl⟩ | ⟨heq, -⟩
      · rfl
      · exact absurd heq hne
    · rcases hrest with ⟨hne, -⟩ | ⟨-, ⟨-, rfl⟩ | ⟨y, -, hy⟩⟩
      · exact absurd heq hne
      · rfl
      · cases hy
    · rcases hrest with ⟨hne, -⟩ | ⟨-, ⟨rfl, -⟩ | ⟨y, -, hy⟩⟩
      · exact absurd heq hne
      · cases hx
      · rw [hx] at hy
        exact (List.cons.inj hy).2
  rcases hshows.word b hends hlen with ⟨htake, hrec⟩ | ⟨r', tok', htake, hrec, hholds, hapart, hbits⟩
  · rw [htake, Turns, hturn, hrec]
  · rw [hrec] at hturn
    have hargc : tok'.argc = r'.argv.length := hholds.argc
    rw [htake, Turns]
    simp only [hargc] at hturn
    split_ifs with hfull
    · rw [if_pos hfull] at hturn
      refine ⟨_, hturn, ?_, ?_, hbits.symm⟩
      · have hreads := (hreads tok' ST_NORMAL).array
        simp only at hreads
        rw [hreads]
        exact hholds.append _
      · have hreads := (hreads tok' ST_NORMAL).array
        simp only at hreads
        rw [hreads]
        exact hapart.append hholds _
    · rw [if_neg hfull] at hturn
      exact ⟨_, _, pad', hturn, hreads tok' ST_NORMAL, hholds, hapart, hbits.symm⟩

/-- The machine does with the next token what the loop does. -/
lemma turns_of_begins {line : List Char} (hb : Begins t line rest)
    (h : st.Reads endbuf done line pad) (hnul : '\x00' ∉ line) (hshows : st.Shows done r)
    (hroom : r.argv.length < MAXARGS - 1) : Turns endbuf st rest (r.take t) := by
  cases hb with
  | input hw => exact turns_mark .input h hw hshows hroom
  | output hw => exact turns_mark .output h hw hshows hroom
  | @quoted w s _ q hw hq hs =>
    -- a quoted token is longer than its word, so no delimiter is dropped
    have htext : q :: (s ++ [q]) ≠ s := by
      intro heq
      have hlen := congrArg List.length heq
      rw [List.length_cons, List.length_append] at hlen
      omega
    have hsnul : '\x00' ∉ s := fun hmem => hnul (by simp [hmem])
    exact turns_word h hw (.quoted q hq hs) hsnul (fun heq => absurd heq htext)
      (.inl ⟨htext, rfl⟩) hshows true
  | @bare w s _ x hw hs hx =>
    have hsnul : '\x00' ∉ s := fun hmem => hnul (by simp [hmem])
    exact turns_word h hw hs hsnul (fun _ => by rintro y ⟨⟩; exact hx)
      (.inr ⟨rfl, .inr ⟨x, hx, rfl⟩⟩) hshows false
  | @last w s hw hs =>
    have hsnul : '\x00' ∉ s := fun hmem => hnul (by simp [hmem])
    exact turns_word h hw hs hsnul (fun _ => by simp) (.inr ⟨rfl, .inl ⟨rfl, rfl⟩⟩) hshows false
  | @unmatched w s q hw hq hs =>
    have hsnul : '\x00' ∉ s := fun hmem => hnul (by simp [hmem])
    exact turn_unmatched h hw hq hs hsnul

end Turns

/-! ## The whole line -/

section Line

variable {st : Scan} {endbuf fuel : ℕ} {done pad line array : List Char} {r : Reading} {tok : Tokens}

/-- The loop ends as the machine does. -/
def LoopEnds (endbuf fuel : ℕ) (st : Scan) : Except String Reading → Prop
  | .error message => loop endbuf fuel st = some (.error message)
  | .ok r => ∃ st', loop endbuf fuel st = some (.ok st') ∧ st'.Shows st'.array r

/-- The loop runs the machine on the tokens of what is left to read. -/
theorem loop_lex (n : ℕ) : ∀ {line : List Char} {st : Scan} {done pad : List Char} {r : Reading}
    {fuel : ℕ}, line.length < n → line.length < fuel → '\x00' ∉ line →
    st.Reads endbuf done line pad → st.Shows done r → r.argv.length < MAXARGS - 1 →
    LoopEnds endbuf fuel st (r.run (lex n line)) := by
  induction n with
  | zero =>
    intro line st done pad r fuel hn
    omega
  | succ n ih =>
    intro line st done pad r fuel hn hfuel hnul h hshows hroom
    obtain ⟨fuel, rfl⟩ : ∃ f, fuel = f + 1 := ⟨fuel - 1, by omega⟩
    rw [lex]
    cases hnext : nextToken line with
    | none =>
      obtain ⟨buf, hloop⟩ := loop_blank h (nextToken_eq_none hnext) fuel
      refine ⟨_, hloop, ?_, ?_, hshows.state⟩
      · rw [h.array]
        exact hshows.tok.append _
      · rw [h.array]
        exact hshows.apart.append hshows.tok _
    | some found =>
      obtain ⟨t, rest⟩ := found
      have hb := begins_of_nextToken hnext
      -- a token is never empty, so the fuel of both loops lasts
      have hlt := hb.length_lt
      have hbuf : st.buf < endbuf := h.buf_lt (by rintro rfl; simp at hlt)
      have hturns := turns_of_begins hb h hnul hshows hroom
      dsimp only
      rw [Reading.run]
      cases htake : r.take t with
      | error message =>
        rw [htake, Turns] at hturns
        rw [LoopEnds, loop, if_pos hbuf, hturns]
      | ok r' =>
        rw [htake, Turns] at hturns
        dsimp only
        split_ifs at hturns ⊢ with hfull
        · obtain ⟨st', hturn, hshows'⟩ := hturns
          exact ⟨st', by rw [loop, if_pos hbuf, hturn], hshows'⟩
        · obtain ⟨st', done', pad', hturn, hreads, hshows'⟩ := hturns
          have hrest := ih (by omega) (show rest.length < fuel by omega)
            (fun hmem => hnul (hb.subset hmem)) hreads hshows' (by omega)
          cases hrun : r'.run (lex n rest) with
          | error message =>
            rw [hrun] at hrest
            exact (loop_turn hbuf hturn fuel).trans hrest
          | ok r'' =>
            rw [hrun] at hrest
            obtain ⟨st'', hloop, hshows''⟩ := hrest
            exact ⟨st'', (loop_turn hbuf hturn fuel).trans hloop, hshows''⟩

/-- Fewer pointers are apart as well. -/
lemma Tokens.Apart.mono {tok' : Tokens} (h : tok.Apart array)
    (hsub : ∀ e p, tok'.pointer e = some p → tok.pointer e = some p) : tok'.Apart array :=
  fun e e' p q hne hp hq => h e e' p q hne (hsub e p hp) (hsub e' q hq)

/-- The test of `parseline` on the last argument. -/
lemma Reading.amp_iff {init : List (List Char)} {last : List Char} (hr : r.argv = init ++ [last]) :
    r.amp = true ↔ last.head?.getD '\x00' = '&' := by
  rw [amp, hr, List.getLast?_concat, Option.bind_some, decide_eq_true_iff]
  cases last with
  | nil =>
    simp only [List.head?_nil, reduceCtorEq, Option.getD_none, false_iff]
    decide
  | cons c s => simp

/-- Only the last argument may be dropped. -/
lemma Reading.kept_prefix (r : Reading) : r.kept <+: r.argv := by
  rw [kept]
  split_ifs
  · exact List.dropLast_prefix _
  · exact List.prefix_refl _

/-- The result is what the loop has left, cut off behind the arguments that are kept. -/
lemma Tokens.Holds.result {tok' : Tokens} (hholds : tok.Holds array r.command)
    (hapart : tok.Apart array) (hargc : tok'.argc = r.kept.length)
    (hnull : tok'.argv tok'.argc = none) (hargv : ∀ i < tok'.argc, tok'.argv i = tok.argv i)
    (hinfile : tok'.infile = tok.infile) (houtfile : tok'.outfile = tok.outfile)
    (hbuiltins : ∀ s ∈ r.argv.head?, tok'.builtins = builtinOf s) : tok'.Result array r where
  argc := hargc
  null := hnull
  argv := by
    intro i s hs
    have hi : i < tok'.argc := by
      rw [hargc]
      exact (List.getElem?_eq_some_iff.1 hs).1
    obtain ⟨more, hmore⟩ := r.kept_prefix
    rw [hargv i hi]
    apply hholds.argv
    rw [Reading.command, ← hmore, List.getElem?_append_left (by rwa [← hargc]), hs]
  infile := by
    rw [hinfile]
    exact hholds.infile
  outfile := by
    rw [houtfile]
    exact hholds.outfile
  builtins := hbuiltins
  apart := by
    have hle : tok'.argc ≤ tok.argc := by
      rw [hargc, hholds.argc]
      exact r.kept_prefix.length_le
    apply hapart.mono
    intro e p hp
    cases e with
    | arg i =>
      rw [Tokens.pointer] at hp ⊢
      split_ifs at hp with hi
      rwa [if_pos (by omega), ← hargv i hi]
    | infile => exact hinfile.symm.trans hp
    | outfile => exact houtfile.symm.trans hp

/-- What follows the loop where no argument has been read. -/
lemma finish_nil (hholds : tok.Holds array r.command) (hapart : tok.Apart array)
    (hr : r.argv = []) :
    ∃ tok', finish array tok = some (r.bg, tok') ∧ tok'.Result array r := by
  have hargc : tok.argc = 0 := by
    rw [hholds.argc, Reading.command, hr, List.length_nil]
  have hkept : r.kept = [] := by
    rw [Reading.kept, hr]
    split_ifs <;> rfl
  rw [finish, Reading.bg, if_pos hr]
  simp only [hargc, if_true]
  refine ⟨_, rfl, hholds.result hapart ?_ ?_ ?_ rfl rfl ?_⟩
  · rw [hkept]
    rfl
  · simp only [Function.update_self]
  · intro i hi
    exact absurd hi (Nat.not_lt_zero i)
  · intro s hs
    rw [hr] at hs
    cases hs

/-- What follows the loop where there is a last argument. -/
lemma finish_concat {init : List (List Char)} {last : List Char}
    (hholds : tok.Holds array r.command) (hapart : tok.Apart array) (hr : r.argv = init ++ [last]) :
    ∃ tok', finish array tok = some (r.bg, tok') ∧ tok'.Result array r := by
  have hargc : tok.argc = init.length + 1 := by
    rw [hholds.argc, Reading.command, hr, List.length_append, List.length_singleton]
  have hget : ∀ i s, r.argv[i]? = some s → ∃ p, tok.argv i = some p ∧ Ends array p s := hholds.argv
  obtain ⟨first, hfirst⟩ : ∃ first, r.argv[0]? = some first :=
    ⟨_, List.getElem?_eq_getElem (by rw [hr]; simp)⟩
  obtain ⟨p, hp, hpends⟩ := hget 0 first hfirst
  obtain ⟨q, hq, hqends⟩ := hget init.length last (by rw [hr, List.getElem?_concat_length])
  have hamp := Reading.amp_iff hr
  rw [← hqends.getD_eq] at hamp
  have hne : r.argv ≠ [] := by
    rw [hr]
    simp
  have hset : Function.update tok.argv (init.length + 1) none 0 = some p := by
    rw [Function.update_of_ne (by omega), hp]
  have hset' : Function.update tok.argv (init.length + 1) none init.length = some q := by
    rw [Function.update_of_ne (by omega), hq]
  have hbuiltins : ∀ s ∈ r.argv.head?, builtinOf (stringAt array p) = builtinOf s := by
    intro s hs
    rw [List.head?_eq_getElem?, hfirst] at hs
    cases hs
    rw [hpends.stringAt_eq]
  rw [finish, Reading.bg, if_neg hne]
  simp only [hargc, Nat.add_sub_cancel, Nat.add_one_ne_zero, if_false, hset, hset',
    Option.bind_eq_bind, Option.bind_some]
  cases hbg : r.amp with
  | true =>
    have hkept : r.kept = init := by
      rw [Reading.kept, if_pos hbg, hr, List.dropLast_concat]
    rw [if_pos (hamp.1 hbg)]
    refine ⟨_, rfl, hholds.result hapart ?_ (Function.update_self ..) ?_ rfl rfl hbuiltins⟩
    · rw [hkept]
    · intro i (hi : i < init.length)
      exact (Function.update_of_ne (by omega) ..).trans (Function.update_of_ne (by omega) ..)
  | false =>
    have hkept : r.kept = r.argv := by
      rw [Reading.kept, hbg]
      rfl
    rw [if_neg (by rw [← hamp, hbg]; simp)]
    refine ⟨_, rfl, hholds.result hapart ?_ (Function.update_self ..) ?_ rfl rfl hbuiltins⟩
    · rw [hkept, hr]
      simp
    · intro i (hi : i < init.length + 1)
      exact Function.update_of_ne (by omega) ..

/-- How `parseline` ends: as the machine does. -/
def Parses (line : List Char) (tok : Tokens) : Except String Reading → Prop
  | .error message => parseline (some line) tok = some (.error message)
  | .ok r => ∃ array tok', parseline (some line) tok = some (.ok r.bg array tok') ∧
      tok'.Result array r

/-- A mark without a file name leaves the parsing state changed. -/
lemma Reading.bits_ne_iff (r : Reading) : r.bits ≠ ST_NORMAL ↔ (r.input || r.output) = true := by
  rw [bits]
  cases r.input <;> cases r.output <;> decide

/-- `parseline` runs the machine on the tokens of the line. -/
theorem parseline_tokens (hnul : '\x00' ∉ line) (hlen : line.length < MAXLINE) (tok : Tokens) :
    Parses line tok (readTokens (tokens line)) := by
  have hreads := reads_start hnul hlen tok
  have hshows : Scan.Shows ⟨strncpy line, 0, { tok with infile := none, outfile := none, argc := 0 },
      ST_NORMAL⟩ [] Reading.start := by
    refine ⟨⟨rfl, by simp [Reading.command, Reading.start], .none, .none⟩, ?_, rfl⟩
    intro e e' p q _ hp
    cases e with
    | arg i => simp [Tokens.pointer] at hp
    | infile => cases hp
    | outfile => cases hp
  have hloop := loop_lex (line.length + 1) (Nat.lt_succ_self _)
    (show line.length < line.length + 1 from Nat.lt_succ_self _) hnul hreads hshows (by decide)
  rw [readTokens, tokens]
  cases hrun : Reading.start.run (lex (line.length + 1) line) with
  | error message =>
    rw [hrun, LoopEnds] at hloop
    rw [Parses, parseline]
    simp [findIdx?_strncpy hnul hlen, hloop]
  | ok r =>
    rw [hrun] at hloop
    obtain ⟨st, hloop, hst⟩ := hloop
    have hbits := r.bits_ne_iff
    rw [← hst.state] at hbits
    dsimp only
    split_ifs with hpending
    · rw [Parses, parseline]
      simp [findIdx?_strncpy hnul hlen, hloop, hbits.2 hpending]
    · have hnormal : st.state = ST_NORMAL := by
        by_contra hne
        exact hpending (hbits.1 hne)
      obtain ⟨tok', hfinish, hresult⟩ :
          ∃ tok', finish st.array st.tok = some (r.bg, tok') ∧ tok'.Result st.array r := by
        rcases List.eq_nil_or_concat r.argv with hr | ⟨init, last, hr⟩
        · exact finish_nil hst.tok hst.apart hr
        · exact finish_concat hst.tok hst.apart (hr.trans (List.concat_eq_append ..))
      refine ⟨st.array, tok', ?_, hresult⟩
      rw [parseline]
      simp [findIdx?_strncpy hnul hlen, hloop, hnormal, hfinish]

/-- What the machine has read of a line that `parseline` accepts. -/
lemma reading_of_parseline {tok' : Tokens} {bg : ℤ} (hnul : '\x00' ∉ line)
    (hlen : line.length < MAXLINE) (hparse : parseline (some line) tok = some (.ok bg array tok')) :
    ∃ r, readTokens (tokens line) = .ok r ∧ bg = r.bg ∧ tok'.Result array r := by
  have hparses := parseline_tokens hnul hlen tok
  cases hread : readTokens (tokens line) with
  | error message =>
    rw [hread, Parses, hparse] at hparses
    cases hparses
  | ok r =>
    rw [hread] at hparses
    obtain ⟨array', tok'', hparse', hresult⟩ := hparses
    rw [hparse] at hparse'
    cases hparse'
    exact ⟨r, rfl, rfl, hresult⟩

end Line

end Tshlab
end SystemsLabs
