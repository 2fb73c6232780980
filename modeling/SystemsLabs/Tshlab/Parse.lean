import SystemsLabs.Memory.Pointers
import SystemsLabs.Tshlab.Shell

/-!
# parseline

`parseline` copies the command line into the static `array` and cuts it there into tokens: it
writes a NUL behind each token and records where the token begins. A pointer into `array` is an
index, and `NULL` is `none`. `cmdline` and the strings of the tokens end before the first NUL.

The specification is the grammar in the comment of the function, with quotes: a `Command` may be
written as a line in many ways (`Command.Writes`), and `parseline` undoes all of them.
-/

namespace SystemsLabs
namespace Tshlab

open Memory

def MAXLINE : ℕ := 1024

def MAXARGS : ℕ := 128

/-! ## The function -/

/-- The argument delimiters. -/
def delims : List Char := [' ', '\t', '\r', '\n']

/-- The two kinds of quotes. -/
def quotes : List Char := ['\'', '"']

/-- `strncpy(array, cmdline, MAXLINE)`. -/
def strncpy (cmdline : List Char) : List Char :=
  ((cmdline.takeWhile (· ≠ '\x00')).take MAXLINE).rightpad MAXLINE '\x00'

/-- `struct cmdline_tokens`, with pointers into `array`. -/
structure Tokens where
  argc : ℕ
  argv : ℕ → Option ℕ
  infile : Option ℕ
  outfile : Option ℕ
  builtins : Builtins

def ST_NORMAL : ℕ := 0x0

def ST_INFILE : ℕ := 0x1

def ST_OUTFILE : ℕ := 0x2

/-- The variables of the loop. -/
structure Scan where
  array : List Char
  buf : ℕ
  tok : Tokens
  state : ℕ

/-- The `switch` on the parsing state. -/
def record (tok : Tokens) (state buf : ℕ) : Option Tokens :=
  if state = ST_NORMAL then
    some { tok with argc := tok.argc + 1, argv := Function.update tok.argv tok.argc (some buf) }
  else if state = ST_INFILE then some { tok with infile := some buf }
  else if state = ST_OUTFILE then some { tok with outfile := some buf }
  else none

/-- Where the token at `buf` begins, and where it ends if that is found. -/
def tokenEnd (array : List Char) (buf : ℕ) (c : Char) : ℕ × Option ℕ :=
  if c ∈ quotes then (buf + 1, strchr array (buf + 1) c)
  else (buf, some (buf + strcspn array buf delims))

/-- The body of the loop: the variables after it and whether the loop goes on, or what is
printed before -1 is returned. -/
def turn (endbuf : ℕ) (st : Scan) : Except String (Bool × Scan) :=
  let buf := st.buf + strspn st.array st.buf delims
  if buf ≥ endbuf then .ok (false, { st with buf := buf })
  else
    let c := st.array.getD buf '\x00'
    if c = '<' then
      if st.tok.infile.isSome then .error "Error: Ambiguous I/O redirection\n"
      else .ok (true, { st with state := st.state ||| ST_INFILE, buf := buf + 1 })
    else if c = '>' then
      if st.tok.outfile.isSome then .error "Error: Ambiguous I/O redirection\n"
      else .ok (true, { st with state := st.state ||| ST_OUTFILE, buf := buf + 1 })
    else
      match tokenEnd st.array buf c with
      | (_, none) => .error ("Error: unmatched " ++ String.singleton c ++ ".\n")
      | (buf, some next) =>
        match record st.tok st.state buf with
        | none => .error "Error: Ambiguous I/O redirection\n"
        | some tok =>
          let st := ⟨st.array.set next '\x00', buf, tok, ST_NORMAL⟩
          -- `argv` may be full
          if tok.argc ≥ MAXARGS - 1 then .ok (false, st)
          else .ok (true, { st with buf := next + 1 })

/-- The loop, for at most `fuel` turns. -/
def loop (endbuf : ℕ) : (fuel : ℕ) → Scan → Option (Except String Scan)
  | 0, _ => none
  | fuel + 1, st =>
    if st.buf < endbuf then
      match turn endbuf st with
      | .error message => some (.error message)
      | .ok (true, st) => loop endbuf fuel st
      | .ok (false, st) => some (.ok st)
    else some (.ok st)

/-- The builtin command that `argv[0]` names. -/
def builtinOf (s : List Char) : Builtins :=
  if s = ['q', 'u', 'i', 't'] then .BUILTIN_QUIT
  else if s = ['j', 'o', 'b', 's'] then .BUILTIN_JOBS
  else if s = ['b', 'g'] then .BUILTIN_BG
  else if s = ['f', 'g'] then .BUILTIN_FG
  else .BUILTIN_NONE

/-- What follows the loop. -/
def finish (array : List Char) (tok : Tokens) : Option (ℤ × Tokens) :=
  let tok := { tok with argv := Function.update tok.argv tok.argc none }
  if tok.argc = 0 then some (1, tok)
  else do
    let first ← tok.argv 0
    let tok := { tok with builtins := builtinOf (stringAt array first) }
    let last ← tok.argv (tok.argc - 1)
    if array.getD last '\x00' = '&' then
      some (1, { tok with
        argc := tok.argc - 1
        argv := Function.update tok.argv (tok.argc - 1) none })
    else some (0, tok)

/-- How `parseline` returns: with -1 after a message, or with another value, and then `array`
holds the strings of the tokens. -/
inductive Parsed
  | error (message : String)
  | ok (bg : ℤ) (array : List Char) (tok : Tokens)

/-- `parseline(cmdline, tok)`, where `tok` is filled with anything before. -/
def parseline (cmdline : Option (List Char)) (tok : Tokens) : Option Parsed :=
  match cmdline with
  | none => some (.error "Error: command line is NULL\n")
  | some cmdline => do
    let array := strncpy cmdline
    let endbuf ← array.findIdx? (· = '\x00')
    let tok := { tok with infile := none, outfile := none, argc := 0 }
    match ← loop endbuf (endbuf + 1) ⟨array, 0, tok, ST_NORMAL⟩ with
    | .error message => some (.error message)
    | .ok st =>
      if st.state ≠ ST_NORMAL then
        some (.error "Error: must provide file name for redirection\n")
      else (finish st.array st.tok).map fun r => .ok r.1 st.array r.2

/-! ## Command lines -/

/-- What a command line asks for. -/
structure Command where
  argv : List (List Char)
  infile : Option (List Char)
  outfile : Option (List Char)
  bg : Bool

/-- `text` is the string `s` on a command line: in quotes that `s` does not contain, or bare. -/
inductive Renders (s : List Char) : List Char → Prop
  | quoted (q : Char) (hq : q ∈ quotes) (hs : q ∉ s) : Renders s (q :: (s ++ [q]))
  | bare (hne : s ≠ []) (hblank : ∀ c ∈ s, c ∉ delims)
      (hhead : ∀ c ∈ s.head?, c ≠ '<' ∧ c ≠ '>' ∧ c ∉ quotes) : Renders s s

/-- White space. -/
def Blank (w : List Char) : Prop := ∀ c ∈ w, c ∈ delims

instance (w : List Char) : Decidable (Blank w) := List.decidableBAll (· ∈ delims) w

/-- A part of a command line. -/
inductive Piece
  | arg (s : List Char)
  | infile (s : List Char)
  | outfile (s : List Char)
  | background

/-- The texts of a part. -/
inductive Piece.Text : Piece → List Char → Prop
  | arg {s text} (h : Renders s text) : Text (arg s) text
  | infile {s text w} (hw : Blank w) (h : Renders s text) : Text (infile s) ('<' :: (w ++ text))
  | outfile {s text w} (hw : Blank w) (h : Renders s text) : Text (outfile s) ('>' :: (w ++ text))
  | background : Text background ['&']

/-- The texts of several parts, with white space between them, and perhaps in front and behind. -/
inductive Writes : List Piece → List Char → Prop
  | nil {w} (hw : Blank w) : Writes [] w
  | cons {p ps w text rest} (hw : Blank w) (htext : p.Text text) (hrest : Writes ps rest)
      (hsep : ∀ c ∈ rest.head?, c ∈ delims) : Writes (p :: ps) (w ++ text ++ rest)

/-- The parts of a command line in their order. -/
def Command.pieces (c : Command) : List Piece :=
  c.argv.map .arg ++ c.infile.toList.map .infile ++ c.outfile.toList.map .outfile ++
    if c.bg then [.background] else []

/-- The strings of a command. -/
def Command.strings (c : Command) : List (List Char) :=
  c.argv ++ c.infile.toList ++ c.outfile.toList

/-- What a command must be like to be written: it has an argument and not too many, no string
has a NUL, and the last argument of a command in the foreground does not begin with `&`. -/
structure Command.WellFormed (c : Command) : Prop where
  nonempty : c.argv ≠ []
  room : c.argv.length + c.bg.toNat ≤ 126
  noNul : ∀ s ∈ c.strings, '\x00' ∉ s
  foreground : c.bg = false → ∀ s ∈ c.argv.getLast?, s.head? ≠ some '&'

/-- The tokens are those of the command, and `argv` ends with `NULL`. -/
structure Tokens.Shows (tok : Tokens) (array : List Char) (c : Command) : Prop where
  argc : tok.argc = c.argv.length
  argv : ∀ i ≤ c.argv.length, (tok.argv i).map (stringAt array) = c.argv[i]?
  infile : tok.infile.map (stringAt array) = c.infile
  outfile : tok.outfile.map (stringAt array) = c.outfile
  builtins : ∀ s ∈ c.argv.head?, tok.builtins = builtinOf s

/-! ## One token -/

section Token
variable {s text d t : List Char}

/-- `strspn` stops at the end of a string. -/
lemma nul_notMem_delims : '\x00' ∉ delims := by decide

/-- A token in a line begins with a quote or with a character of its own. -/
lemma Renders.head (h : Renders s text) :
    ∃ c rest, text = c :: rest ∧ c ∉ delims ∧ c ≠ '<' ∧ c ≠ '>' := by
  cases h with
  | quoted q hq hs =>
    have hne : q ∉ delims ∧ q ≠ '<' ∧ q ≠ '>' := by
      fin_cases hq <;> decide
    exact ⟨q, s ++ [q], rfl, hne⟩
  | bare hne hblank hhead =>
    obtain ⟨c, s', rfl⟩ := List.exists_cons_of_ne_nil hne
    obtain ⟨h₁, h₂, -⟩ := hhead c rfl
    exact ⟨c, s', rfl, hblank c List.mem_cons_self, h₁, h₂⟩

/-- A token is cut out where it ends. What is left behind it is `suf`: a bare token takes the
character behind it with it. -/
lemma tokenEnd_append (h : Renders s text) (hs : '\x00' ∉ s) {x : Char}
    (hx : text = s → x ∈ delims ∨ x = '\x00') :
    ∃ pre suf c more, text = c :: more ∧
      tokenEnd (d ++ (text ++ x :: t)) d.length c =
        (d.length + pre.length, some (d.length + pre.length + s.length)) ∧
      (d ++ (text ++ x :: t)).set (d.length + pre.length + s.length) '\x00' =
        d ++ pre ++ (s ++ '\x00' :: suf) ∧
      (text ≠ s ∧ suf = x :: t ∨ text = s ∧ suf = t) := by
  cases h with
  | quoted q hq hq' =>
    have hnul : q ≠ '\x00' := by
      fin_cases hq <;> decide
    have hsplit : d ++ (q :: (s ++ [q]) ++ x :: t) = d ++ [q] ++ (s ++ q :: x :: t) := by
      simp
    have hlen : d.length + 1 = (d ++ [q]).length := by
      rw [List.length_append, List.length_singleton]
    have hne : q :: (s ++ [q]) ≠ s := by
      intro heq
      have hlen := congrArg List.length heq
      rw [List.length_cons, List.length_append] at hlen
      omega
    refine ⟨[q], x :: t, q, s ++ [q], rfl, ?_, ?_, .inl ⟨hne, rfl⟩⟩
    · rw [tokenEnd, if_pos hq, hsplit, hlen, strchr_append hs hq' hnul, List.length_singleton, hlen]
    · rw [hsplit, List.length_singleton, hlen, ← List.length_append, ← List.append_assoc]
      simp
  | bare hne hblank hhead =>
    obtain ⟨c, more, hc⟩ := List.exists_cons_of_ne_nil hne
    have hquote : c ∉ quotes := (hhead c (by rw [hc]; rfl)).2.2
    refine ⟨[], t, c, more, hc, ?_, ?_, .inr ⟨rfl, rfl⟩⟩
    · rw [tokenEnd, if_neg hquote, strcspn_append hs hblank]
      · rfl
      · rintro c' ⟨⟩
        exact hx rfl
    · rw [List.length_nil, Nat.add_zero, ← List.length_append, ← List.append_assoc]
      simp

end Token

end Tshlab
end SystemsLabs
