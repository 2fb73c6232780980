import Mathlib.Data.List.Destutter
import SystemsLabs.Tshlab.Lexer

/-!
# The form of a line

The comment of `parseline` gives a line the form
`command [arguments...] [< infile] [> outfile] [&]`. Two questions about the tokens of any line:
when is the `&` at its end what the flag tells (`flag_right_iff`), and when are redirections that
do not fit the form refused (`malformed_refused_iff`).
-/

namespace SystemsLabs
namespace Tshlab

open Memory

/-- A redirection mark. -/
def Token.isMark : Token → Bool
  | .input | .output => true
  | _ => false

/-- A word, in quotes or bare. -/
def Token.isWord : Token → Bool
  | .word _ _ => true
  | _ => false

/-! ## The background -/

/-- The words that follow no redirection mark. A mark has been read before if `behind` holds. -/
def arguments : (behind : Bool) → List Token → List (List Char)
  | _, [] => []
  | true, .word _ _ :: ts => arguments false ts
  | false, .word _ s :: ts => s :: arguments false ts
  | _, t :: ts => arguments t.isMark ts

/-- The last token of the line is the bare word `&`, and it is no file name. -/
def EndsWithAmp (ts : List Token) : Prop :=
  ts.getLast? = some (.word false ['&']) ∧ ∀ t ∈ ts.dropLast.getLast?, t.isMark = false

instance (ts : List Token) : Decidable (EndsWithAmp ts) := by
  unfold EndsWithAmp
  infer_instance

/-- What the flag should tell, and that otherwise the last argument is the last one in `argv`. -/
structure FlagRight (ts : List Token) (bg : ℤ) (array : List Char) (tok : Tokens) : Prop where
  flag : bg = 1 ↔ EndsWithAmp ts
  kept : ¬ EndsWithAmp ts → ∀ last ∈ (arguments false ts).getLast?,
    tok.argc = (arguments false ts).length ∧
      ∃ p, tok.argv (tok.argc - 1) = some p ∧ Ends array p last

/-- An argument begins with `&` only where it is the `&` of the form. Where there is no room for
all arguments the last one that is read has to stand for it. -/
structure AmpCloses (ts : List Token) : Prop where
  few : (arguments false ts).length < MAXARGS →
    ∀ last ∈ (arguments false ts).getLast?, last.head? = some '&' → EndsWithAmp ts
  many : MAXARGS ≤ (arguments false ts).length →
    EndsWithAmp ts ∧ ∃ s, (arguments false ts)[MAXARGS - 2]? = some s ∧ s.head? = some '&'

section Background

variable {ts : List Token} {r r' : Reading} {line array : List Char} {tok tok' : Tokens} {bg : ℤ}

/-- The machine reads the arguments for which there is room. -/
lemma Reading.run_argv (h : r.run ts = .ok r') (hroom : r.argv.length < MAXARGS - 1) :
    r'.argv = (r.argv ++ arguments (r.input || r.output) ts).take (MAXARGS - 1) := by
  induction ts generalizing r with
  | nil =>
    rw [run] at h
    cases h
    rw [arguments, List.append_nil, List.take_of_length_le hroom.le]
  | cons t ts ih =>
    rw [run] at h
    cases htake : r.take t with
    | error message =>
      rw [htake] at h
      cases h
    | ok next =>
      rw [htake] at h
      dsimp only at h
      cases t with
      | input =>
        rw [take] at htake
        split_ifs at htake
        cases htake
        rw [if_neg (by simp only; omega)] at h
        exact ih h hroom
      | output =>
        rw [take] at htake
        split_ifs at htake
        cases htake
        rw [if_neg (by simp only; omega)] at h
        rw [ih h hroom, Bool.or_true]
        rfl
      | unmatched q => cases htake
      | word b s =>
        rw [take] at htake
        -- a word is an argument unless a mark stands before it
        cases hin : r.input <;> cases hout : r.output <;> rw [hin, hout] at htake <;> cases htake
        · rw [show arguments (false || false) (.word b s :: ts) = s :: arguments false ts from rfl,
            List.append_cons]
          split_ifs at h with hfull
          · cases h
            simp only [List.length_append, List.length_singleton] at hfull
            rw [List.take_left' (by simp only [List.length_append, List.length_singleton]; omega)]
          · rw [ih h (by omega)]
            rfl
        · rw [if_neg (by simp only; omega)] at h
          rw [ih h hroom]
          rfl
        · rw [if_neg (by simp only; omega)] at h
          rw [ih h hroom]
          rfl

/-- A last word is an argument unless a mark stands before it. -/
lemma arguments_concat (b : Bool) (s : List Char) (init : List Token) (behind : Bool)
    (hbehind : ((init.getLast?.map Token.isMark).getD behind) = false) :
    arguments behind (init ++ [.word b s]) = arguments behind init ++ [s] := by
  induction init generalizing behind with
  | nil =>
    rw [show behind = false from hbehind]
    rfl
  | cons t init ih =>
    have hnext : ((init.getLast?.map Token.isMark).getD t.isMark) = false := by
      cases init with
      | nil => exact hbehind
      | cons t' init =>
        rw [List.getLast?_cons_cons] at hbehind
        rw [List.getLast?_cons] at hbehind ⊢
        exact hbehind
    rw [List.cons_append]
    cases t with
    | word b s =>
      cases behind
      · exact congrArg (s :: ·) (ih false hnext)
      · exact ih false hnext
    | input | output | unmatched => cases behind <;> exact ih _ hnext

/-- A closing `&` is the last argument. -/
lemma EndsWithAmp.getLast_arguments (h : EndsWithAmp ts) :
    (arguments false ts).getLast? = some ['&'] := by
  obtain ⟨hlast, hmark⟩ := h
  obtain ⟨init, rfl⟩ := List.getLast?_eq_some_iff.1 hlast
  rw [List.dropLast_concat] at hmark
  rw [arguments_concat, List.getLast?_concat]
  cases hinit : init.getLast? with
  | none => rfl
  | some t => exact hmark t hinit

/-- The machine's arguments, for a line that `parseline` accepts. -/
lemma argv_of_parseline (hnul : '\x00' ∉ line) (hlen : line.length < MAXLINE)
    (hparse : parseline (some line) tok = some (.ok bg array tok')) :
    ∃ r : Reading, r.argv = (arguments false (tokens line)).take (MAXARGS - 1) ∧ bg = r.bg ∧
      tok'.Result array r := by
  obtain ⟨r, hread, hbg, hresult⟩ := reading_of_parseline hnul hlen hparse
  refine ⟨r, ?_, hbg, hresult⟩
  rw [readTokens] at hread
  cases hrun : Reading.start.run (tokens line) with
  | error message =>
    rw [hrun] at hread
    cases hread
  | ok r' =>
    rw [hrun] at hread
    dsimp only at hread
    split_ifs at hread
    cases hread
    exact Reading.run_argv hrun (by decide)

/-- When `parseline` returns 1 for a line with arguments. -/
lemma Reading.bg_eq_one_iff (hne : r.argv ≠ []) :
    r.bg = 1 ↔ ∃ s, r.argv.getLast? = some s ∧ s.head? = some '&' := by
  rw [bg, if_neg hne, ← Option.bind_eq_some_iff, ← decide_eq_true_iff (p := _ = some '&')]
  change (if r.amp then (1 : ℤ) else 0) = 1 ↔ r.amp = true
  split_ifs with hamp <;> simp [hamp]

/-- All arguments have been read. -/
lemma flag_right_of_few (hresult : tok'.Result array r)
    (hargv : r.argv = (arguments false ts).take (MAXARGS - 1)) (hargs : arguments false ts ≠ [])
    (hfew : (arguments false ts).length < MAXARGS) :
    FlagRight ts r.bg array tok' ↔
      ∀ last ∈ (arguments false ts).getLast?, last.head? = some '&' → EndsWithAmp ts := by
  rw [List.take_of_length_le (by omega)] at hargv
  have hflag := r.bg_eq_one_iff (by rwa [hargv])
  constructor
  · intro h last hlast hamp
    exact h.flag.1 (hflag.2 ⟨last, by rw [hargv]; exact hlast, hamp⟩)
  · intro h
    refine ⟨⟨fun hbg => ?_, fun hend => ?_⟩, fun hend last hlast => ?_⟩
    · obtain ⟨s, hs, hamp⟩ := hflag.1 hbg
      exact h s (by rw [← hargv]; exact hs) hamp
    · exact hflag.2 ⟨['&'], by rw [hargv, hend.getLast_arguments], rfl⟩
    · have hkept : r.kept = arguments false ts := by
        rw [Reading.kept, if_neg ?_, hargv]
        intro hamp
        rw [Reading.amp, decide_eq_true_iff, hargv, Option.bind_eq_some_iff] at hamp
        obtain ⟨s, hs, hamp⟩ := hamp
        exact hend (h s hs hamp)
      have hargc := hresult.argc
      rw [hkept] at hargc
      refine ⟨hargc, hresult.argv _ _ ?_⟩
      rw [hkept, hargc, ← List.getLast?_eq_getElem?]
      exact hlast

/-- There was no room for the last argument. -/
lemma flag_right_of_many (hresult : tok'.Result array r)
    (hargv : r.argv = (arguments false ts).take (MAXARGS - 1)) (hargs : arguments false ts ≠ [])
    (hmany : MAXARGS ≤ (arguments false ts).length) :
    FlagRight ts r.bg array tok' ↔ EndsWithAmp ts ∧
      ∃ s, (arguments false ts)[MAXARGS - 2]? = some s ∧ s.head? = some '&' := by
  have hpos : MAXARGS = 128 := rfl
  have hlength : r.argv.length = MAXARGS - 1 := by
    rw [hargv, List.length_take, Nat.min_eq_left (by omega)]
  have hlast : r.argv.getLast? = (arguments false ts)[MAXARGS - 2]? := by
    rw [List.getLast?_eq_getElem?, hlength, hargv, List.getElem?_take_of_lt (by decide)]
    rfl
  have hflag := r.bg_eq_one_iff (List.ne_nil_of_length_pos (by omega))
  rw [hlast] at hflag
  constructor
  · intro h
    have hend : EndsWithAmp ts := by
      by_contra hend
      obtain ⟨hargc, -⟩ := h.kept hend _ (List.getLast?_eq_some_getLast hargs)
      rw [hresult.argc, Reading.kept] at hargc
      split_ifs at hargc
      · rw [List.length_dropLast] at hargc
        omega
      · omega
    exact ⟨hend, hflag.1 (h.flag.2 hend)⟩
  · rintro ⟨hend, hamp⟩
    exact ⟨⟨fun _ => hend, fun _ => hflag.2 hamp⟩, fun hnot => absurd hend hnot⟩

/-- The flag and the last argument are right exactly on the lines where an argument in front of
the end does not begin with `&`. -/
theorem flag_right_iff (hnul : '\x00' ∉ line) (hlen : line.length < MAXLINE)
    (hargs : arguments false (tokens line) ≠ [])
    (hparse : parseline (some line) tok = some (.ok bg array tok')) :
    FlagRight (tokens line) bg array tok' ↔ AmpCloses (tokens line) := by
  obtain ⟨r, hargv, rfl, hresult⟩ := argv_of_parseline hnul hlen hparse
  rcases lt_or_ge (arguments false (tokens line)).length MAXARGS with hfew | hmany
  · rw [flag_right_of_few hresult hargv hargs hfew]
    exact ⟨fun h => ⟨fun _ => h, fun hmany => by omega⟩, fun h => h.few hfew⟩
  · rw [flag_right_of_many hresult hargv hargs hmany]
    exact ⟨fun h => ⟨fun hfew => by omega, fun _ => h⟩, fun h => h.many hmany⟩

/-- A line of the documented form. -/
theorem flag_right_background : ∃ array tok, FlagRight (tokens "ls -l > out &".toList) 1 array tok := by
  obtain ⟨array, tok, hparse, -⟩ := parseline_tokens (show '\x00' ∉ "ls -l > out &".toList by decide)
    (by decide) ⟨0, fun _ => none, none, none, .BUILTIN_NONE⟩
  refine ⟨array, tok, (flag_right_iff (by decide) (by decide) (by decide) hparse).2 ⟨?_, ?_⟩⟩
  · intro _ _ _ _
    decide
  · intro hmany
    exact absurd hmany (by decide)

/-- The word `'&'` is an argument like any other, yet it is taken for the `&` of the form. -/
theorem not_flag_right_quoted : ¬ ∀ line tok bg array tok', '\x00' ∉ line → line.length < MAXLINE →
    arguments false (tokens line) ≠ [] →
    parseline (some line) tok = some (.ok bg array tok') → FlagRight (tokens line) bg array tok' := by
  intro h
  obtain ⟨array, tok, hparse, -⟩ := parseline_tokens (show '\x00' ∉ "echo '&'".toList by decide)
    (by decide) ⟨0, fun _ => none, none, none, .BUILTIN_NONE⟩
  have hflag := (h _ _ _ _ _ (by decide) (by decide) (by decide) hparse).flag
  revert hflag
  decide

end Background

/-! ## The redirections -/

/-- A mark is followed by another one or by the end of the line. -/
def Dangling (ts : List Token) : Prop :=
  ∃ pre t post, ts = pre ++ t :: post ∧ t.isMark = true ∧ ∀ t' ∈ post.head?, t'.isMark = true

/-- The redirections do not fit the form of a line. -/
inductive Malformed (ts : List Token) : Prop
  | dangling (h : Dangling ts)
  | input (h : 1 < ts.count .input)
  | output (h : 1 < ts.count .output)

/-- The second one of a pair of quotes is missing. -/
def Unmatched (ts : List Token) : Prop := ∃ q, Token.unmatched q ∈ ts

/-- The second of two neighbours is not the first one again, as a mark. -/
def Differs (t t' : Token) : Prop := ¬ (t.isMark = true ∧ t = t')

instance : DecidableRel Differs := fun t t' => inferInstanceAs (Decidable (¬ (_ ∧ t = t')))

/-- What `parseline` should do with a line. -/
def Refuses (line : List Char) (tok : Tokens) : Prop :=
  Malformed (tokens line) → ∃ message, parseline (some line) tok = some (.error message)

/-- The machine accepts the tokens, if there is room for all arguments. -/
def Reading.accepts (r : Reading) (ts : List Token) : Bool :=
  match ts.foldlM take r with
  | .error _ => false
  | .ok r => !(r.input || r.output)

section Redirections

variable {ts : List Token} {t : Token} {r r' : Reading} {line : List Char}

lemma not_dangling_nil : ¬ Dangling [] := by
  rintro ⟨pre, t, post, h, -⟩
  cases pre <;> cases h

/-- Whether a name is missing can be seen token by token. -/
lemma dangling_cons :
    Dangling (t :: ts) ↔ (t.isMark = true ∧ ∀ t' ∈ ts.head?, t'.isMark = true) ∨ Dangling ts := by
  constructor
  · rintro ⟨pre, t', post, h, ht', hpost⟩
    cases pre with
    | nil =>
      cases h
      exact .inl ⟨ht', hpost⟩
    | cons x pre =>
      cases h
      exact .inr ⟨pre, t', post, rfl, ht', hpost⟩
  · rintro (⟨ht, hts⟩ | ⟨pre, t', post, rfl, ht', hpost⟩)
    · exact ⟨[], t, ts, rfl, ht, hts⟩
    · exact ⟨t :: pre, t', post, rfl, ht', hpost⟩

/-- An open quote is found token by token. -/
lemma unmatched_cons : Unmatched (t :: ts) ↔ (∃ q, t = .unmatched q) ∨ Unmatched ts := by
  simp [Unmatched, exists_or, eq_comm]

/-- The machine takes the tokens one by one. -/
lemma Reading.accepts_cons : r.accepts (t :: ts) =
    match r.take t with
    | .error _ => false
    | .ok r => r.accepts ts := by
  rw [accepts, List.foldlM_cons]
  cases r.take t <;> rfl

/-- Only a word needs room. -/
lemma Reading.take_length (h : r.take t = .ok r') :
    r'.argv.length ≤ r.argv.length + if t.isWord then 1 else 0 := by
  cases t with
  | input | output =>
    rw [take] at h
    split_ifs at h
    cases h
    exact Nat.le_add_right _ _
  | unmatched q => cases h
  | word b s =>
    rw [take] at h
    split at h <;> cases h <;> simp [Token.isWord]

/-- With few words the machine reads to the end. -/
lemma Reading.run_eq_foldlM (hfew : r.argv.length + ts.countP Token.isWord < MAXARGS - 1) :
    r.run ts = ts.foldlM take r := by
  induction ts generalizing r with
  | nil => rfl
  | cons t ts ih =>
    rw [run, List.foldlM_cons]
    cases htake : r.take t with
    | error message => rfl
    | ok r' =>
      have hlen := take_length htake
      rw [List.countP_cons] at hfew
      dsimp only
      rw [if_neg (by omega), ih (by omega)]
      rfl

/-- `parseline` refuses what the machine does not accept. -/
lemma refused_iff (hnul : '\x00' ∉ line) (hlen : line.length < MAXLINE)
    (hfew : (tokens line).countP Token.isWord < MAXARGS - 1) (tok : Tokens) :
    (∃ message, parseline (some line) tok = some (.error message)) ↔
      Reading.start.accepts (tokens line) = false := by
  have hparses := parseline_tokens hnul hlen tok
  rw [readTokens, Reading.run_eq_foldlM (by simpa [Reading.start] using hfew)] at hparses
  rw [Reading.accepts]
  cases hrun : (tokens line).foldlM Reading.take Reading.start with
  | error message =>
    rw [hrun] at hparses
    exact ⟨fun _ => rfl, fun _ => ⟨message, hparses⟩⟩
  | ok r =>
    rw [hrun] at hparses
    dsimp only at hparses ⊢
    split_ifs at hparses with hpending
    · exact ⟨fun _ => by rw [hpending]; rfl, fun _ => ⟨_, hparses⟩⟩
    · obtain ⟨array, tok', hparse, -⟩ := hparses
      rw [hparse, Bool.eq_false_of_not_eq_true hpending]
      simp

/-- With both marks read the line is lost. -/
lemma Reading.accepts_pending (hin : r.input = true) (hout : r.output = true) :
    r.accepts ts = false := by
  induction ts generalizing r with
  | nil =>
    change (!(r.input || r.output)) = false
    rw [hin]
    rfl
  | cons t ts ih =>
    rw [accepts_cons]
    cases t with
    | input | output =>
      rw [take]
      split_ifs
      · rfl
      · exact ih (by simp [hin]) (by simp [hout])
    | unmatched q => rfl
    | word b s => rw [take, hin, hout]

/-- The file name behind the mark is read. -/
def Mark.redirect (r : Reading) (s : List Char) : Mark → Reading
  | .input => { r with infile := some s }
  | .output => { r with outfile := some s }

/-- Behind a mark a word is the file name. -/
lemma Mark.take_word (mark : Mark) (hin : r.input = false) (hout : r.output = false) (b : Bool)
    (s : List Char) : (mark.note r).take (.word b s) = .ok (mark.redirect r s) := by
  obtain ⟨argv, infile, outfile, input, output⟩ := r
  cases hin
  cases hout
  cases mark <;> rfl

/-- Behind a mark the other one is no file name. -/
lemma Reading.accepts_note (mark mark' : Mark) (h : mark.token ≠ mark'.token) :
    accepts (mark.note r) (mark'.token :: ts) = false := by
  rw [accepts_cons, mark'.take_token]
  split_ifs
  · rfl
  · dsimp only
    apply accepts_pending <;> cases mark <;> cases mark' <;>
      first | rfl | exact absurd rfl h

/-- A mark that is not repeated must be followed by a word. -/
lemma Reading.accepts_mark (mark : Mark) (hin : r.input = false) (hout : r.output = false)
    (hchain : (mark.token :: ts).IsChain Differs) :
    r.accepts (mark.token :: ts) = true ↔ mark.redirected r = none ∧
      ∃ b s rest, ts = .word b s :: rest ∧ accepts (mark.redirect r s) rest = true := by
  have hmark : mark.token.isMark = true := by cases mark <;> rfl
  rw [accepts_cons, mark.take_token]
  cases hfile : mark.redirected r with
  | some s => simp
  | none =>
    simp only [Option.isSome_none, Bool.false_eq_true, if_false, true_and]
    cases ts with
    | nil => cases mark <;> simp [accepts, pure, Except.pure, Mark.note]
    | cons t rest =>
      have hne : mark.token ≠ t := fun h => (List.isChain_cons_cons.1 hchain).1 ⟨hmark, h⟩
      cases t with
      | input =>
        have hpending : accepts (mark.note r) (.input :: rest) = false :=
          accepts_note mark .input hne
        simp [hpending]
      | output =>
        have hpending : accepts (mark.note r) (.output :: rest) = false :=
          accepts_note mark .output hne
        simp [hpending]
      | unmatched q => simp [accepts_cons, take]
      | word b s =>
        rw [accepts_cons, mark.take_word hin hout]
        simp

/-- Without repeated marks the machine accepts what the form allows, from what has been redirected
so far. -/
lemma Reading.accepts_iff : ∀ {ts : List Token} {r : Reading}, ts.IsChain Differs →
    r.input = false → r.output = false →
    (r.accepts ts = true ↔ ¬ Dangling ts ∧ ¬ Unmatched ts ∧
      ts.count .input + r.infile.isSome.toNat ≤ 1 ∧ ts.count .output + r.outfile.isSome.toNat ≤ 1)
  | [], r, _, hin, hout => by
    simp [accepts, pure, Except.pure, hin, hout, not_dangling_nil, Unmatched, Bool.toNat_le]
  | .unmatched q :: ts, r, _, _, _ => by
    simp [accepts_cons, take, unmatched_cons]
  | .word b s :: ts, r, hchain, hin, hout => by
    have ih := accepts_iff (r := { r with argv := r.argv ++ [s], input := false, output := false })
      hchain.of_cons rfl rfl
    rw [accepts_cons, take, hin, hout]
    simp only [ih, dangling_cons, unmatched_cons]
    simp [Token.isMark]
  | [.input], r, hchain, hin, hout => by
    refine (accepts_mark .input hin hout hchain).trans ?_
    rw [dangling_cons]
    simp [Token.isMark]
  | [.output], r, hchain, hin, hout => by
    refine (accepts_mark .output hin hout hchain).trans ?_
    rw [dangling_cons]
    simp [Token.isMark]
  | .input :: t :: ts, r, hchain, hin, hout => by
    refine (accepts_mark .input hin hout hchain).trans ?_
    rw [dangling_cons]
    simp only [Mark.redirected, Mark.redirect]
    cases t with
    | word b s =>
      have ih := accepts_iff (r := { r with infile := some s }) hchain.of_cons.of_cons hin hout
      cases hfile : r.infile <;> simp [ih, dangling_cons, unmatched_cons, Token.isMark]
    | input | output | unmatched => simp [Token.isMark, unmatched_cons]
  | .output :: t :: ts, r, hchain, hin, hout => by
    refine (accepts_mark .output hin hout hchain).trans ?_
    rw [dangling_cons]
    simp only [Mark.redirected, Mark.redirect]
    cases t with
    | word b s =>
      have ih := accepts_iff (r := { r with outfile := some s }) hchain.of_cons.of_cons hin hout
      cases hfile : r.outfile <;> simp [ih, dangling_cons, unmatched_cons, Token.isMark]
    | input | output | unmatched => simp [Token.isMark, unmatched_cons]

/-- The machine does not see that a mark is repeated. -/
lemma Reading.accepts_mark_mark (ht : t.isMark = true) :
    r.accepts (t :: t :: ts) = r.accepts (t :: ts) := by
  rw [accepts_cons, accepts_cons]
  cases htake : r.take t with
  | error message => rfl
  | ok r' =>
    have hagain : r'.take t = .ok r' := by
      cases t with
      | input | output =>
        rw [take] at htake ⊢
        split_ifs at htake with hfile
        cases htake
        rw [if_neg hfile]
      | word | unmatched => cases ht
    dsimp only
    rw [accepts_cons, hagain]

/-- Repeated marks make no difference behind a first token. -/
lemma Reading.accepts_destutter' : ∀ {ts : List Token} {r : Reading} {t : Token},
    r.accepts (ts.destutter' Differs t) = r.accepts (t :: ts)
  | [], _, _ => rfl
  | t' :: ts, r, t => by
    by_cases h : Differs t t'
    · rw [List.destutter'_cons_pos _ h, accepts_cons, accepts_cons]
      cases r.take t with
      | error message => rfl
      | ok r' => exact accepts_destutter'
    · obtain ⟨ht, rfl⟩ := not_not.1 h
      rw [List.destutter'_cons_neg _ h, accepts_mark_mark ht]
      exact accepts_destutter'

/-- The machine does not see repeated marks. -/
lemma Reading.accepts_destutter : r.accepts (ts.destutter Differs) = r.accepts ts := by
  cases ts with
  | nil => rfl
  | cons t ts => exact accepts_destutter'

/-- What the machine accepts is of the right form, up to repeated marks. -/
lemma start_accepts_iff :
    Reading.start.accepts ts = true ↔
      ¬ (Malformed (ts.destutter Differs) ∨ Unmatched (ts.destutter Differs)) := by
  rw [← Reading.accepts_destutter, Reading.accepts_iff (List.isChain_destutter _ _) rfl rfl]
  constructor
  · rintro ⟨hdangling, hunmatched, hinput, houtput⟩ ((h | h | h) | h)
    · exact hdangling h
    · exact absurd hinput (by simpa [Reading.start] using h)
    · exact absurd houtput (by simpa [Reading.start] using h)
    · exact hunmatched h
  · intro h
    refine ⟨fun hd => h (.inl (.dangling hd)), fun hu => h (.inr hu), ?_, ?_⟩
    · by_contra hcount
      exact h (.inl (.input (by simpa [Reading.start] using hcount)))
    · by_contra hcount
      exact h (.inl (.output (by simpa [Reading.start] using hcount)))

/-- Where a mark is repeated, the name behind the first one is missing. -/
lemma dangling_of_not_isChain : ∀ {ts : List Token}, ¬ ts.IsChain Differs → Dangling ts
  | [], h => absurd .nil h
  | [t], h => absurd (.singleton t) h
  | t :: t' :: ts, h => by
    rw [List.isChain_cons_cons, not_and_or] at h
    rw [dangling_cons]
    rcases h with h | h
    · obtain ⟨ht, rfl⟩ := not_not.1 h
      exact .inl ⟨ht, by rintro x ⟨⟩; exact ht⟩
    · exact .inr (dangling_of_not_isChain h)

/-- Redirections that do not fit are refused exactly on the lines where no mark is repeated, or
something else is wrong as well. -/
theorem malformed_refused_iff (hnul : '\x00' ∉ line) (hlen : line.length < MAXLINE)
    (hfew : (tokens line).countP Token.isWord < MAXARGS - 1) (tok : Tokens) :
    Refuses line tok ↔ (tokens line).IsChain Differs ∨
      Malformed ((tokens line).destutter Differs) ∨ Unmatched ((tokens line).destutter Differs) := by
  rw [Refuses, refused_iff hnul hlen hfew, ← Bool.not_eq_true, start_accepts_iff, not_not]
  constructor
  · intro h
    by_cases hchain : (tokens line).IsChain Differs
    · exact .inl hchain
    · exact .inr (h (.dangling (dangling_of_not_isChain hchain)))
  · rintro (hchain | h) hmal
    · rw [List.destutter_of_isChain _ _ hchain]
      exact .inl hmal
    · exact h

/-- Two different marks in a row. -/
theorem malformed_refused_marks :
    Refuses "cat < > a".toList ⟨0, fun _ => none, none, none, .BUILTIN_NONE⟩ :=
  (malformed_refused_iff (by decide) (by decide) (by decide) _).2 (.inl (by decide))

/-- The second `<` is overlooked. -/
theorem not_refuses_repeated : ¬ ∀ line tok, '\x00' ∉ line → line.length < MAXLINE →
    (tokens line).countP Token.isWord < MAXARGS - 1 → Refuses line tok := by
  intro h
  have hmal : Malformed (tokens "cat < < a".toList) :=
    .dangling ⟨[.word false "cat".toList], .input, [.input, .word false ['a']], by decide, rfl,
      by rintro t ⟨⟩; rfl⟩
  obtain ⟨array, tok, hparse, -⟩ := parseline_tokens (show '\x00' ∉ "cat < < a".toList by decide)
    (by decide) ⟨0, fun _ => none, none, none, .BUILTIN_NONE⟩
  obtain ⟨message, herror⟩ := h _ ⟨0, fun _ => none, none, none, .BUILTIN_NONE⟩ (by decide)
    (by decide) (by decide) hmal
  rw [hparse] at herror
  cases herror

end Redirections

end Tshlab
end SystemsLabs
