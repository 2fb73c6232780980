import SystemsLabs.Memory.BoundedStrings
import SystemsLabs.Tshlab.Lexer

/-!
# parseline stays in bounds

`parseline` once more, where an access to `array` behind the NUL at `endbuf`, or to `argv` behind
its last entry, fails. It never does, on any line, and gives what `parseline` gives
(`parsesWithin`). The copy of the line, which comes first, fills `array` to its end.
-/

namespace SystemsLabs
namespace Tshlab

open Memory

/-! ## The function -/

/-- `argv[i] = p`. -/
def setArg (tok : Tokens) (i : ℕ) (p : Option ℕ) : Option Tokens :=
  if i < MAXARGS then some { tok with argv := Function.update tok.argv i p } else none

/-- The `switch` on the parsing state. -/
def recordWithin (tok : Tokens) (state buf : ℕ) : Option (Option Tokens) :=
  if state = ST_NORMAL then
    (setArg tok tok.argc (some buf)).map fun tok => some { tok with argc := tok.argc + 1 }
  else if state = ST_INFILE then some (some { tok with infile := some buf })
  else if state = ST_OUTFILE then some (some { tok with outfile := some buf })
  else some none

/-- Where the token at `buf` begins, and where it ends if that is found. -/
def tokenEndWithin (array : List Char) (endbuf buf : ℕ) (c : Char) : Option (ℕ × Option ℕ) :=
  if c ∈ quotes then do
    let q ← loadWithin array endbuf buf
    (chrWithin array endbuf (buf + 1) q).map fun next => (buf + 1, next)
  else (cspanWithin array endbuf buf delims).map fun next => (buf, some next)

/-- The body of the loop. -/
def turnWithin (endbuf : ℕ) (st : Scan) : Option (Except String (Bool × Scan)) := do
  let buf ← spanWithin st.array endbuf st.buf delims
  if buf ≥ endbuf then some (.ok (false, { st with buf := buf }))
  else
    let c ← loadWithin st.array endbuf buf
    if c = '<' then
      if st.tok.infile.isSome then some (.error "Error: Ambiguous I/O redirection\n")
      else some (.ok (true, { st with state := st.state ||| ST_INFILE, buf := buf + 1 }))
    else if c = '>' then
      if st.tok.outfile.isSome then some (.error "Error: Ambiguous I/O redirection\n")
      else some (.ok (true, { st with state := st.state ||| ST_OUTFILE, buf := buf + 1 }))
    else
      match ← tokenEndWithin st.array endbuf buf c with
      | (buf, none) => do
        let q ← loadWithin st.array endbuf (buf - 1)
        some (.error ("Error: unmatched " ++ String.singleton q ++ ".\n"))
      | (buf, some next) => do
        let array ← storeWithin st.array endbuf next '\x00'
        match ← recordWithin st.tok st.state buf with
        | none => some (.error "Error: Ambiguous I/O redirection\n")
        | some tok =>
          let st := ⟨array, buf, tok, ST_NORMAL⟩
          if tok.argc ≥ MAXARGS - 1 then some (.ok (false, st))
          else some (.ok (true, { st with buf := next + 1 }))

/-- The loop, for at most `fuel` turns. -/
def loopWithin (endbuf : ℕ) : (fuel : ℕ) → Scan → Option (Except String Scan)
  | 0, _ => none
  | fuel + 1, st =>
    if st.buf < endbuf then do
      match ← turnWithin endbuf st with
      | .error message => some (.error message)
      | .ok (true, st) => loopWithin endbuf fuel st
      | .ok (false, st) => some (.ok st)
    else some (.ok st)

/-- The builtin command that the string at `p` names. -/
def builtinWithin (array : List Char) (endbuf p : ℕ) : Option Builtins := do
  if ← cmpWithin array endbuf p ['q', 'u', 'i', 't'] then some .BUILTIN_QUIT
  else if ← cmpWithin array endbuf p ['j', 'o', 'b', 's'] then some .BUILTIN_JOBS
  else if ← cmpWithin array endbuf p ['b', 'g'] then some .BUILTIN_BG
  else if ← cmpWithin array endbuf p ['f', 'g'] then some .BUILTIN_FG
  else some .BUILTIN_NONE

/-- What follows the loop. -/
def finishWithin (array : List Char) (endbuf : ℕ) (tok : Tokens) : Option (ℤ × Tokens) := do
  let tok ← setArg tok tok.argc none
  if tok.argc = 0 then some (1, tok)
  else
    let first ← tok.argv 0
    let builtins ← builtinWithin array endbuf first
    let tok := { tok with builtins := builtins }
    let last ← tok.argv (tok.argc - 1)
    let c ← loadWithin array endbuf last
    if c = '&' then
      (setArg { tok with argc := tok.argc - 1 } (tok.argc - 1) none).map fun tok => (1, tok)
    else some (0, tok)

/-- `parseline(cmdline, tok)`, where `strlen` finds the end of the line. -/
def parselineWithin (cmdline : Option (List Char)) (tok : Tokens) : Option Parsed :=
  match cmdline with
  | none => some (.error "Error: command line is NULL\n")
  | some cmdline => do
    let array := strncpy cmdline
    let endbuf ← array.findIdx? (· = '\x00')
    let tok := { tok with infile := none, outfile := none, argc := 0 }
    match ← loopWithin endbuf (endbuf + 1) ⟨array, 0, tok, ST_NORMAL⟩ with
    | .error message => some (.error message)
    | .ok st =>
      if st.state ≠ ST_NORMAL then
        some (.error "Error: must provide file name for redirection\n")
      else (finishWithin st.array endbuf st.tok).map fun r => .ok r.1 st.array r.2

/-! ## The invariant of the loop -/

/-- The NUL at `endbuf` stays, and there is room in `argv`. -/
structure Scan.InBounds (endbuf : ℕ) (st : Scan) : Prop where
  length : st.array.length = MAXLINE
  nul : st.array[endbuf]? = some '\x00'
  argc : st.tok.argc < MAXARGS
  args : ∀ i < st.tok.argc, ∃ p ≤ endbuf, st.tok.argv i = some p

section Bounds

variable {array : List Char} {endbuf buf state i p : ℕ} {c : Char} {st st' : Scan}
  {tok tok' : Tokens} {more : Bool} {next : Option ℕ}

lemma setArg_of_lt (hi : i < MAXARGS) (p : Option ℕ) :
    setArg tok i p = some { tok with argv := Function.update tok.argv i p } := by
  rw [setArg, if_pos hi]

/-- With room in `argv` the entry is written there. -/
lemma recordWithin_eq (hargc : tok.argc < MAXARGS) :
    recordWithin tok state buf = some (record tok state buf) := by
  rw [recordWithin, record, setArg_of_lt hargc]
  split_ifs <;> rfl

/-- A recorded pointer is the new one or an old one. -/
lemma record_args (h : record tok state buf = some tok') (hbuf : buf ≤ endbuf)
    (hargs : ∀ i < tok.argc, ∃ p ≤ endbuf, tok.argv i = some p) :
    tok'.argc ≤ tok.argc + 1 ∧ ∀ i < tok'.argc, ∃ p ≤ endbuf, tok'.argv i = some p := by
  rw [record] at h
  split_ifs at h <;> cases h
  · refine ⟨le_rfl, fun i hi => ?_⟩
    rcases Nat.lt_succ_iff_lt_or_eq.1 hi with hlt | rfl
    · obtain ⟨p, hp, hget⟩ := hargs i hlt
      exact ⟨p, hp, (Function.update_of_ne hlt.ne ..).trans hget⟩
    · exact ⟨buf, hbuf, Function.update_self ..⟩
  · exact ⟨Nat.le_succ _, hargs⟩
  · exact ⟨Nat.le_succ _, hargs⟩

/-- A token begins and ends in front of the NUL. -/
lemma tokenEndWithin_eq (hnul : array[endbuf]? = some '\x00') (hbuf : buf < endbuf)
    (hc : array[buf]? = some c) :
    tokenEndWithin array endbuf buf c = some (tokenEnd array buf c) := by
  rw [tokenEndWithin, tokenEnd]
  split_ifs with hq
  · have hne : c ≠ '\x00' := by
      rintro rfl
      revert hq
      decide
    rw [loadWithin_of_getElem? hc hbuf.le, Option.bind_eq_bind, Option.bind_some,
      chrWithin_eq hnul hbuf hne]
    rfl
  · rw [cspanWithin_eq hnul hbuf.le]
    rfl

/-- A token ends at the end of the line at the latest. -/
lemma tokenEnd_le (hnul : array[endbuf]? = some '\x00') (hbuf : buf < endbuf)
    (h : tokenEnd array buf c = (p, next)) :
    p ≤ endbuf ∧ (∀ i ∈ next, i ≤ endbuf) ∧ (next = none → p = buf + 1) := by
  rw [tokenEnd] at h
  split_ifs at h
  · cases h
    exact ⟨hbuf, fun i hi => strchr_le hnul hbuf hi, fun _ => rfl⟩
  · cases h
    refine ⟨hbuf.le, ?_, fun hnone => by cases hnone⟩
    rintro i ⟨⟩
    exact strcspn_le hnul hbuf.le

/-- The name of a command is a string in the line. -/
lemma builtinWithin_eq (hnul : array[endbuf]? = some '\x00') (hp : p ≤ endbuf) :
    builtinWithin array endbuf p = some (builtinOf (stringAt array p)) := by
  rw [builtinWithin, builtinOf]
  simp only [cmpWithin_eq hnul hp (show '\x00' ∉ ['q', 'u', 'i', 't'] by decide),
    cmpWithin_eq hnul hp (show '\x00' ∉ ['j', 'o', 'b', 's'] by decide),
    cmpWithin_eq hnul hp (show '\x00' ∉ ['b', 'g'] by decide),
    cmpWithin_eq hnul hp (show '\x00' ∉ ['f', 'g'] by decide), Option.bind_eq_bind,
    Option.bind_some, decide_eq_true_eq]
  split_ifs <;> rfl

/-- No access of the body fails, and the invariant is kept. -/
lemma turnWithin_eq (h : st.InBounds endbuf)
    (hbuf : st.buf < endbuf) : turnWithin endbuf st = some (turn endbuf st) := by
  rw [turnWithin, turn, spanWithin_eq h.nul hbuf.le nul_notMem_delims]
  simp only [Option.bind_eq_bind, Option.bind_some]
  generalize st.buf + strspn st.array st.buf delims = buf
  by_cases hend : buf ≥ endbuf
  · rw [if_pos hend, if_pos hend]
  rw [if_neg hend, if_neg hend]
  have hlt : endbuf < st.array.length := (List.getElem?_eq_some_iff.1 h.nul).1
  obtain ⟨c, hc⟩ : ∃ c, st.array[buf]? = some c := ⟨_, List.getElem?_eq_getElem (by omega)⟩
  have hget : st.array.getD buf '\x00' = c := by
    rw [List.getD_eq_getElem?_getD, hc]
    rfl
  rw [loadWithin_of_getElem? hc (by omega), Option.bind_some, hget]
  by_cases hin : c = '<'
  · rw [if_pos hin, if_pos hin]
    split_ifs <;> rfl
  by_cases hout : c = '>'
  · rw [if_neg hin, if_neg hin, if_pos hout, if_pos hout]
    split_ifs <;> rfl
  simp only [hin, hout, if_false, tokenEndWithin_eq h.nul (not_le.1 hend) hc, Option.bind_some]
  cases hend' : tokenEnd st.array buf c with
  | mk p next =>
    obtain ⟨hp, hnext, hquote⟩ := tokenEnd_le h.nul (not_le.1 hend) hend'
    cases next with
    | none =>
      have hprev : st.array[p - 1]? = some c := by
        rw [hquote rfl, Nat.add_sub_cancel, hc]
      simp only [loadWithin_of_getElem? hprev (show p - 1 ≤ endbuf by omega), Option.bind_some]
    | some next =>
      have hstore : storeWithin st.array endbuf next '\x00' = some (st.array.set next '\x00') :=
        if_pos (hnext next rfl)
      simp only [hstore, recordWithin_eq h.argc, Option.bind_some]
      cases record st.tok st.state p with
      | none => rfl
      | some tok =>
        dsimp only
        split_ifs <;> rfl

/-- A turn stays in the arrays and leaves room for the entry behind the last argument. -/
lemma turn_inBounds (h : st.InBounds endbuf) (hroom : st.tok.argc < MAXARGS - 1)
    (hturn : turn endbuf st = .ok (more, st')) :
    st'.InBounds endbuf ∧ (more = true → st'.tok.argc < MAXARGS - 1) := by
  rw [turn] at hturn
  dsimp only at hturn
  generalize st.buf + strspn st.array st.buf delims = buf at hturn
  -- the first three cases write nothing: the end of the line, and the two marks
  split_ifs at hturn with hend
  · cases hturn
    exact ⟨⟨h.length, h.nul, h.argc, h.args⟩, fun _ => hroom⟩
  · cases hturn
    exact ⟨⟨h.length, h.nul, h.argc, h.args⟩, fun _ => hroom⟩
  · cases hturn
    exact ⟨⟨h.length, h.nul, h.argc, h.args⟩, fun _ => hroom⟩
  · have hlt : endbuf < st.array.length := (List.getElem?_eq_some_iff.1 h.nul).1
    have hc : st.array[buf]? = some (st.array.getD buf '\x00') := by
      rw [List.getD_eq_getElem?_getD, List.getElem?_eq_getElem (by omega)]
      rfl
    cases hend' : tokenEnd st.array buf (st.array.getD buf '\x00') with
    | mk p next =>
      obtain ⟨hp, hnext, -⟩ := tokenEnd_le h.nul (not_le.1 hend) hend'
      rw [hend'] at hturn
      cases next with
      | none => cases hturn
      | some next =>
        dsimp only at hturn
        cases hrec : record st.tok st.state p with
        | none =>
          rw [hrec] at hturn
          cases hturn
        | some tok =>
          obtain ⟨hargc, hargs⟩ := record_args hrec hp h.args
          -- the one write does not touch the zero at the end of the line
          have hbounds : ∀ b state, Scan.InBounds endbuf ⟨st.array.set next '\x00', b, tok, state⟩ := by
            intro b state
            refine ⟨?_, ?_, by simp only; omega, hargs⟩
            · rw [List.length_set, h.length]
            · rw [List.getElem?_set]
              split_ifs
              · rfl
              · omega
              · exact h.nul
          rw [hrec] at hturn
          dsimp only at hturn
          split_ifs at hturn with hfull
          · cases hturn
            exact ⟨hbounds _ _, fun hmore => by cases hmore⟩
          · cases hturn
            exact ⟨hbounds _ _, fun _ => not_le.1 hfull⟩

/-- The loop as a whole. -/
lemma loopWithin_eq (fuel : ℕ) (h : st.InBounds endbuf) (hroom : st.tok.argc < MAXARGS - 1) :
    loopWithin endbuf fuel st = loop endbuf fuel st ∧
      ∀ st', loop endbuf fuel st = some (.ok st') → st'.InBounds endbuf := by
  induction fuel generalizing st with
  | zero => exact ⟨rfl, fun st' hloop => by cases hloop⟩
  | succ fuel ih =>
    rw [loopWithin, loop]
    split_ifs with hbuf
    · rw [turnWithin_eq h hbuf]
      simp only [Option.bind_eq_bind, Option.bind_some]
      cases hturn : turn endbuf st with
      | error message => exact ⟨rfl, fun st' hloop => by cases hloop⟩
      | ok r =>
        obtain ⟨more, st'⟩ := r
        obtain ⟨h', hroom'⟩ := turn_inBounds h hroom hturn
        cases more with
        | true => exact ih h' (hroom' rfl)
        | false =>
          refine ⟨rfl, fun st'' hloop => ?_⟩
          cases hloop
          exact h'
    · refine ⟨rfl, fun st' hloop => ?_⟩
      cases hloop
      exact h

/-- An `&` at the end is taken away again. -/
lemma finish_argc {bg : ℤ} (h : finish array tok = some (bg, tok')) : tok'.argc ≤ tok.argc := by
  rw [finish] at h
  dsimp only at h
  split_ifs at h
  · cases h
    exact le_rfl
  · simp only [Option.bind_eq_bind, Option.bind_eq_some_iff] at h
    obtain ⟨first, -, last, -, h⟩ := h
    split_ifs at h <;> cases h
    · exact Nat.sub_le _ _
    · exact le_rfl

/-- The code behind the loop reads what the loop has written. -/
lemma finishWithin_eq (h : st.InBounds endbuf) :
    finishWithin st.array endbuf st.tok = finish st.array st.tok := by
  rw [finishWithin, finish, setArg_of_lt h.argc]
  simp only [Option.bind_eq_bind, Option.bind_some]
  split_ifs with hargc
  · rfl
  · obtain ⟨p, hp, hfirst⟩ := h.args 0 (Nat.pos_of_ne_zero hargc)
    obtain ⟨q, hq, hlast⟩ := h.args (st.tok.argc - 1) (by omega)
    have hlt : endbuf < st.array.length := (List.getElem?_eq_some_iff.1 h.nul).1
    have hget : st.array[q]? = some (st.array.getD q '\x00') := by
      rw [List.getD_eq_getElem?_getD, List.getElem?_eq_getElem (by omega)]
      rfl
    rw [Function.update_of_ne (by omega), Function.update_of_ne (by omega), hfirst, hlast]
    simp only [Option.bind_some, builtinWithin_eq h.nul hp, loadWithin_of_getElem? hget hq]
    split_ifs
    · rw [setArg_of_lt (by have := h.argc; omega)]
      rfl
    · rfl

end Bounds

/-! ## Every line -/

/-- The strings of the tokens: each lies in the array and no two share a place. -/
structure Tokens.Strings (tok : Tokens) (array : List Char) : Prop where
  argc : tok.argc < MAXARGS
  null : tok.argv tok.argc = none
  recorded : ∀ i < tok.argc, ∃ p, tok.pointer (.arg i) = some p
  ends : ∀ e p, tok.pointer e = some p → Ends array p (stringAt array p)
  apart : tok.Apart array

section Lines

variable {line array : List Char} {tok : Tokens} {r : Reading}

/-- All strings that are found lie in the array. -/
lemma Tokens.Result.strings (h : tok.Result array r) (hargc : tok.argc < MAXARGS) :
    tok.Strings array where
  argc := hargc
  null := h.null
  recorded := by
    intro i hi
    have hlt : i < r.kept.length := by rwa [← h.argc]
    obtain ⟨p, hp, -⟩ := h.argv i _ (List.getElem?_eq_getElem hlt)
    exact ⟨p, (if_pos hi).trans hp⟩
  ends := by
    have hfile : ∀ {q : Option ℕ} {file : Option (List Char)} {p : ℕ},
        Option.Rel (Ends array) q file → q = some p → Ends array p (stringAt array p) := by
      intro q file p hrel hq
      cases hrel with
      | none => cases hq
      | some hends =>
        cases hq
        rwa [hends.stringAt_eq]
    intro e p hp
    cases e with
    | arg i =>
      rw [Tokens.pointer] at hp
      split_ifs at hp with hi
      have hlt : i < r.kept.length := by rwa [← h.argc]
      obtain ⟨q, hq, hends⟩ := h.argv i _ (List.getElem?_eq_getElem hlt)
      rw [hq] at hp
      cases hp
      rwa [hends.stringAt_eq]
    | infile => exact hfile h.infile hp
    | outfile => exact hfile h.outfile hp
  apart := h.apart

/-- `strncpy` fills the array behind the line with zeros. -/
lemma start_inBounds (hnul : '\x00' ∉ line) (hlen : line.length < MAXLINE) (tok : Tokens) :
    Scan.InBounds line.length
      ⟨strncpy line, 0, { tok with infile := none, outfile := none, argc := 0 }, ST_NORMAL⟩ := by
  refine ⟨?_, ?_, Nat.zero_lt_succ _, fun i hi => absurd hi (Nat.not_lt_zero i)⟩
  · rw [strncpy_eq hnul hlen]
    simp only [List.length_append, List.length_replicate]
    omega
  · rw [strncpy_eq hnul hlen]
    simp only [List.getElem?_append_right le_rfl, Nat.sub_self]
    rw [List.getElem?_replicate, if_pos (by omega)]

/-- No access goes wrong, so `parseline` with its accesses checked is `parseline`. -/
lemma parselineWithin_eq (hnul : '\x00' ∉ line) (hlen : line.length < MAXLINE) (tok : Tokens) :
    parselineWithin (some line) tok = parseline (some line) tok ∧
      ∀ bg array tok', parseline (some line) tok = some (.ok bg array tok') →
        array.length = MAXLINE ∧ tok'.argc < MAXARGS := by
  obtain ⟨heq, hbounds⟩ := loopWithin_eq (line.length + 1) (start_inBounds hnul hlen tok)
    (show 0 < MAXARGS - 1 by decide)
  rw [parselineWithin, parseline]
  simp only [findIdx?_strncpy hnul hlen, Option.bind_eq_bind, Option.bind_some, heq]
  cases hloop : loop line.length (line.length + 1)
      ⟨strncpy line, 0, { tok with infile := none, outfile := none, argc := 0 }, ST_NORMAL⟩ with
  | none => exact ⟨rfl, fun _ _ _ h => by cases h⟩
  | some result =>
    cases result with
    | error message => exact ⟨rfl, fun _ _ _ h => by cases h⟩
    | ok st =>
      have hst := hbounds st hloop
      simp only [Option.bind_some]
      split_ifs
      · exact ⟨rfl, fun _ _ _ h => by cases h⟩
      · rw [finishWithin_eq hst]
        refine ⟨rfl, fun bg array tok' h => ?_⟩
        obtain ⟨⟨bg, tok'⟩, hfinish, h⟩ := Option.map_eq_some_iff.1 h
        cases h
        exact ⟨hst.length, (finish_argc hfinish).trans_lt hst.argc⟩

/-- `parseline` ends on every line, without an access out of bounds, and the strings of its tokens
lie in `array` one beside the other. -/
theorem parseline_within (hnul : '\x00' ∉ line) (hlen : line.length < MAXLINE) (tok : Tokens) :
    ∃ parsed, parselineWithin (some line) tok = some parsed ∧
      parseline (some line) tok = some parsed ∧
      ∀ bg array tok', parsed = .ok bg array tok' →
        array.length = MAXLINE ∧ tok'.Strings array := by
  obtain ⟨heq, hbounds⟩ := parselineWithin_eq hnul hlen tok
  have hparses := parseline_tokens hnul hlen tok
  rw [heq]
  cases hread : readTokens (tokens line) with
  | error message =>
    rw [hread] at hparses
    refine ⟨_, hparses, hparses, ?_⟩
    rintro bg array tok' ⟨⟩
  | ok r =>
    rw [hread] at hparses
    obtain ⟨array, tok', hparse, hresult⟩ := hparses
    obtain ⟨hlength, hargc⟩ := hbounds _ _ _ hparse
    refine ⟨_, hparse, hparse, ?_⟩
    rintro bg array tok' ⟨⟩
    exact ⟨hlength, hresult.strings hargc⟩

/-- Behind a bare word at the end `buf` points behind the NUL. -/
theorem parseline_within_bare_word :
    ∃ parsed, parselineWithin (some "fg %1".toList) ⟨0, fun _ => none, none, none, .BUILTIN_NONE⟩ =
        some parsed ∧
      parseline (some "fg %1".toList) ⟨0, fun _ => none, none, none, .BUILTIN_NONE⟩ = some parsed ∧
      ∀ bg array tok', parsed = .ok bg array tok' →
        array.length = MAXLINE ∧ tok'.Strings array :=
  parseline_within (by decide) (by decide) _

end Lines

end Tshlab
end SystemsLabs
