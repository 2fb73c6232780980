import SystemsLabs.Tshlab.Parse

/-!
# Command lines are read back

The loop of `parseline` keeps what it has cut in `done` and has `rest` still to read
(`Scan.Reads`); the tokens in `done` are those of the parts read so far (`Tokens.Holds`). One part
of the line takes one or two turns (`loop_piece`), and the whole line is read part by part
(`loop_writes`).
-/

namespace SystemsLabs
namespace Tshlab

open Memory

/-! ## Redirections -/

/-- The two redirections, which `parseline` treats alike. -/
inductive Mark
  | input
  | output

namespace Mark

/-- The character in the line. -/
def char : Mark → Char
  | .input => '<'
  | .output => '>'

/-- The bit of the parsing state. -/
def flag : Mark → ℕ
  | .input => ST_INFILE
  | .output => ST_OUTFILE

/-- Where the file name is. -/
def file (tok : Tokens) : Mark → Option ℕ
  | .input => tok.infile
  | .output => tok.outfile

/-- The file name is found. -/
def put (tok : Tokens) (p : ℕ) : Mark → Tokens
  | .input => { tok with infile := some p }
  | .output => { tok with outfile := some p }

/-- The part of the line. -/
def piece (s : List Char) : Mark → Piece
  | .input => .infile s
  | .output => .outfile s

variable {tok : Tokens} {mark : Mark}

/-- A mark is not skipped as white space. -/
lemma char_spec (mark : Mark) : mark.char ∉ delims := by
  cases mark <;> decide

/-- A file name is no argument. -/
@[simp] lemma argc_put (p : ℕ) : (mark.put tok p).argc = tok.argc := by
  cases mark <;> rfl

/-- The name behind a mark is recorded as the name of its file. -/
lemma record_flag (p : ℕ) : record tok (ST_NORMAL ||| mark.flag) p = some (mark.put tok p) := by
  cases mark <;> rfl

end Mark

/-! ## The loop -/

/-- The tokens so far are those of the command, and lie in `done`. -/
structure Tokens.Holds (tok : Tokens) (done : List Char) (c : Command) : Prop where
  argc : tok.argc = c.argv.length
  argv : ∀ i s, c.argv[i]? = some s → ∃ p, tok.argv i = some p ∧ Ends done p s
  infile : Option.Rel (Ends done) tok.infile c.infile
  outfile : Option.Rel (Ends done) tok.outfile c.outfile

/-- The loop is about to read `rest`, which begins where `done` ends. -/
structure Scan.Reads (st : Scan) (endbuf : ℕ) (done rest pad : List Char) : Prop where
  array : st.array = done ++ (rest ++ pad)
  buf : st.buf = done.length
  nul : ∀ c ∈ pad, c = '\x00'
  stop : (done.length + rest.length = endbuf ∧ pad ≠ []) ∨ (rest = [] ∧ endbuf ≤ done.length)

section Loop
variable {st : Scan} {tok : Tokens} {endbuf : ℕ} {x : Char}
  {done done' rest pad w text s more tail suf : List Char} {c : Command}

/-- Strings that lie in an array lie in any longer one. -/
lemma rel_ends_append {p : Option ℕ} {s : Option (List Char)} (h : Option.Rel (Ends done) p s)
    (more : List Char) : Option.Rel (Ends (done ++ more)) p s := by
  cases h with
  | none => exact .none
  | some h => exact .some (h.append more)

/-- What is found stays where it is when the loop goes on. -/
lemma Tokens.Holds.append (h : tok.Holds done c) (more : List Char) : tok.Holds (done ++ more) c where
  argc := h.argc
  argv := by
    intro i s hs
    obtain ⟨p, hp, hends⟩ := h.argv i s hs
    exact ⟨p, hp, hends.append more⟩
  infile := rel_ends_append h.infile more
  outfile := rel_ends_append h.outfile more

/-- While something is left to read, the end of the line is behind it. -/
lemma Scan.Reads.rest_ne (h : st.Reads endbuf done rest pad) (hne : rest ≠ []) :
    done.length + rest.length = endbuf ∧ ∃ pad', pad = '\x00' :: pad' := by
  rcases h.stop with ⟨hend, hpad⟩ | ⟨hrest, -⟩
  · obtain ⟨x, pad', rfl⟩ := List.exists_cons_of_ne_nil hpad
    exact ⟨hend, pad', by rw [h.nul x List.mem_cons_self]⟩
  · exact absurd hrest hne

/-- The first character that is no white space. -/
lemma Scan.Reads.skip (h : st.Reads endbuf done (w ++ rest) pad) (hw : Blank w)
    (hrest : ∀ x ∈ rest.head?, x ∉ delims) :
    st.buf + strspn st.array st.buf delims = (done ++ w).length := by
  have htail : ∀ x ∈ (rest ++ pad).head?, x ∉ delims := by
    intro x hx
    cases rest with
    | nil =>
      have hmem : x ∈ pad := List.mem_of_mem_head? hx
      rw [h.nul x hmem]
      exact nul_notMem_delims
    | cons y rest => exact hrest x hx
  rw [h.array, h.buf, List.append_assoc, strspn_append hw htail, List.length_append]

/-- What the loop sees first behind white space. -/
lemma Scan.Reads.getD_eq (h : st.Reads endbuf done (w ++ x :: more) pad) (hw : Blank w)
    (hx : x ∉ delims) : st.buf + strspn st.array st.buf delims = (done ++ w).length ∧
      ¬ (done ++ w).length ≥ endbuf ∧ st.array.getD (done ++ w).length '\x00' = x := by
  obtain ⟨hend, -⟩ := h.rest_ne (by simp)
  refine ⟨h.skip hw (by rintro y ⟨⟩; exact hx), ?_, ?_⟩
  · simp only [List.length_append, List.length_cons] at hend ⊢
    omega
  · rw [h.array]
    simp

/-- A redirection sets the parsing state, and a second one of its kind is refused. -/
lemma turn_mark (mark : Mark) (h : st.Reads endbuf done (w ++ mark.char :: more) pad)
    (hw : Blank w) :
    turn endbuf st =
      if (mark.file st.tok).isSome then .error "Error: Ambiguous I/O redirection\n"
      else .ok (true, { st with
        state := st.state ||| mark.flag
        buf := (done ++ w ++ [mark.char]).length }) := by
  obtain ⟨hskip, hend, hget⟩ := h.getD_eq hw mark.char_spec
  have hlen : (done ++ w ++ [mark.char]).length = (done ++ w).length + 1 := List.length_append
  rw [turn, hlen]
  simp only [hskip, hget, if_neg hend]
  cases mark <;> rfl

/-- The loop goes on behind a redirection mark. -/
lemma Scan.Reads.mark (h : st.Reads endbuf done (w ++ x :: rest) pad)
    (state : ℕ) : Scan.Reads { st with state := state, buf := (done ++ w ++ [x]).length } endbuf
      (done ++ w ++ [x]) rest pad where
  array := by
    rw [h.array]
    simp
  buf := rfl
  nul := h.nul
  stop := by
    obtain ⟨hend, pad', hpad⟩ := h.rest_ne (by simp)
    left
    rw [← hend]
    refine ⟨?_, by simp [hpad]⟩
    simp only [List.length_append, List.length_cons, List.length_nil]
    omega

/-- What is left to read when a token has been cut out, with `suf` behind it. -/
lemma suffix_split {P : Prop} (hx : rest ++ pad = x :: tail)
    (hsuf : ¬ P ∧ suf = x :: tail ∨ P ∧ suf = tail) (hnul : ∀ c ∈ pad, c = '\x00') :
    ∃ rest' pad', suf = rest' ++ pad' ∧ (∀ c ∈ pad', c = '\x00') ∧
      (¬ P ∧ rest' = rest ∧ pad' = pad ∨ P ∧ rest = x :: rest' ∧ pad' = pad ∨
        P ∧ rest = [] ∧ rest' = [] ∧ pad = x :: pad') := by
  rcases hsuf with ⟨hP, rfl⟩ | ⟨hP, rfl⟩
  · exact ⟨rest, pad, hx.symm, hnul, .inl ⟨hP, rfl, rfl⟩⟩
  · cases rest with
    | nil =>
      rw [List.nil_append] at hx
      subst hx
      exact ⟨[], suf, rfl, fun c hc => hnul c (List.mem_cons_of_mem x hc),
        .inr (.inr ⟨hP, rfl, rfl, rfl⟩)⟩
    | cons y rest =>
      obtain ⟨rfl, rfl⟩ := List.cons.inj hx
      exact ⟨rest, pad, rfl, hnul, .inr (.inl ⟨hP, rfl, rfl⟩)⟩

/-- The loop reads on behind a token that has been cut out. -/
lemma Scan.Reads.cut {rest' pad' : List Char} (h : st.Reads endbuf done (more ++ rest) pad)
    (hne : more ≠ []) (harray : st.array.length = (done' ++ suf).length)
    (hsuf : suf = rest' ++ pad') (hnul : ∀ c ∈ pad', c = '\x00')
    (hcases : rest' = rest ∧ pad' = pad ∨ rest = x :: rest' ∧ pad' = pad ∨
      rest = [] ∧ rest' = [] ∧ pad = x :: pad') (tok : Tokens) (state : ℕ) :
    (⟨done' ++ suf, done'.length, tok, state⟩ : Scan).Reads endbuf done' rest' pad' := by
  obtain ⟨hend, pad₁, hpad⟩ := h.rest_ne (List.append_ne_nil_of_left_ne_nil hne rest)
  refine ⟨by rw [hsuf], rfl, hnul, ?_⟩
  rw [h.array, hsuf] at harray
  simp only [List.length_append] at hend harray
  rcases hcases with ⟨rfl, rfl⟩ | ⟨rfl, rfl⟩ | ⟨rfl, rfl, rfl⟩
  · exact .inl ⟨by omega, by simp [hpad]⟩
  · rw [List.length_cons] at hend harray
    exact .inl ⟨by omega, by simp [hpad]⟩
  · rw [List.length_cons, List.length_nil] at harray
    rw [List.length_nil] at hend
    exact .inr ⟨rfl, by omega⟩

/-- A token is recorded and cut out of the line. A bare one takes the character behind it with it. -/
lemma turn_cut (h : st.Reads endbuf done (w ++ text ++ rest) pad) (hw : Blank w)
    (htext : Renders s text) (hs : '\x00' ∉ s) (hsep : text = s → ∀ x ∈ rest.head?, x ∈ delims) :
    ∃ p array done' rest' pad',
      turn endbuf st = (match record st.tok st.state p with
        | none => .error "Error: Ambiguous I/O redirection\n"
        | some tok =>
          if tok.argc ≥ MAXARGS - 1 then .ok (false, ⟨array, p, tok, ST_NORMAL⟩)
          else .ok (true, ⟨array, done'.length, tok, ST_NORMAL⟩)) ∧
      (∀ tok state, Scan.Reads ⟨array, done'.length, tok, state⟩ endbuf done' rest' pad') ∧
      Ends done' p s ∧ done.length ≤ p ∧ (∃ more, done' = done ++ more) ∧
      (text ≠ s ∧ rest' = rest ∨ text = s ∧ (rest = [] ∧ rest' = [] ∨
        ∃ x ∈ delims, rest = x :: rest')) := by
  obtain ⟨c, more, hc, hblank, hlt, hgt⟩ := htext.head
  have hne : w ++ text ≠ [] := by simp [hc]
  obtain ⟨hend, pad₁, hpad⟩ := h.rest_ne (List.append_ne_nil_of_left_ne_nil hne rest)
  obtain ⟨x, tail, hx, hxd⟩ : ∃ x tail, rest ++ pad = x :: tail ∧
      (text = s → x ∈ delims ∨ x = '\x00') := by
    cases rest with
    | nil => exact ⟨'\x00', pad₁, hpad, fun _ => .inr rfl⟩
    | cons x rest => exact ⟨x, rest ++ pad, rfl, fun heq => .inl (hsep heq x rfl)⟩
  have hskip : st.buf + strspn st.array st.buf delims = (done ++ w).length := by
    rw [List.append_assoc] at h
    exact h.skip hw (by rw [hc]; rintro y ⟨⟩; exact hblank)
  have harray : st.array = done ++ w ++ (text ++ x :: tail) := by
    rw [h.array, ← hx]
    simp
  have hget : st.array.getD (done ++ w).length '\x00' = c := by
    rw [harray, hc]
    simp
  -- the end of the token is overwritten: a quote, a delimiter or the end of the line
  obtain ⟨pre, suf, c', more', hc', htok, hset, hsuf⟩ :=
    tokenEnd_append (d := done ++ w) (t := tail) htext hs hxd
  obtain ⟨rfl, -⟩ := List.cons.inj (hc.symm.trans hc')
  obtain ⟨rest', pad', hrest', hnul', hcases⟩ := suffix_split hx hsuf h.nul
  have hbuf : ¬(done ++ w).length ≥ endbuf := by
    rw [← hend, hc]
    simp only [List.length_append, List.length_cons]
    omega
  have hset' : st.array.set ((done ++ w ++ pre).length + s.length) '\x00' =
      done ++ w ++ pre ++ (s ++ ['\x00']) ++ suf := by
    rw [harray, show (done ++ w ++ pre).length = (done ++ w).length + pre.length from
      List.length_append, hset]
    simp
  have hlen : (done ++ w ++ pre).length + s.length + 1 =
      (done ++ w ++ pre ++ (s ++ ['\x00'])).length := by
    simp only [List.length_append, List.length_singleton]
    omega
  have hcut : rest' = rest ∧ pad' = pad ∨ rest = x :: rest' ∧ pad' = pad ∨
      rest = [] ∧ rest' = [] ∧ pad = x :: pad' :=
    hcases.imp And.right (Or.imp And.right And.right)
  -- the token begins behind the blanks and an opening quote
  refine ⟨(done ++ w ++ pre).length, done ++ w ++ pre ++ (s ++ ['\x00']) ++ suf,
    done ++ w ++ pre ++ (s ++ ['\x00']), rest', pad', ?_,
    h.cut hne (by rw [← hset', List.length_set]) hrest' hnul' hcut, ?_, ?_, ?_, ?_⟩
  · rw [← List.length_append] at htok
    rw [turn]
    simp only [hskip, hget, if_neg hbuf, if_neg hlt, if_neg hgt]
    rw [harray, htok, ← harray]
    cases hrec : record st.tok st.state (done ++ w ++ pre).length <;> simp only [hset', hlen, hrec]
  · exact ⟨done ++ w ++ pre, [], by simp, rfl, hs⟩
  · simp only [List.length_append]
    omega
  · exact ⟨w ++ pre ++ (s ++ ['\x00']), by simp⟩
  · rcases hcases with ⟨hne, rfl, -⟩ | ⟨heq, rfl, -⟩ | ⟨heq, rfl, rfl, -⟩
    · exact .inl ⟨hne, rfl⟩
    · exact .inr ⟨heq, .inr ⟨x, hsep heq x rfl, rfl⟩⟩
    · exact .inr ⟨heq, .inl ⟨rfl, rfl⟩⟩

/-- A token for which there is room. -/
lemma turn_token {tok' : ℕ → Tokens} (h : st.Reads endbuf done (w ++ text ++ rest) pad)
    (hw : Blank w) (htext : Renders s text) (hs : '\x00' ∉ s)
    (hsep : ∀ x ∈ rest.head?, x ∈ delims)
    (hrec : ∀ p, record st.tok st.state p = some (tok' p))
    (hroom : ∀ p, (tok' p).argc < MAXARGS - 1) :
    ∃ p done' rest' pad' st', turn endbuf st = .ok (true, st') ∧ st'.tok = tok' p ∧
      st'.state = ST_NORMAL ∧ st'.Reads endbuf done' rest' pad' ∧ Ends done' p s ∧
      (∃ more, done' = done ++ more) ∧ (rest' = rest ∨ ∃ x ∈ delims, rest = x :: rest') := by
  obtain ⟨p, array, done', rest', pad', hturn, hreads, hends, -, hmore, hcases⟩ :=
    turn_cut h hw htext hs (fun _ => hsep)
  have hargc : ¬ (tok' p).argc ≥ MAXARGS - 1 := by
    have := hroom p
    omega
  simp only [hrec, if_neg hargc] at hturn
  refine ⟨p, done', rest', pad', _, hturn, rfl, rfl, hreads _ _, hends, hmore, ?_⟩
  rcases hcases with ⟨-, rfl⟩ | ⟨-, ⟨rfl, rfl⟩ | hcut⟩
  · exact .inl rfl
  · exact .inl rfl
  · exact .inr hcut

end Loop

/-! ## A command line -/

/-- The command with one more part. -/
def Command.add (c : Command) : Piece → Command
  | .arg s => { c with argv := c.argv ++ [s] }
  | .infile s => { c with infile := some s }
  | .outfile s => { c with outfile := some s }
  | .background => { c with argv := c.argv ++ [['&']] }

/-- The part can be added: there is room in `argv`, or no file of its kind yet. -/
def Command.Takes (c : Command) : Piece → Prop
  | .arg s => '\x00' ∉ s ∧ c.argv.length < 126
  | .infile s => '\x00' ∉ s ∧ c.infile = none ∧ c.argv.length ≤ 126
  | .outfile s => '\x00' ∉ s ∧ c.outfile = none ∧ c.argv.length ≤ 126
  | .background => c.argv.length < 126

/-- All the parts can be added one after the other. -/
def Command.Admits : Command → List Piece → Prop
  | _, [] => True
  | c, p :: ps => c.Takes p ∧ (c.add p).Admits ps

section Pieces
variable {st : Scan} {tok : Tokens} {endbuf p : ℕ} {done done' rest pad w text s more : List Char}
  {c : Command} {piece : Piece} {ps : List Piece}

/-- A part of a line does not begin with white space. -/
lemma Piece.Text.head (h : piece.Text text) : ∃ x more, text = x :: more ∧ x ∉ delims := by
  cases h with
  | arg h =>
    obtain ⟨x, more, rfl, hx, -⟩ := h.head
    exact ⟨x, more, rfl, hx⟩
  | infile hw h => exact ⟨_, _, rfl, by decide⟩
  | outfile hw h => exact ⟨_, _, rfl, by decide⟩
  | background => exact ⟨_, _, rfl, by decide⟩

/-- White space in front of the parts may be cut. -/
lemma Writes.tail {x : Char} (h : Writes ps (x :: more)) (hx : x ∈ delims) : Writes ps more := by
  generalize hline : x :: more = line at h
  cases h with
  | nil hw =>
    subst hline
    exact .nil fun y hy => hw y (List.mem_cons_of_mem x hy)
  | @cons _ _ w text rest hw htext hrest hsep =>
    cases w with
    | nil =>
      obtain ⟨y, text', rfl, hy⟩ := htext.head
      obtain ⟨rfl, -⟩ := List.cons.inj hline
      exact absurd hx hy
    | cons y w =>
      obtain ⟨rfl, rfl⟩ := List.cons.inj hline
      exact .cons (fun z hz => hw z (List.mem_cons_of_mem x hz)) htext hrest hsep

/-- One more argument. -/
lemma Tokens.Holds.arg (h : tok.Holds done c) (hp : Ends done p s) :
    Tokens.Holds { tok with
      argc := tok.argc + 1
      argv := Function.update tok.argv tok.argc (some p) } done (c.add (.arg s)) where
  argc := by
    rw [Command.add, List.length_append, h.argc, List.length_singleton]
  argv := by
    intro i s' hs'
    rcases Nat.lt_or_ge i c.argv.length with hi | hi
    · obtain ⟨q, hq, hends⟩ := h.argv i s' (by rwa [Command.add, List.getElem?_append_left hi] at hs')
      exact ⟨q, (Function.update_of_ne (by rw [h.argc]; omega) ..).trans hq, hends⟩
    · rw [Command.add, List.getElem?_append_right hi, List.getElem?_singleton] at hs'
      obtain ⟨hi', rfl⟩ : i - c.argv.length = 0 ∧ s = s' := by simpa using hs'
      obtain rfl : i = tok.argc := by rw [h.argc]; omega
      exact ⟨p, Function.update_self .., hp⟩
  infile := h.infile
  outfile := h.outfile

/-- A file of the command. -/
lemma Tokens.Holds.file (h : tok.Holds done c) (hp : Ends done p s) (mark : Mark) :
    (mark.put tok p).Holds done (c.add (mark.piece s)) := by
  cases mark with
  | input => exact ⟨h.argc, h.argv, .some hp, h.outfile⟩
  | output => exact ⟨h.argc, h.argv, h.infile, .some hp⟩

/-- A turn that goes on. -/
lemma loop_turn {st' : Scan} (hbuf : st.buf < endbuf) (hturn : turn endbuf st = .ok (true, st'))
    (fuel : ℕ) : loop endbuf (fuel + 1) st = loop endbuf fuel st' := by
  rw [loop, if_pos hbuf, hturn]

/-- While something is left to read the loop goes on. -/
lemma Scan.Reads.buf_lt (h : st.Reads endbuf done rest pad) (hne : rest ≠ []) : st.buf < endbuf := by
  obtain ⟨hend, -⟩ := h.rest_ne hne
  have hpos : 0 < rest.length := List.length_pos_iff.mpr hne
  rw [h.buf]
  omega

/-- Where the loop is when it has read a part of the line in `k` turns. -/
structure AfterPiece (endbuf : ℕ) (st : Scan) (c : Command) (rest : List Char) (k : ℕ)
    (st' : Scan) (done' rest' pad' : List Char) : Prop where
  turns : ∀ fuel, loop endbuf (fuel + k) st = loop endbuf fuel st'
  reads : st'.Reads endbuf done' rest' pad'
  holds : st'.tok.Holds done' c
  state : st'.state = ST_NORMAL
  rest : rest' = rest ∨ ∃ x ∈ delims, rest = x :: rest'

/-- The loop reads an argument. -/
lemma loop_arg (h : st.Reads endbuf done (w ++ text ++ rest) pad) (hw : Blank w)
    (hs : Renders s text) (hsep : ∀ x ∈ rest.head?, x ∈ delims) (htok : st.tok.Holds done c)
    (hstate : st.state = ST_NORMAL) (htakes : c.Takes (.arg s)) :
    ∃ st' done' rest' pad',
      AfterPiece endbuf st (c.add (.arg s)) rest 1 st' done' rest' pad' := by
  obtain ⟨x, more, hx, -⟩ := hs.head
  obtain ⟨hnul, hroom⟩ := htakes
  have hargc : st.tok.argc + 1 < MAXARGS - 1 := by
    rw [htok.argc, MAXARGS]
    omega
  obtain ⟨p, done', rest', pad', st', hturn, hst', hnormal, hreads, hends, ⟨more, rfl⟩, hrest⟩ :=
    turn_token h hw hs hnul hsep (fun p => by rw [record, if_pos hstate]) (fun _ => hargc)
  refine ⟨st', _, rest', pad', loop_turn (h.buf_lt (by simp [hx])) hturn, hreads, ?_, hnormal, hrest⟩
  rw [hst']
  exact (htok.append more).arg hends

/-- A pointer to a string that is not there is `NULL`. -/
lemma rel_none {p : Option ℕ} (h : Option.Rel (Ends done) p none) : p = none := by
  generalize hs : (none : Option (List Char)) = s at h
  cases h with
  | none => rfl
  | some h => cases hs

/-- A mark and a name have two characters at least. -/
lemma Renders.two_le (h : Renders s text) (w : List Char) (x : Char) :
    2 ≤ (x :: (w ++ text)).length := by
  obtain ⟨y, more, rfl, -⟩ := h.head
  simp only [List.length_cons, List.length_append]
  omega

/-- A command takes a file of a kind only where it has none. -/
lemma Command.Takes.mark {mark : Mark} (h : c.Takes (mark.piece s)) (htok : tok.Holds done c) :
    '\x00' ∉ s ∧ mark.file tok = none ∧ tok.argc < MAXARGS - 1 := by
  rw [htok.argc, MAXARGS]
  cases mark with
  | input =>
    obtain ⟨hnul, hnone, hroom⟩ := h
    exact ⟨hnul, rel_none (hnone ▸ htok.infile), by omega⟩
  | output =>
    obtain ⟨hnul, hnone, hroom⟩ := h
    exact ⟨hnul, rel_none (hnone ▸ htok.outfile), by omega⟩

/-- The loop reads a redirection in two turns, one for the mark and one for the name. -/
lemma loop_file {w₂ : List Char} (mark : Mark)
    (h : st.Reads endbuf done (w ++ (mark.char :: (w₂ ++ text)) ++ rest) pad) (hw : Blank w)
    (hw₂ : Blank w₂) (hs : Renders s text) (hsep : ∀ x ∈ rest.head?, x ∈ delims)
    (htok : st.tok.Holds done c) (hstate : st.state = ST_NORMAL)
    (htakes : c.Takes (mark.piece s)) :
    ∃ st' done' rest' pad',
      AfterPiece endbuf st (c.add (mark.piece s)) rest 2 st' done' rest' pad' := by
  obtain ⟨x, more, hx, -⟩ := hs.head
  obtain ⟨hnul, hnone, hargc⟩ := htakes.mark htok
  have hline : w ++ mark.char :: (w₂ ++ text) ++ rest = w ++ mark.char :: (w₂ ++ text ++ rest) := by
    simp
  have hmark := (turn_mark mark (hline ▸ h) hw).trans (if_neg (by simp [hnone]))
  have h₁ := Scan.Reads.mark (hline ▸ h) (st.state ||| mark.flag)
  obtain ⟨p, done', rest', pad', st', hturn, hst', hnormal, hreads, hends, ⟨more, rfl⟩, hrest⟩ :=
    turn_token h₁ hw₂ hs hnul hsep (fun p => by rw [hstate]; exact mark.record_flag p)
      (fun p => by rwa [mark.argc_put])
  refine ⟨st', _, rest', pad', fun fuel => ?_, hreads, ?_, hnormal, hrest⟩
  · rw [show fuel + 2 = fuel + 1 + 1 from rfl, loop_turn (h.buf_lt (by simp)) hmark,
      loop_turn (h₁.buf_lt (by simp [hx])) hturn]
  · rw [hst']
    simp only [List.append_assoc] at hends ⊢
    exact (htok.append _).file hends mark

/-- The loop reads one part of the line. -/
lemma loop_piece (h : st.Reads endbuf done (w ++ text ++ rest) pad) (hw : Blank w)
    (htext : piece.Text text) (hsep : ∀ x ∈ rest.head?, x ∈ delims) (htok : st.tok.Holds done c)
    (hstate : st.state = ST_NORMAL) (htakes : c.Takes piece) :
    ∃ k ≤ text.length, ∃ st' done' rest' pad',
      AfterPiece endbuf st (c.add piece) rest k st' done' rest' pad' := by
  cases htext with
  | @arg s _ hs =>
    obtain ⟨x, more, rfl, -⟩ := hs.head
    exact ⟨1, by simp, loop_arg h hw hs hsep htok hstate htakes⟩
  | background =>
    have hs : Renders ['&'] ['&'] := .bare (by simp) (by simp [delims]) (by simp [quotes])
    exact ⟨1, le_rfl, loop_arg h hw hs hsep htok hstate ⟨by decide, htakes⟩⟩
  | @infile s text w₂ hw₂ hs =>
    exact ⟨2, hs.two_le w₂ '<', loop_file .input h hw hw₂ hs hsep htok hstate htakes⟩
  | @outfile s text w₂ hw₂ hs =>
    exact ⟨2, hs.two_le w₂ '>', loop_file .output h hw hw₂ hs hsep htok hstate htakes⟩

/-- The loop stops behind the last part. -/
lemma loop_blank (h : st.Reads endbuf done rest pad) (hrest : Blank rest) (fuel : ℕ) :
    ∃ buf, loop endbuf (fuel + 1) st = some (.ok { st with buf := buf }) := by
  by_cases hbuf : st.buf < endbuf
  · have hskip : st.buf + strspn st.array st.buf delims = (done ++ rest).length := by
      rw [← List.append_nil rest] at h
      exact h.skip hrest (by simp)
    have hend : (done ++ rest).length ≥ endbuf := by
      rw [h.buf] at hbuf
      rw [List.length_append]
      rcases h.stop with ⟨hend, -⟩ | ⟨-, hend⟩ <;> omega
    refine ⟨(done ++ rest).length, ?_⟩
    rw [loop, if_pos hbuf, turn]
    simp only [hskip]
    rw [if_pos hend]
  · exact ⟨st.buf, by rw [loop, if_neg hbuf]⟩

/-- The loop reads all parts of the line. -/
theorem loop_writes (hps : Writes ps rest) : ∀ {st : Scan} {done pad : List Char} {c : Command}
    {fuel : ℕ}, st.Reads endbuf done rest pad → st.tok.Holds done c → st.state = ST_NORMAL →
    c.Admits ps → rest.length < fuel →
    ∃ st', loop endbuf fuel st = some (.ok st') ∧ st'.tok.Holds st'.array (ps.foldl Command.add c) ∧
      st'.state = ST_NORMAL := by
  generalize hn : rest.length = n
  induction ps generalizing rest n with
  | nil =>
    intro st done pad c fuel h htok hstate _ hfuel
    obtain ⟨fuel, rfl⟩ : ∃ f, fuel = f + 1 := ⟨fuel - 1, by omega⟩
    cases hps with
    | nil hw =>
      obtain ⟨buf, hloop⟩ := loop_blank h hw fuel
      refine ⟨_, hloop, ?_, hstate⟩
      rw [h.array]
      exact htok.append _
  | cons piece ps ih =>
    intro st done pad c fuel h htok hstate hadmits hfuel
    cases hps with
    | @cons _ _ w text rest hw htext hrest hsep =>
      obtain ⟨htakes, hadmits⟩ := hadmits
      obtain ⟨k, hk, st', done', rest', pad', hpiece⟩ :=
        loop_piece h hw htext hsep htok hstate htakes
      -- the turn may have eaten the blank behind the part
      have hwrites : Writes ps rest' := by
        rcases hpiece.rest with rfl | ⟨x, hx, rfl⟩
        · exact hrest
        · exact hrest.tail hx
      have hlen : rest'.length ≤ rest.length := by
        rcases hpiece.rest with rfl | ⟨x, -, rfl⟩
        · exact le_rfl
        · exact Nat.le_succ _
      rw [← hn, List.length_append, List.length_append] at hfuel
      obtain ⟨fuel, rfl⟩ : ∃ f, fuel = f + k := ⟨fuel - k, by omega⟩
      rw [hpiece.turns]
      exact ih hwrites _ rfl hpiece.reads hpiece.holds hpiece.state hadmits (by omega)

/-- Parts are added one after the other. -/
lemma Command.admits_append {qs : List Piece} :
    c.Admits (ps ++ qs) ↔ c.Admits ps ∧ (ps.foldl Command.add c).Admits qs := by
  induction ps generalizing c with
  | nil => simp [Admits]
  | cons piece ps ih => simp [Admits, ih, and_assoc]

/-- Arguments add up to `argv`. -/
lemma Command.foldl_args (ss : List (List Char)) :
    (ss.map Piece.arg).foldl Command.add c = { c with argv := c.argv ++ ss } := by
  induction ss generalizing c with
  | nil => simp
  | cons s ss ih => simp [ih, add]

/-- There is room for 126 arguments. -/
lemma Command.admits_args {ss : List (List Char)} (hnul : ∀ s ∈ ss, '\x00' ∉ s)
    (hroom : c.argv.length + ss.length ≤ 126) : c.Admits (ss.map Piece.arg) := by
  induction ss generalizing c with
  | nil => trivial
  | cons s ss ih =>
    rw [List.length_cons] at hroom
    refine ⟨⟨hnul s List.mem_cons_self, by omega⟩, ih ?_ ?_⟩
    · exact fun s' hs' => hnul s' (List.mem_cons_of_mem s hs')
    · rw [add, List.length_append, List.length_singleton]
      omega

/-- No part of a line has a NUL. -/
lemma Piece.Text.noNul (h : piece.Text text) (htakes : c.Takes piece) : '\x00' ∉ text := by
  have hblank : ∀ {w}, Blank w → '\x00' ∉ w := fun hw hmem => nul_notMem_delims (hw _ hmem)
  have hrenders : ∀ {s text}, Renders s text → '\x00' ∉ s → '\x00' ∉ text := by
    intro s text h hs
    cases h with
    | quoted q hq hq' =>
      have hnul : '\x00' ≠ q := by
        rintro rfl
        exact absurd hq (by decide)
      simp [hs, hnul]
    | bare hne hd hhead => exact hs
  cases h with
  | arg h => exact hrenders h htakes.1
  | infile hw h => simp [hblank hw, hrenders h htakes.1]
  | outfile hw h => simp [hblank hw, hrenders h htakes.1]
  | background => decide

/-- A line of such parts is a string. -/
lemma Writes.noNul (h : Writes ps rest) : ∀ {c : Command}, c.Admits ps → '\x00' ∉ rest := by
  induction h with
  | nil hw => exact fun _ hmem => nul_notMem_delims (hw _ hmem)
  | cons hw htext hrest hsep ih =>
    intro c hadmits
    have hblank : '\x00' ∉ _ := fun hmem => nul_notMem_delims (hw _ hmem)
    simp [hblank, htext.noNul hadmits.1, ih hadmits.2]

end Pieces

/-- The command before anything is read. -/
def Command.blank : Command := ⟨[], none, none, false⟩

/-- The arguments with the `&` that asks for the background. -/
def Command.words (c : Command) : List (List Char) := c.argv ++ if c.bg then [['&']] else []

section Line
variable {c : Command} {line array : List Char} {tok : Tokens}

/-- The parts of a command make up the command. -/
lemma Command.foldl_pieces (c : Command) :
    c.pieces.foldl Command.add blank = ⟨c.words, c.infile, c.outfile, false⟩ := by
  obtain ⟨argv, infile, outfile, bg⟩ := c
  simp only [pieces, words, List.foldl_append, foldl_args, blank, List.nil_append]
  cases infile <;> cases outfile <;> cases bg <;> simp [add]

/-- All parts of a well-formed command are taken. -/
lemma Command.WellFormed.admits (h : c.WellFormed) : blank.Admits c.pieces := by
  have hroom := h.room
  have hnul := h.noNul
  obtain ⟨argv, infile, outfile, bg⟩ := c
  simp only at hroom
  simp only [strings, List.mem_append] at hnul
  simp only [pieces, admits_append, foldl_args, blank, List.nil_append, List.foldl_append]
  refine ⟨⟨⟨admits_args (fun s hs => hnul s (.inl (.inl hs))) ?_, ?_⟩, ?_⟩, ?_⟩
  · simp only [List.length_nil]
    omega
  · cases infile with
    | none => trivial
    | some s => exact ⟨⟨hnul s (.inl (.inr (by simp))), rfl, by simp only; omega⟩, trivial⟩
  · cases outfile with
    | none => trivial
    | some s =>
      refine ⟨⟨hnul s (.inr (by simp)), ?_, ?_⟩, trivial⟩ <;> cases infile <;> simp [add] <;> omega
  · cases bg with
    | false => trivial
    | true =>
      refine ⟨?_, trivial⟩
      cases infile <;> cases outfile <;> simp [add, Takes] at hroom ⊢ <;> omega

/-- The copy of a line that fits is followed by NULs. -/
lemma strncpy_eq (hnul : '\x00' ∉ line) (hlen : line.length < MAXLINE) :
    strncpy line = line ++ List.replicate (MAXLINE - line.length) '\x00' := by
  have hne : ∀ x ∈ line, decide (x ≠ '\x00') = true := by
    intro x hx
    rw [decide_eq_true_iff]
    rintro rfl
    exact hnul hx
  have htake : line.takeWhile (· ≠ '\x00') = line := by
    have htake := @List.takeWhile_append_of_pos _ _ _ [] hne
    rwa [List.append_nil, List.takeWhile_nil, List.append_nil] at htake
  rw [strncpy, htake, List.take_of_length_le hlen.le, List.rightpad]

/-- The scan starts before the line. -/
lemma reads_start (hnul : '\x00' ∉ line) (hlen : line.length < MAXLINE) (tok : Tokens) :
    Scan.Reads ⟨strncpy line, 0, { tok with infile := none, outfile := none, argc := 0 },
      ST_NORMAL⟩ line.length [] line (List.replicate (MAXLINE - line.length) '\x00') := by
  refine ⟨strncpy_eq hnul hlen, rfl, fun x hx => (List.mem_replicate.mp hx).2, .inl ⟨?_, ?_⟩⟩
  · simp
  · simp
    omega

/-- The first NUL of the array is that behind the line. -/
lemma findIdx?_strncpy (hnul : '\x00' ∉ line) (hlen : line.length < MAXLINE) :
    (strncpy line).findIdx? (· = '\x00') = some line.length := by
  have hnone : line.findIdx? (fun x => decide (x = '\x00')) = none := by
    rw [List.findIdx?_eq_none_iff]
    intro x hx
    rw [decide_eq_false_iff_not]
    rintro rfl
    exact hnul hx
  obtain ⟨n, hn⟩ : ∃ n, MAXLINE - line.length = n + 1 := ⟨MAXLINE - line.length - 1, by omega⟩
  rw [strncpy_eq hnul hlen, List.findIdx?_append, hnone, hn, List.replicate_succ,
    List.findIdx?_cons]
  simp

/-- A background command is one whose last argument begins with `&`. -/
lemma Command.WellFormed.getLast_head (h : c.WellFormed) {s : List Char}
    (hs : s ∈ c.words.getLast?) : s.head?.getD '\x00' = '&' ↔ c.bg = true := by
  rw [words] at hs
  cases hbg : c.bg with
  | true =>
    rw [hbg] at hs
    obtain rfl : ['&'] = s := by simpa using hs
    simp
  | false =>
    rw [hbg] at hs
    have hhead := h.foreground hbg s (by simpa using hs)
    cases s with
    | nil => decide
    | cons x s => simpa using hhead

/-- `argv` shows the arguments when `NULL` is stored behind them. -/
lemma Tokens.Holds.argv_shows {c' : Command} {argv : ℕ → Option ℕ} (h : tok.Holds array c')
    (hc' : c'.argv = c.words) (hargv : ∀ i < c.argv.length, argv i = tok.argv i)
    (hnull : argv c.argv.length = none) :
    ∀ i ≤ c.argv.length, (argv i).map (stringAt array) = c.argv[i]? := by
  intro i hi
  rcases hi.lt_or_eq with hi | rfl
  · have hget : c'.argv[i]? = some c.argv[i] := by
      rw [hc', Command.words, List.getElem?_append_left hi, List.getElem?_eq_getElem hi]
    obtain ⟨p, hp, hends⟩ := h.argv i _ hget
    rw [hargv i hi, hp, Option.map_some, hends.stringAt_eq, List.getElem?_eq_getElem hi]
  · rw [hnull, List.getElem?_eq_none le_rfl, Option.map_none]

/-- Reading the array at a pointer gives the string. -/
lemma rel_stringAt {p : Option ℕ} {s : Option (List Char)} (h : Option.Rel (Ends array) p s) :
    p.map (stringAt array) = s := by
  cases h with
  | none => rfl
  | some h => rw [Option.map_some, h.stringAt_eq]

/-- What follows the loop makes the tokens those of the command. -/
lemma finish_shows (h : c.WellFormed)
    (htok : tok.Holds array ⟨c.words, c.infile, c.outfile, false⟩) :
    ∃ tok', finish array tok = some (if c.bg then 1 else 0, tok') ∧ tok'.Shows array c := by
  have hargc : tok.argc = c.words.length := htok.argc
  obtain ⟨first, args, hargv⟩ := List.exists_cons_of_ne_nil h.nonempty
  have hpos : 0 < c.words.length := by simp [Command.words, hargv]
  obtain ⟨p, hp, hfirst⟩ := htok.argv 0 first (by simp [Command.words, hargv])
  obtain ⟨last, hget⟩ : ∃ last, c.words[c.words.length - 1]? = some last :=
    ⟨_, List.getElem?_eq_getElem (by omega)⟩
  obtain ⟨q, hq, hlast⟩ := htok.argv (c.words.length - 1) last hget
  have hamp := h.getLast_head (by rw [List.getLast?_eq_getElem?]; exact hget)
  rw [← hlast.getD_eq] at hamp
  have hbuiltins : ∀ s ∈ c.argv.head?, builtinOf (stringAt array p) = builtinOf s := by
    intro s hs
    rw [hargv] at hs
    cases hs
    rw [hfirst.stringAt_eq]
  have hset : Function.update tok.argv c.words.length none 0 = some p := by
    rw [Function.update_of_ne (by omega), hp]
  have hset' : Function.update tok.argv c.words.length none (c.words.length - 1) = some q := by
    rw [Function.update_of_ne (by omega), hq]
  rw [finish]
  simp only [hargc, if_neg hpos.ne', hset, hset', Option.bind_eq_bind, Option.bind_some]
  cases hbg : c.bg with
  | true =>
    have hlen : c.words.length - 1 = c.argv.length := by simp [Command.words, hbg]
    rw [if_pos (hamp.mpr hbg)]
    refine ⟨_, rfl, hlen, htok.argv_shows rfl ?_ ?_, rel_stringAt htok.infile,
      rel_stringAt htok.outfile, hbuiltins⟩
    · intro i hi
      rw [hlen]
      exact (Function.update_of_ne hi.ne ..).trans (Function.update_of_ne (by omega) ..)
    · rw [hlen]
      exact Function.update_self ..
  | false =>
    have hlen : c.words.length = c.argv.length := by simp [Command.words, hbg]
    rw [if_neg (by rw [hamp, hbg]; decide)]
    refine ⟨_, rfl, hlen, htok.argv_shows rfl ?_ ?_, rel_stringAt htok.infile,
      rel_stringAt htok.outfile, hbuiltins⟩
    · intro i hi
      rw [hlen]
      exact Function.update_of_ne hi.ne ..
    · rw [hlen]
      exact Function.update_self ..

/-- `parseline` gives back every command that the line may stand for. -/
theorem parseline_writes (h : c.WellFormed) (hline : Writes c.pieces line)
    (hlen : line.length < MAXLINE) (tok : Tokens) :
    ∃ array tok', parseline (some line) tok = some (.ok (if c.bg then 1 else 0) array tok') ∧
      tok'.Shows array c := by
  have hnul := hline.noNul h.admits
  have hreads := reads_start hnul hlen tok
  have hholds : Tokens.Holds { tok with infile := none, outfile := none, argc := 0 } [] .blank :=
    ⟨rfl, by simp [Command.blank], .none, .none⟩
  obtain ⟨st, hloop, htok, hstate⟩ :=
    loop_writes hline hreads hholds rfl h.admits (Nat.lt_succ_self line.length)
  rw [Command.foldl_pieces] at htok
  obtain ⟨tok', hfinish, hshows⟩ := finish_shows h htok
  refine ⟨st.array, tok', ?_, hshows⟩
  rw [parseline]
  simp [findIdx?_strncpy hnul hlen, hloop, hstate, hfinish]

/-- The line `echo "" <'in'	&` with two spaces. -/
theorem parseline_writes_echo :
    ∃ array tok', parseline
        (some ['e', 'c', 'h', 'o', ' ', ' ', '"', '"', ' ', '<', '\'', 'i', 'n', '\'', '\t', '&'])
        ⟨0, fun _ => none, none, none, .BUILTIN_NONE⟩ = some (.ok 1 array tok') ∧
      tok'.Shows array ⟨[['e', 'c', 'h', 'o'], []], some ['i', 'n'], none, true⟩ := by
  have hempty : Blank [] := by decide
  have hspace : Blank [' '] := by decide
  have hecho : Renders ['e', 'c', 'h', 'o'] ['e', 'c', 'h', 'o'] :=
    .bare (by simp) (by simp [delims]) (by simp [quotes])
  have hquotes : Renders [] ['"', '"'] := .quoted '"' (by decide) (by decide)
  have hfile : Renders ['i', 'n'] ['\'', 'i', 'n', '\''] := .quoted '\'' (by decide) (by decide)
  have h₂ := Writes.cons hspace (.infile hempty hfile)
    (Writes.cons (by decide : Blank ['\t']) .background (.nil hempty) (by simp)) (by simp [delims])
  have h₃ := Writes.cons hempty (.arg hecho)
    (Writes.cons (by decide : Blank [' ', ' ']) (.arg hquotes) h₂ (by simp [delims]))
    (by simp [delims])
  exact parseline_writes (c := ⟨[['e', 'c', 'h', 'o'], []], some ['i', 'n'], none, true⟩)
    ⟨by decide, by decide, by decide, by decide⟩ h₃ (by decide)
    ⟨0, fun _ => none, none, none, .BUILTIN_NONE⟩

end Line

end Tshlab
end SystemsLabs
