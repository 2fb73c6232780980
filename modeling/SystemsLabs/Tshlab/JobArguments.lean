import SystemsLabs.Tshlab.Lexer
import SystemsLabs.Tshlab.Reaping

/-!
# The argument of fg and bg

What `parseline` hands over to `perform_job` is the argument behind `fg` or `bg`, or `NULL`.
`perform_job` looks for a job and goes on with what it finds, tested or not. As long as no signal
arrives there is one course only (`Course`), so a command is safe exactly when its argument names
a job (`command_safe_iff`).
-/

namespace SystemsLabs
namespace Tshlab

open Memory Runs Shell

/-! ## The command -/

/-- The tokens with their strings, as `eval` reads them. -/
def Tokens.read (tok : Tokens) (array : List Char) : Tok where
  argv := (List.range tok.argc).map fun i => ((tok.argv i).map (stringAt array)).getD []
  infile := tok.infile.map (stringAt array)
  outfile := tok.outfile.map (stringAt array)
  builtins := tok.builtins

/-- The second argument of a line, without a last one that begins with `&`. -/
def secondArgument (line : List Char) : Option (List Char) :=
  match readTokens (tokens line) with
  | .error _ => none
  | .ok r => r.kept[1]?

/-- A job that `perform_job` finds, by its ID behind `%` or else by its pid. -/
def jobOf (jobs : JobList) (id : List Char) : Option Slot :=
  if id.head? = some '%' then getjobjid jobs (atoi id.tail) else getjobpid jobs (atoi id)

/-- The argument names a live job, by its ID behind `%` or else by its pid. -/
def Names (jobs : JobList) (id : List Char) : Prop :=
  if id.head? = some '%' then
    0 < atoi id.tail ∧ ∃ i, (jobs i).pid ≠ 0 ∧ (jobs i).jid = atoi id.tail
  else ∃ i, (jobs i).pid ≠ 0 ∧ (jobs i).pid = atoi id

instance (jobs : JobList) (id : List Char) : Decidable (Names jobs id) := by
  unfold Names
  split_ifs <;> infer_instance

/-- The events of a command line while no signal arrives. -/
def quiet (bg : ℤ) (tok : Tok) (cmdline : List Char) (n : ℕ) : List Event :=
  .command bg tok cmdline :: List.replicate n .next

/-- What a command with `fg` or `bg` should be like: no `NULL` is followed, and without a job of
that name the job list stays and `kill` is not called. -/
structure CommandSafe (s : Shell) (bg : ℤ) (tok : Tok) (cmdline : List Char) : Prop where
  alive : ∀ n t, after step s (quiet bg tok cmdline n) = some t → t.control ≠ .crashed
  unnamed : (∀ id ∈ tok.argv[1]?, ¬ Names s.table.jobs id) →
    ∀ n t, after step s (quiet bg tok cmdline n) = some t →
      t.table = s.table ∧ t.children = s.children ∧ ∀ l, t.control ≠ .perform .resume l

/-! ## The lookups -/

section Lookups

variable {t : Table} {jobs : JobList} {id : List Char}

/-- `perform_job` finds a job exactly for an argument that names one. -/
lemma Table.WellFormed.jobOf_isSome_iff (h : t.WellFormed) :
    (jobOf t.jobs id).isSome = true ↔ Names t.jobs id := by
  rw [jobOf, Names]
  split_ifs
  · constructor
    · intro hsome
      obtain ⟨i, hi⟩ := Option.isSome_iff_exists.1 hsome
      obtain ⟨hpos, hjid⟩ := getjobjid_eq_some hi
      refine ⟨hpos, i, fun hpid => ?_, hjid⟩
      have := h.empty i hpid
      omega
    · rintro ⟨hpos, i, -, hjid⟩
      by_contra hnone
      rw [Bool.not_eq_true, Option.isSome_eq_false_iff, Option.isNone_iff_eq_none,
        getjobjid_eq_none hpos] at hnone
      exact hnone i hjid
  · constructor
    · intro hsome
      obtain ⟨i, hi⟩ := Option.isSome_iff_exists.1 hsome
      obtain ⟨hpos, hpid⟩ := getjobpid_eq_some hi
      exact ⟨i, by omega, hpid⟩
    · rintro ⟨i, hlive, hpid⟩
      have hpos : 0 < atoi id := by
        have := h.nonneg i
        omega
      by_contra hnone
      rw [Bool.not_eq_true, Option.isSome_eq_false_iff, Option.isNone_iff_eq_none,
        getjobpid_eq_none hpos] at hnone
      exact hnone i hpid

end Lookups

/-! ## The course of perform_job -/

/-- While `perform_job` looks for the job, where `found` is the one that it will find. -/
def Looks (jobs : JobList) (id : Option (List Char)) (found : Option Slot) : Control → Prop
  | .perform .testId l => l.id = id ∧ l.job = none
  | .perform .jidOfId l => ∃ x, l.id = some x ∧ getjobjid jobs (atoi x.tail) = found
  | .perform .jobOfJid l => getjobjid jobs l.jid = found
  | .perform .pidOfJob l => l.job = found
  | .perform .pidOfId l => l.job = none ∧ ∃ x, l.id = some x ∧ getjobpid jobs (atoi x) = found
  | .perform .jidOfPid l => l.job = none ∧ getjobpid jobs l.pid = found
  | .perform .jobOfPid l => (if l.job = none then getjobpid jobs l.pid else l.job) = found
  | .perform .setState l => l.job = found
  | .crashed => found = none
  | _ => False

/-- After that, with a job. -/
def Goes : Control → Prop
  | .perform .resume _ | .perform .finish _ => True
  | .test _ .performJob | .suspend _ .performJob | .suspended _ .performJob _ | .ready => True
  | _ => False

/-- A state on the way from `s` on. -/
def Course (s : Shell) (id : Option (List Char)) (t : Shell) : Prop :=
  let found := id.bind (jobOf s.table.jobs)
  (t.table = s.table ∧ t.children = s.children ∧ Looks s.table.jobs id found t.control) ∨
    (found.isSome = true ∧ Goes t.control)

section Course

variable {s t t' : Shell} {id : Option (List Char)} {bg : ℤ} {tok : Tok} {cmdline : List Char}
  {n : ℕ}

/-- A statement of the search. -/
lemma Course.perform {l : Locals} {line : Line} (htable : t.table = s.table)
    (hchildren : t.children = s.children)
    (h : Looks s.table.jobs id (id.bind (jobOf s.table.jobs)) (.perform line l)) :
    Course s id (t.perform l line) := by
  -- one case for each line up to the look-up of the job
  cases line with
  | testId =>
    obtain ⟨rfl, hjob⟩ := h
    rw [Shell.perform]
    cases hid : l.id with
    | none => exact .inl ⟨htable, hchildren, rfl⟩
    | some x =>
      refine .inl ⟨htable, hchildren, ?_⟩
      rw [Option.bind_some, jobOf]
      dsimp only [goto]
      split_ifs
      · exact ⟨x, hid, rfl⟩
      · exact ⟨hjob, x, hid, rfl⟩
  | jidOfId =>
    obtain ⟨x, hx, hfound⟩ := h
    refine .inl ⟨htable, hchildren, ?_⟩
    rw [← hfound]
    simp [Shell.perform, goto, Looks, hx]
  | jobOfJid =>
    refine .inl ⟨htable, hchildren, ?_⟩
    rw [← show getjobjid s.table.jobs l.jid = _ from h, ← htable]
    rfl
  | pidOfJob =>
    have hjob : l.job = _ := h
    rw [Shell.perform]
    cases hl : l.job with
    | none => exact .inl ⟨htable, hchildren, by rw [← hjob, hl]; rfl⟩
    | some i =>
      refine .inl ⟨htable, hchildren, ?_⟩
      rw [← hjob]
      simp [goto, Looks, hl]
  | pidOfId =>
    obtain ⟨hjob, x, hx, hfound⟩ := h
    refine .inl ⟨htable, hchildren, hjob, ?_⟩
    rw [← hfound]
    simp [hx]
  | jidOfPid =>
    obtain ⟨hjob, hfound⟩ := h
    exact .inl ⟨htable, hchildren, (if_pos hjob).trans hfound⟩
  | jobOfPid =>
    refine .inl ⟨htable, hchildren, ?_⟩
    rw [Shell.perform, htable]
    exact h
  | setState =>
    have hjob : l.job = _ := h
    rw [Shell.perform]
    cases hl : l.job with
    | none => exact .inl ⟨htable, hchildren, by rw [← hjob, hl]; rfl⟩
    | some i => exact .inr ⟨by rw [← hjob, hl]; rfl, trivial⟩
  | resume | finish => cases h

/-- Once the job is found, nothing can go wrong. -/
lemma Goes.next (h : Goes t.control) (ht : t.next = some t') : Goes t'.control := by
  rw [Shell.next] at ht
  -- only the lines behind the look-up are left
  cases hc : t.control with
  | perform line l =>
    rw [hc] at h ht
    cases ht
    cases line with
    | resume =>
      rw [Shell.perform]
      split <;> trivial
    | finish =>
      rw [Shell.perform, goto]
      dsimp only
      split_ifs <;> trivial
    | _ => cases h
  | test pid caller =>
    rw [hc] at h ht
    cases ht
    cases caller with
    | eval => cases h
    | performJob =>
      rw [goto]
      dsimp only
      split_ifs <;> trivial
  | suspend pid caller =>
    rw [hc] at h ht
    cases ht
    cases caller with
    | eval => cases h
    | performJob => trivial
  | ready | suspended | exited | crashed | fork =>
    rw [hc] at ht
    cases ht
  | block | addjob | unblock =>
    rw [hc] at h
    cases h

/-- One statement. -/
lemma Course.next (h : Course s id t) (ht : t.next = some t') : Course s id t' := by
  rcases h with ⟨htable, hchildren, hlooks⟩ | ⟨hfound, hgoes⟩
  · cases hc : t.control with
    | perform line l =>
      rw [Shell.next, hc] at ht
      cases ht
      rw [hc] at hlooks
      exact Course.perform htable hchildren hlooks
    | crashed =>
      rw [Shell.next, hc] at ht
      cases ht
    | _ =>
      rw [hc] at hlooks
      cases hlooks
  · exact .inr ⟨hfound, hgoes.next ht⟩

/-- `perform_job` runs on without looking at the list again. -/
lemma Course.nexts (h : Course s id t) (ht : after step t (List.replicate n .next) = some t') :
    Course s id t' := by
  induction n generalizing t with
  | zero =>
    cases ht
    exact h
  | succ n ih =>
    rw [List.replicate_succ, after_cons_eq_some] at ht
    obtain ⟨t₁, hnext, ht⟩ := ht
    exact ih (h.next hnext) ht

/-- `eval` begins the course. -/
lemma course_of_quiet (hready : s.control = .ready)
    (hstart : ∃ state, evalStart bg tok cmdline = .perform .testId ⟨id, state, 0, 0, none⟩)
    (ht : after step s (quiet bg tok cmdline n) = some t) : Course s id t := by
  obtain ⟨state, hstart⟩ := hstart
  rw [quiet, after_cons_eq_some] at ht
  obtain ⟨t₁, hcommand, ht⟩ := ht
  rw [step, hready] at hcommand
  cases hcommand
  have hcourse : Course s id (s.goto (evalStart bg tok cmdline)) := by
    rw [hstart]
    exact .inl ⟨rfl, rfl, rfl, rfl⟩
  exact hcourse.nexts ht

/-- Without a job the course ends where `NULL` is followed. -/
lemma crashes_of_none (hready : s.control = .ready)
    (hstart : ∃ state, evalStart bg tok cmdline = .perform .testId ⟨id, state, 0, 0, none⟩)
    (hnone : id.bind (jobOf s.table.jobs) = none) :
    ∃ n t, after step s (quiet bg tok cmdline n) = some t ∧ t.control = .crashed := by
  obtain ⟨state, hstart⟩ := hstart
  have hcommand : step s (.command bg tok cmdline) =
      some (s.goto (.perform .testId ⟨id, state, 0, 0, none⟩)) := by
    rw [step, hready, hstart]
  simp only [quiet, after_cons, hcommand, Option.bind_some]
  cases id with
  | none => exact ⟨1, _, rfl, rfl⟩
  | some x =>
    rw [Option.bind_some, jobOf] at hnone
    split_ifs at hnone with hx
    · refine ⟨4, s.goto .crashed, ?_, rfl⟩
      simp [after, step, Shell.next, Shell.perform, goto, hx, hnone]
    · refine ⟨5, s.goto .crashed, ?_, rfl⟩
      simp [after, step, Shell.next, Shell.perform, goto, hx, hnone]

/-- With `NULL` in place of the argument or of the job, and only then, the command goes wrong. -/
lemma commandSafe_iff_names (hwf : s.table.WellFormed) (hready : s.control = .ready)
    (hstart : ∃ state, evalStart bg tok cmdline =
      .perform .testId ⟨tok.argv[1]?, state, 0, 0, none⟩) :
    CommandSafe s bg tok cmdline ↔ ∃ id, tok.argv[1]? = some id ∧ Names s.table.jobs id := by
  have hfound : (tok.argv[1]?.bind (jobOf s.table.jobs)).isSome = true ↔
      ∃ id, tok.argv[1]? = some id ∧ Names s.table.jobs id := by
    rw [Option.isSome_bind, Option.any_eq_true]
    simp only [hwf.jobOf_isSome_iff]
  rw [← hfound]
  constructor
  · intro h
    by_contra hnone
    rw [Bool.not_eq_true, Option.isSome_eq_false_iff, Option.isNone_iff_eq_none] at hnone
    obtain ⟨n, t, ht, hcrashed⟩ := crashes_of_none hready hstart hnone
    exact h.alive n t ht hcrashed
  · intro hsome
    refine ⟨fun n t ht hcrashed => ?_, fun hunnamed => ?_⟩
    · rcases course_of_quiet hready hstart ht with ⟨-, -, hlooks⟩ | ⟨-, hgoes⟩
      · rw [hcrashed] at hlooks
        rw [show _ = none from hlooks] at hsome
        cases hsome
      · rw [hcrashed] at hgoes
        cases hgoes
    · obtain ⟨id, hid, hnames⟩ := hfound.1 hsome
      exact absurd hnames (hunnamed id hid)

end Course

/-! ## Command lines -/

section Lines

variable {s : Shell} {line array : List Char} {tok tok' : Tokens} {bg : ℤ} {r : Reading}

/-- `eval` gets the arguments that are kept. -/
lemma Tokens.Result.read_argv (h : tok.Result array r) : (tok.read array).argv = r.kept := by
  apply List.ext_getElem?
  intro i
  rw [Tokens.read, List.getElem?_map]
  rcases lt_or_ge i r.kept.length with hi | hi
  · obtain ⟨p, hp, hends⟩ := h.argv i _ (List.getElem?_eq_getElem hi)
    rw [List.getElem?_range (by rwa [h.argc]), List.getElem?_eq_getElem hi]
    simp [hp, hends.stringAt_eq]
  · rw [List.getElem?_eq_none hi, List.getElem?_eq_none (by simpa [h.argc] using hi)]
    rfl

/-- A line that is taken is not reported as an error. -/
lemma Reading.bg_ne (r : Reading) : r.bg ≠ -1 := by
  rw [bg]
  split_ifs <;> decide

/-- `eval` calls `perform_job` with the second argument. -/
lemma Tokens.Result.evalStart_eq (h : tok.Result array r) (hargc : tok.argc ≠ 0)
    (hclass : tok.builtins = .BUILTIN_FG ∨ tok.builtins = .BUILTIN_BG) :
    ∃ state, evalStart r.bg (tok.read array) line =
      .perform .testId ⟨(tok.read array).argv[1]?, state, 0, 0, none⟩ := by
  obtain ⟨name, hname⟩ : ∃ name, (tok.read array).argv[0]? = some name := by
    refine ⟨_, List.getElem?_eq_getElem ?_⟩
    rw [h.read_argv, ← h.argc]
    exact Nat.pos_of_ne_zero hargc
  have hbuiltins : (tok.read array).builtins = tok.builtins := rfl
  rcases hclass with hclass | hclass
  · exact ⟨.FG, by rw [evalStart, if_neg r.bg_ne, hname, hbuiltins, hclass]⟩
  · exact ⟨.BG, by rw [evalStart, if_neg r.bg_ne, hname, hbuiltins, hclass]⟩

/-- `fg` and `bg` are safe exactly on the lines with a second argument that names a live job. -/
theorem command_safe_iff (hs : Reaches step (fun _ _ => True) init s) (hready : s.control = .ready)
    (hnul : '\x00' ∉ line) (hlen : line.length < MAXLINE)
    (hparse : parseline (some line) tok = some (.ok bg array tok')) (hargc : tok'.argc ≠ 0)
    (hclass : tok'.builtins = .BUILTIN_FG ∨ tok'.builtins = .BUILTIN_BG) :
    CommandSafe s bg (tok'.read array) line ↔
      ∃ id, secondArgument line = some id ∧ Names s.table.jobs id := by
  have hsound : s.Sound := hs.invariant sound_init fun s e s' h _ he => h.step he
  obtain ⟨r, hread, rfl, hresult⟩ := reading_of_parseline hnul hlen hparse
  rw [secondArgument, hread]
  dsimp only
  rw [← hresult.read_argv]
  exact commandSafe_iff_names hsound.books.wf hready (hresult.evalStart_eq hargc hclass)

/-- A job in the background. -/
def backgroundRun : List Event := launch 2 true ++ [.next]

def background : Shell := (after step init backgroundRun).get (by decide +kernel)

theorem command_safe_background : ∃ bg array tok,
    CommandSafe background bg (Tokens.read tok array) "fg %1".toList := by
  have hrun : Reaches step (fun _ _ => True) init background :=
    reaches_of_after (Option.some_get _).symm (by decide +kernel : Meets _ _ init backgroundRun)
  have hready : background.control = .ready := by
    have hsome : (step background (.command 0 ⟨[], none, none, .BUILTIN_NONE⟩ [])).isSome := by
      decide +kernel
    obtain ⟨s, hs⟩ := Option.isSome_iff_exists.1 hsome
    exact (command_eq hs).1
  obtain ⟨array, tok, hparse, hresult⟩ := parseline_tokens (show '\x00' ∉ "fg %1".toList by decide)
    (by decide) ⟨0, fun _ => none, none, none, .BUILTIN_NONE⟩
  have hargc : tok.argc ≠ 0 := by
    rw [hresult.argc]
    decide
  exact ⟨_, _, _, (command_safe_iff hrun hready (by decide) (by decide) hparse hargc
    (.inl (hresult.builtins _ rfl))).2 ⟨['%', '1'], by decide, by decide +kernel⟩⟩

/-- `fg` alone follows `NULL`. -/
theorem not_command_safe_alone : ¬ ∀ s line tok bg array tok',
    Reaches step (fun _ _ => True) init s → s.control = .ready →
    '\x00' ∉ line → line.length < MAXLINE →
    parseline (some line) tok = some (.ok bg array tok') → tok'.argc ≠ 0 →
    (tok'.builtins = .BUILTIN_FG ∨ tok'.builtins = .BUILTIN_BG) →
    CommandSafe s bg (tok'.read array) line := by
  intro h
  obtain ⟨array, tok, hparse, hresult⟩ := parseline_tokens (show '\x00' ∉ "fg".toList by decide)
    (by decide) ⟨0, fun _ => none, none, none, .BUILTIN_NONE⟩
  have hargc : tok.argc ≠ 0 := by
    rw [hresult.argc]
    decide
  have hclass : tok.builtins = .BUILTIN_FG ∨ tok.builtins = .BUILTIN_BG :=
    .inl (hresult.builtins _ rfl)
  have hsafe := h init _ _ _ _ _ (Reaches.refl init) rfl (by decide) (by decide) hparse hargc hclass
  obtain ⟨n, t, ht, hcrashed⟩ := crashes_of_none (s := init) rfl (hresult.evalStart_eq hargc hclass)
    (by rw [hresult.read_argv]; decide)
  exact hsafe.alive n t ht hcrashed

end Lines

end Tshlab
end SystemsLabs
