import SystemsLabs.Posix.Lines
import SystemsLabs.Tshlab.JobArguments
import SystemsLabs.Tshlab.JobStates

/-!
# The read/eval loop of tsh.c

`main` reads a command with `fgets`, cuts off its last character and hands it to `eval`. The
last character is the newline only where the line fits: a longer line is cut, loses a
character at each cut, and is several commands. What stands behind the last newline is lost, too,
unless it is so long that `fgets` does not meet the end. So the commands are the lines of the
input exactly if each line is short enough (`commands_eq_lines_iff`).

`Main` is the shell together with its input. The children inherit the standard input, so one that
reads, or that ends with `exit` after `execve` has failed, may change what comes next there. The
handlers are installed with `SA_RESTART`, so a signal leaves the input alone. Whatever happens,
every job shows a line that `eval` has been called with (`listed_lines`).
-/

namespace SystemsLabs
namespace Tshlab

open Posix Runs

/-! ## The commands of an input -/

/-- `cmdline[strlen(cmdline)-1] = '\0'`, which writes in front of the array if the string is
empty. -/
def removeNewline (line : List Char) : Option (List Char) :=
  match line.takeWhile (· ≠ '\x00') with
  | [] => none
  | string => some string.dropLast

/-- A turn of the loop: `exit` at the end of the input, a write in front of `cmdline`, or a
call of `eval` with what is left of the input. -/
inductive Turn
  | exit
  | stray
  | eval (cmdline rest : List Char)

/-- The loop of `main` up to the call of `eval`. -/
def mainTurn (input : List Char) : Turn :=
  let got := fgets '\n' MAXLINE input
  if got.atEnd then .exit
  else
    match removeNewline got.line with
    | none => .stray
    | some cmdline => .eval cmdline got.rest

/-- How the loop comes to its end. -/
inductive Ending
  | exit
  | stray
deriving DecidableEq

/-- Each turn uses up some of the input. -/
lemma rest_lt_of_eval {input cmdline rest : List Char} (h : mainTurn input = .eval cmdline rest) :
    rest.length < input.length := by
  rw [mainTurn] at h
  split at h
  · cases h
  · next hend =>
    split at h
    · cases h
    · cases h
      have hend' : (getLine '\n' (MAXLINE - 1) input).atEnd = false := by simpa [fgets] using hend
      have hline : (getLine '\n' (MAXLINE - 1) input).line ≠ [] :=
        line_ne_nil (k := MAXLINE - 2) hend'
      have happend : (getLine '\n' (MAXLINE - 1) input).line ++ _ = input :=
        line_append_rest (MAXLINE - 1) input
      have hsplit := congrArg List.length happend
      have hpos := List.length_pos_iff.2 hline
      rw [List.length_append] at hsplit
      show (getLine '\n' (MAXLINE - 1) input).rest.length < input.length
      omega

/-- The arguments of `eval` one after the other, for as long as it returns. -/
def commands (input : List Char) : List (List Char) × Ending :=
  match _h : mainTurn input with
  | .exit => ([], .exit)
  | .stray => ([], .stray)
  | .eval cmdline rest =>
    let later := commands rest
    (cmdline :: later.1, later.2)
termination_by input.length
decreasing_by exact rest_lt_of_eval _h

variable {input line rest cmdline : List Char}

lemma commands_of_exit (h : mainTurn input = .exit) : commands input = ([], .exit) := by
  rw [commands]
  split <;> simp_all

lemma commands_of_stray (h : mainTurn input = .stray) : commands input = ([], .stray) := by
  rw [commands]
  split <;> simp_all

lemma commands_of_eval (h : mainTurn input = .eval cmdline rest) :
    commands input = (cmdline :: (commands rest).1, (commands rest).2) := by
  rw [commands]
  split <;> simp_all

/-! ## Where the commands are the lines -/

/-- The lines of the input, and what stands behind the last newline. -/
def pieces (input : List Char) : List (List Char) := input.splitOn '\n'

/-- Every line, with its newline, fits into `cmdline` and is a string, and what stands behind the
last newline is not taken for a line. -/
def LinesFit (input : List Char) : Prop :=
  (∀ piece ∈ pieces input, piece.length < MAXLINE - 1) ∧
    ∀ piece ∈ (pieces input).dropLast, '\x00' ∉ piece

/-- A line is handed over without its newline. -/
lemma removeNewline_line (hnul : '\x00' ∉ line) : removeNewline (line ++ ['\n']) = some line := by
  have hstring : (line ++ ['\n']).takeWhile (· ≠ '\x00') = line ++ ['\n'] := by
    rw [List.takeWhile_eq_self_iff]
    intro c hc
    rcases List.mem_append.1 hc with hc | hc
    · simpa using fun h : c = '\x00' => hnul (h ▸ hc)
    · rw [List.mem_singleton.1 hc]
      decide
  rw [removeNewline, hstring]
  cases line with
  | nil => rfl
  | cons c line =>
    have hlast : ((c :: line) ++ ['\n']).dropLast = c :: line := List.dropLast_concat
    exact congrArg some hlast

/-- What is handed to `eval` is a string, and shorter than what `fgets` has read. -/
lemma removeNewline_spec (h : removeNewline line = some cmdline) :
    '\x00' ∉ cmdline ∧ cmdline.length < line.length ∧ cmdline <+: line.dropLast := by
  rw [removeNewline] at h
  have hpre : line.takeWhile (· ≠ '\x00') <+: line := List.takeWhile_prefix _
  have hnul : '\x00' ∉ line.takeWhile (· ≠ '\x00') := by
    intro hmem
    simpa using List.mem_takeWhile_imp hmem
  split at h
  · cases h
  · next string hstring =>
    cases h
    have hpos := List.length_pos_iff.2 hstring
    refine ⟨fun hmem => hnul (List.mem_of_mem_dropLast hmem), ?_, ?_⟩
    · have hle := hpre.length_le
      rw [List.length_dropLast]
      omega
    · apply List.prefix_of_prefix_length_le _ line.dropLast_prefix
      · rw [List.length_dropLast, List.length_dropLast]
        exact Nat.sub_le_sub_right hpre.length_le 1
      · exact (List.dropLast_prefix _).trans hpre

/-- A line that fits and is a string is handed over as it is. -/
lemma mainTurn_line (hline : '\n' ∉ line) (hlen : line.length < MAXLINE - 1)
    (hnul : '\x00' ∉ line) : mainTurn (line ++ '\n' :: rest) = .eval line rest := by
  rw [mainTurn, fgets, getLine_line hline hlen]
  simp only [removeNewline_line hnul, Bool.false_eq_true, if_false]

/-- A line with a NUL or without room is not handed over as it is. -/
lemma mainTurn_ne (hline : '\n' ∉ line) (hbad : MAXLINE - 1 ≤ line.length ∨ '\x00' ∈ line) :
    mainTurn (line ++ '\n' :: rest) ≠ .exit ∧
      ∀ rest', mainTurn (line ++ '\n' :: rest) ≠ .eval line rest' := by
  have hturn : ∀ got, fgets '\n' MAXLINE (line ++ '\n' :: rest) = got → got.atEnd = false →
      removeNewline got.line ≠ some line → mainTurn (line ++ '\n' :: rest) ≠ .exit ∧
        ∀ rest', mainTurn (line ++ '\n' :: rest) ≠ .eval line rest' := by
    rintro got hgot hend hne
    rw [mainTurn, hgot]
    simp only [hend, Bool.false_eq_true, if_false]
    cases hremove : removeNewline got.line with
    | none => simp
    | some cmdline =>
      rw [hremove] at hne
      simpa using fun h => absurd (congrArg some h) hne
  by_cases hlen : line.length < MAXLINE - 1
  · have hnul := hbad.resolve_left (by omega)
    apply hturn _ (getLine_line hline hlen) rfl
    intro hremove
    exact (removeNewline_spec hremove).1 hnul
  · apply hturn _ (getLine_cut hline (not_lt.1 hlen)) rfl
    intro hremove
    have hshort := (removeNewline_spec hremove).2.1
    rw [List.length_take] at hshort
    omega

/-- What stands behind the last newline is dropped if the end is met. -/
lemma mainTurn_tail (hline : '\n' ∉ line) :
    mainTurn line = .exit ↔ line.length < MAXLINE - 1 := by
  constructor
  · intro hturn
    by_contra hlen
    have hcut : getLine '\n' (MAXLINE - 1) (line ++ []) = _ := getLine_cut hline (not_lt.1 hlen)
    rw [List.append_nil] at hcut
    rw [mainTurn, fgets, hcut] at hturn
    simp only [Bool.false_eq_true, if_false] at hturn
    split at hturn <;> cases hturn
  · intro hlen
    rw [mainTurn, fgets, getLine_tail hline hlen]
    rfl

/-- The first piece is the first line. -/
lemma pieces_line (hline : '\n' ∉ line) : pieces (line ++ '\n' :: rest) = line :: pieces rest :=
  List.splitOn_append_cons_self_of_not_mem hline rest

/-- The first line fits, and so does the rest. -/
lemma linesFit_line (hline : '\n' ∉ line) : LinesFit (line ++ '\n' :: rest) ↔
    (line.length < MAXLINE - 1 ∧ '\x00' ∉ line) ∧ LinesFit rest := by
  have hne : pieces rest ≠ [] := List.splitOn_ne_nil _ _
  simp only [LinesFit, pieces_line hline, List.dropLast_cons_of_ne_nil hne, List.forall_mem_cons]
  tauto

/-- `eval` gets the lines of the input, and the shell ends with the input, exactly if every line
fits and is a string and the rest behind the last newline is short. -/
theorem commands_eq_lines_iff (input : List Char) :
    commands input = ((pieces input).dropLast, .exit) ↔ LinesFit input := by
  induction hn : input.length using Nat.strong_induction_on generalizing input with
  | _ n ih =>
  by_cases hmem : '\n' ∈ input
  · obtain ⟨line, rest, rfl, hline⟩ := List.eq_append_cons_of_mem hmem
    have hne : pieces rest ≠ [] := List.splitOn_ne_nil _ _
    rw [linesFit_line hline, pieces_line hline, List.dropLast_cons_of_ne_nil hne]
    by_cases hfit : line.length < MAXLINE - 1 ∧ '\x00' ∉ line
    · -- the line is the first command, and the rest is as the rest of the input
      have hlt : rest.length < n := by
        rw [← hn, List.length_append, List.length_cons]
        omega
      rw [commands_of_eval (mainTurn_line hline hfit.1 hfit.2), ← ih _ hlt rest rfl]
      simp [hfit, Prod.ext_iff]
    · have hbad : MAXLINE - 1 ≤ line.length ∨ '\x00' ∈ line := by
        by_contra hgood
        push Not at hgood
        exact hfit hgood
      obtain ⟨hexit, heval⟩ : mainTurn (line ++ '\n' :: rest) ≠ .exit ∧ _ := mainTurn_ne hline hbad
      refine iff_of_false ?_ fun h => hfit h.1
      intro hcommands
      cases hturn : mainTurn (line ++ '\n' :: rest) with
      | exit => exact hexit hturn
      | stray =>
        rw [commands_of_stray hturn] at hcommands
        cases hcommands
      | eval cmdline rest' =>
        rw [commands_of_eval hturn] at hcommands
        have hfirst := List.head_eq_of_cons_eq (congrArg Prod.fst hcommands)
        rw [hfirst] at hturn
        exact heval rest' hturn
  · have hpieces : pieces input = [input] := List.splitOn_eq_singleton hmem
    rw [LinesFit, hpieces]
    simp only [List.dropLast_singleton, List.mem_singleton, forall_eq, List.not_mem_nil,
      false_imp_iff, implies_true, and_true]
    rw [← mainTurn_tail hmem]
    constructor
    · intro hcommands
      cases hturn : mainTurn input with
      | exit => rfl
      | stray =>
        rw [commands_of_stray hturn] at hcommands
        cases hcommands
      | eval cmdline rest =>
        rw [commands_of_eval hturn] at hcommands
        cases congrArg Prod.fst hcommands
    · exact commands_of_exit

/-- What `eval` gets is a string without a newline that leaves room for one. -/
structure IsCommand (cmdline : List Char) : Prop where
  short : cmdline.length < MAXLINE - 1
  nul : '\x00' ∉ cmdline
  newline : '\n' ∉ cmdline

/-- `fgets` leaves room for what it has cut off, and reads no further than to the newline. -/
lemma isCommand_of_eval (h : mainTurn input = .eval cmdline rest) : IsCommand cmdline := by
  rw [mainTurn] at h
  split at h
  · cases h
  · split at h
    · cases h
    · next hremove =>
      cases h
      obtain ⟨hnul, hlen, hpre⟩ := removeNewline_spec hremove
      refine ⟨hlen.trans_le (length_line_le _ _), hnul, ?_⟩
      intro hmem
      exact newline_notMem_dropLast (MAXLINE - 1) input (hpre.subset hmem)

/-! ## The loop and the signals -/

/-- What `eval(cmdline)` does first: `parseline` fills `tok`, whatever is in it before. -/
def evalEvent (tok : Tokens) (cmdline : List Char) : Option Event :=
  match parseline (some cmdline) tok with
  | none => none
  | some (.error _) => some (.command (-1) ⟨[], none, none, .BUILTIN_NONE⟩ cmdline)
  | some (.ok bg array tok) => some (.command bg (tok.read array) cmdline)

/-- The shell and its input. `evaluated` is no variable of the program: it records the arguments
of `eval`. -/
structure Main where
  shell : Shell
  input : List Char
  evaluated : List (List Char)

/-- The main flow reads on, a process that shares the standard input changes what comes there, or
something else happens that is no command. -/
inductive MainEvent
  | read (tok : Tokens)
  | stdin (input : List Char)
  | other (e : Event)

namespace Main

/-- The shell before it reads. -/
def start (input : List Char) : Main := ⟨Shell.init, input, []⟩

/-- The loop of `main` takes a turn. -/
def read (m : Main) (tok : Tokens) : Option Main :=
  match m.shell.control, mainTurn m.input with
  | .ready, .exit => some ⟨m.shell.goto .exited, [], m.evaluated⟩
  | .ready, .eval cmdline rest => do
    let shell ← Shell.step m.shell (← evalEvent tok cmdline)
    some ⟨shell, rest, m.evaluated ++ [cmdline]⟩
  | _, _ => none

/-- One step of the program or of its surroundings. Behind a write in front of `cmdline` there is
none. -/
def step (m : Main) : MainEvent → Option Main
  | .read tok => m.read tok
  | .stdin input => some { m with input := input }
  | .other (.command _ _ _) => none
  | .other e => (Shell.step m.shell e).map fun shell => { m with shell := shell }

variable {m m' : Main} {tok : Tokens} {e : Event}

/-- What a turn of the loop does: it ends with the input, or calls `eval` with a line. -/
lemma read_cases (h : m.read tok = some m') :
    m.shell.control = .ready ∧
      (mainTurn m.input = .exit ∧ m' = ⟨m.shell.goto .exited, [], m.evaluated⟩ ∨
        ∃ cmdline rest bg words, mainTurn m.input = .eval cmdline rest ∧
          evalEvent tok cmdline = some (.command bg words cmdline) ∧
          Shell.step m.shell (.command bg words cmdline) = some m'.shell ∧
          m'.input = rest ∧ m'.evaluated = m.evaluated ++ [cmdline]) := by
  rw [read] at h
  split at h
  · next hc hturn =>
    cases h
    exact ⟨hc, .inl ⟨hturn, rfl⟩⟩
  · next cmdline rest hc hturn =>
    refine ⟨hc, .inr ?_⟩
    obtain ⟨e, he, h⟩ := Option.bind_eq_some_iff.1 h
    obtain ⟨shell, hs, h⟩ := Option.bind_eq_some_iff.1 h
    cases h
    have hcommand : ∃ bg words, e = .command bg words cmdline := by
      rw [evalEvent] at he
      split at he
      · cases he
      · cases he
        exact ⟨_, _, rfl⟩
      · cases he
        exact ⟨_, _, rfl⟩
    obtain ⟨bg, words, rfl⟩ := hcommand
    exact ⟨cmdline, rest, bg, words, hturn, he, hs, rfl, rfl⟩
  · cases h

/-- Any other event is a step of the shell and leaves the input alone. -/
lemma other_eq (h : m.step (.other e) = some m') :
    (∀ bg words cmdline, e ≠ .command bg words cmdline) ∧ Shell.step m.shell e = some m'.shell ∧
      m'.input = m.input ∧ m'.evaluated = m.evaluated := by
  cases e with
  | command bg words cmdline => cases h
  | _ =>
    obtain ⟨shell, hs, rfl⟩ := Option.map_eq_some_iff.1 h
    exact ⟨by simp, hs, rfl, rfl⟩

end Main

/-- Two commands, the second without a newline. -/
def typed : List Char := "/a &\nquit".toList

/-- The shell reads the first and adds its job. -/
def typedRun : List MainEvent :=
  [.read ⟨0, fun _ => none, none, none, .BUILTIN_NONE⟩, .other .next, .other (.forked 2),
    .other .next]

/-- The state after that run. -/
def added : Main := (after Main.step (Main.start typed) typedRun).get (by decide +kernel)

/-! ## The command lines of the jobs -/

/-- The command line that `eval` is about to add to the list. -/
def Control.held : Control → Option (List Char)
  | .block _ cmdline | .fork _ cmdline | .addjob _ _ cmdline => some cmdline
  | _ => none

lemma Control.FollowsPerform.held {c : Control} (h : c.FollowsPerform) : c.held = none := by
  cases h <;> rfl

namespace Shell

variable {s s' : Shell} {e : Event}

/-- `eval` holds its own line, if any. -/
lemma held_evalStart (bg : ℤ) (tok : Tok) (cmdline : List Char) :
    (evalStart bg tok cmdline).held = none ∨ (evalStart bg tok cmdline).held = some cmdline := by
  rcases evalStart_cases bg tok cmdline with h | h | ⟨_, -, h⟩ | ⟨_, h⟩
  case inr.inr.inr =>
    rw [h]
    exact .inr rfl
  all_goals
    rw [h]
    exact .inl rfl

/-- A handler that wakes the main flow up finds no line held. -/
lemma held_handlerReturns (s : Shell) :
    s.handlerReturns.control.held = none ∨ s.handlerReturns.control.held = s.control.held := by
  unfold handlerReturns
  split
  · exact .inl rfl
  · exact .inr rfl

/-- The main flow lets a line go, but takes no new one. -/
lemma held_next (hs : s.next = some s') :
    s'.control.held = none ∨ s'.control.held = s.control.held := by
  cases hc : s.control with
  | perform line l =>
    rw [next, hc] at hs
    cases hs
    exact .inl (control_perform s l line).1.held
  | block bg cmdline =>
    rw [next, hc] at hs
    cases hs
    exact .inr rfl
  | addjob pid bg cmdline =>
    rw [next, hc] at hs
    dsimp only at hs
    left
    split at hs
    · cases hs
      rfl
    · cases hs
      cases bg <;> rfl
  | test pid caller =>
    rw [next, hc] at hs
    cases hs
    left
    rw [goto]
    cases caller <;> split_ifs <;> rfl
  | unblock | suspend _ _ =>
    rw [next, hc] at hs
    cases hs
    exact .inl rfl
  | ready | fork _ _ | suspended _ _ _ | exited | crashed =>
    rw [next, hc] at hs
    cases hs

/-- Only a new command brings a new line. -/
lemma held_step (hcommand : ∀ bg words cmdline, e ≠ .command bg words cmdline)
    (hs : step s e = some s') : s'.control.held = none ∨ s'.control.held = s.control.held := by
  cases e with
  | command bg words cmdline => exact absurd rfl (hcommand bg words cmdline)
  | next => exact held_next hs
  | fails =>
    obtain ⟨rfl, -⟩ := fails_eq hs
    exact .inl rfl
  | forked pid =>
    obtain ⟨bg, cmdline, hc, -, -, rfl⟩ := forked_eq hs
    right
    rw [hc]
    rfl
  | sigchld reports =>
    obtain ⟨-, -, -, t, ht, rfl⟩ := sigchld_eq hs
    rcases held_handlerReturns t with hline | hline
    · exact .inl hline
    · obtain ⟨-, hc | hc⟩ := sigchldHandler_control ht
      · right
        rw [hline, hc]
      · left
        rw [hline, hc]
        rfl
  | interrupt sig =>
    have := interrupt_eq hs
    subst this
    exact held_handlerReturns s
  | change pid c =>
    obtain ⟨status, rfl⟩ := change_eq hs
    exact .inr rfl

/-- The lines that the shell holds are among these, and an empty slot without one is cleared. -/
structure Shows (lines : List (List Char)) (s : Shell) : Prop where
  held : ∀ cmdline ∈ s.control.held, cmdline ∈ lines
  jobs : ∀ k, (s.table.jobs k).cmdline ∈ lines ∨
    (s.table.jobs k).pid = 0 ∧ (s.table.jobs k).cmdline = []

/-- A step adds a job under the line that was held, or no job at all. -/
lemma Shows.step {lines lines' : List (List Char)} (h : Shows lines s) (hb : s.Books)
    (hs : Shell.step s e = some s') (hlines : ∀ l ∈ lines, l ∈ lines')
    (hline : s'.control.held = none ∨ s'.control.held = s.control.held ∨
      ∃ l ∈ lines', s'.control.held = some l) : Shows lines' s' where
  held := by
    intro cmdline hc
    rcases hline with hnone | hsame | ⟨l, hl, hsome⟩
    · rw [hnone] at hc
      cases hc
    · rw [hsame] at hc
      exact hlines _ (h.held cmdline hc)
    · rw [hsome] at hc
      cases hc
      exact hl
  jobs := by
    intro k
    have hold := (h.jobs k).imp_left (hlines _)
    cases slotStep hb hs k with
    | same hk =>
      rw [hk]
      exact hold
    | added pid bg cmdline hc _ hk =>
      rw [hk]
      exact .inl (hlines _ (h.held cmdline (by rw [hc]; rfl)))
    | reaped _ _ _ hk =>
      rw [hk]
      exact .inr ⟨rfl, rfl⟩
    | stopped _ _ hk =>
      rw [hk]
      exact hold
    | resumed l _ _ _ hk =>
      rw [hk]
      exact hold

end Shell

namespace Main

variable {m m' : Main} {e : MainEvent}

/-- Reading is a step of the shell, or ends it. -/
lemma sound_step (h : m.shell.Sound) (hs : m.step e = some m') : m'.shell.Sound := by
  cases e with
  | read tok =>
    obtain ⟨-, ⟨-, rfl⟩ | ⟨cmdline, rest, bg, words, -, -, hstep, -, -⟩⟩ := read_cases hs
    · exact h.of_sameIds (.of_unshielded rfl rfl) (.of_eq rfl rfl rfl) (.inl rfl)
    · exact h.step hstep
  | stdin input =>
    cases hs
    exact h
  | other e => exact h.step (other_eq hs).2.1

/-- The line that is read is evaluated, and nothing else brings a line in. -/
lemma shows_step (h : Shell.Shows m.evaluated m.shell) (hsound : m.shell.Sound)
    (hs : m.step e = some m') : Shell.Shows m'.evaluated m'.shell := by
  cases e with
  | read tok =>
    obtain ⟨-, ⟨-, rfl⟩ | ⟨cmdline, rest, bg, words, -, -, hstep, -, heval⟩⟩ := read_cases hs
    · exact ⟨fun _ hc => (by cases hc), h.jobs⟩
    · rw [heval]
      apply h.step hsound.books hstep
      · intro l hl
        exact List.mem_append_left _ hl
      · obtain ⟨-, hshell⟩ := Shell.command_eq hstep
        rw [hshell]
        rcases Shell.held_evalStart bg words cmdline with hline | hline
        · exact .inl hline
        · exact .inr (.inr ⟨cmdline, List.mem_append_right _ List.mem_cons_self, hline⟩)
  | stdin input =>
    cases hs
    exact h
  | other e =>
    obtain ⟨hcommand, hstep, -, heval⟩ := other_eq hs
    rw [heval]
    apply h.step hsound.books hstep fun _ hl => hl
    rcases Shell.held_step hcommand hstep with hline | hline
    · exact .inl hline
    · exact .inr (.inl hline)

end Main

/-- In every run from every input, the command line of every job is one that `eval` has been
called with. -/
theorem listed_lines {ok : Main → MainEvent → Prop} {input : List Char} {m : Main}
    (h : Reaches Main.step ok (Main.start input) m) {k : Slot}
    (hpid : (m.shell.table.jobs k).pid ≠ 0) :
    (m.shell.table.jobs k).cmdline ∈ m.evaluated := by
  have hinv : m.shell.Sound ∧ Shell.Shows m.evaluated m.shell := by
    apply h.invariant ⟨Shell.sound_init, fun _ hc => (by cases hc), fun _ => .inr ⟨rfl, rfl⟩⟩
    rintro u e u' ⟨hsound, hshows⟩ - he
    exact ⟨Main.sound_step hsound he, Main.shows_step hshows hsound he⟩
  exact (hinv.2.jobs k).resolve_right fun h => hpid h.1

theorem listed_lines_typed : (added.shell.table.jobs 0).cmdline ∈ added.evaluated := by
  have hrun : Reaches Main.step (fun _ _ => True) (Main.start typed) added :=
    reaches_of_after (Option.some_get _).symm
      (by decide +kernel : Meets _ (fun _ _ => True) (Main.start typed) typedRun)
  exact listed_lines hrun (by decide +kernel)

end Tshlab
end SystemsLabs
