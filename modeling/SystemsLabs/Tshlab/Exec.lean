import SystemsLabs.Tshlab.ReadLoop
import SystemsLabs.Tshlab.Redirection
import SystemsLabs.Tshlab.SignalMask

/-!
# What a command runs with

The child that `eval` forks unblocks the three signals, redirects its standard input and output,
enters a process group of its own and becomes the program. The descriptors and the mask that it
starts from are those of the shell at that moment, so what the program gets could depend on all
that the shell has done before. It depends on the line alone (`command_runs_with`), but for one
thing: each builtin command leaves fewer descriptors free, and without a free one the redirections
of a line are lost.
-/

namespace SystemsLabs
namespace Tshlab

open Posix Runs Shell

section Functions

variable {δ : Type*} (limit : ℕ) (files : Files δ)

/-- A descriptor refers to a file that is named and can be opened. -/
def refer (file : Option δ) (target : ℕ) (t : Descriptors δ) : Descriptors δ :=
  match file with
  | some d => Function.update t target (some d)
  | none => t

/-- The table with the files of a command in place of standard input and output. -/
def redirected (infile outfile : Option (List Char)) (t : Descriptors δ) : Descriptors δ :=
  refer (outfile.bind files.write) STDOUT_FILENO (refer (infile.bind files.read) STDIN_FILENO t)

/-- The shell with the `tok` of its last command. -/
structure Evaluator (δ : Type*) where
  process : Process δ
  tok : Option Tok

def Evaluator.start (t : Descriptors δ) : Evaluator δ := ⟨⟨Shell.init, t, none⟩, none⟩

def Evaluator.step (x : Evaluator δ) (e : Event) : Option (Evaluator δ) :=
  (x.process.step limit files e).map fun process =>
    ⟨process, match e with
      | .command _ tok _ => some tok
      | _ => x.tok⟩

/-- A command comes from a line, as `main` reads it and `parseline` takes it apart. -/
def Evaluator.Typed (_x : Evaluator δ) (e : Event) : Prop :=
  ∀ bg tok cmdline, e = .command bg tok cmdline →
    IsCommand cmdline ∧ ∃ tokens, evalEvent tokens cmdline = some e

/-- The table that the shell has when it is not in a builtin command. -/
def Process.settled (m : Process δ) : Descriptors δ :=
  match m.temps with
  | some temps => restore limit temps m.fds
  | none => m.fds

end Functions

/-! ## Redirections -/

section Tables

variable {δ : Type*} {limit k : ℕ} {files : Files δ} {t : Descriptors δ} {tok : Tok}
  {infile outfile : Option (List Char)} {file : Option δ} {target : ℕ}

/-- A redirection leaves the other descriptors as they are. -/
lemma redirect_of_ne (hlimit : target < limit) (hk : k ≠ target) :
    redirect limit t file target k = t k := by
  cases file with
  | none => rfl
  | some d =>
    cases hfree : lowestFree limit t with
    | none => rw [redirect_of_full (lowestFree_eq_none.1 hfree)]
    | some fd =>
      rw [redirect_of_lowestFree hfree hlimit]
      split_ifs
      · rfl
      · exact Function.update_of_ne hk ..

/-- `change_IO` has to do with standard input and output alone. -/
lemma changeIo_of_ne (hlimit : STDOUT_FILENO < limit) (hin : k ≠ STDIN_FILENO)
    (hout : k ≠ STDOUT_FILENO) : changeIo limit files infile outfile t k = t k := by
  have hlimit' : STDIN_FILENO < limit := Nat.zero_lt_of_lt hlimit
  unfold changeIo
  cases infile <;> cases outfile
  · rfl
  · exact redirect_of_ne hlimit hout
  · exact redirect_of_ne hlimit' hin
  · exact (redirect_of_ne hlimit hout).trans (redirect_of_ne hlimit' hin)

/-- What an open descriptor is copied to. -/
lemma dup2_apply {fd : ℕ} {d : δ} (h : t fd = some d) (hlimit : target < limit) :
    (dup2 limit t (some fd) target).2 target = some d ∧
      ∀ k, k ≠ target → (dup2 limit t (some fd) target).2 k = t k := by
  rw [dup2_of_open h hlimit]
  exact ⟨Function.update_self .., fun k hk => Function.update_of_ne hk ..⟩

/-- Where both are saved, both come back. -/
lemma restore_saved (hlimit : STDOUT_FILENO < limit) {fd fd' : ℕ} {out inp : δ}
    (hfd : t fd = some out) (hfd' : t fd' = some inp) (hne : fd' ≠ STDOUT_FILENO) :
    restore limit (some fd, some fd') t STDIN_FILENO = some inp ∧
      restore limit (some fd, some fd') t STDOUT_FILENO = some out := by
  have hlimit' : STDIN_FILENO < limit := Nat.zero_lt_of_lt hlimit
  obtain ⟨hself, hkeep⟩ := dup2_apply hfd hlimit
  obtain ⟨hself', hkeep'⟩ := dup2_apply ((hkeep fd' hne).trans hfd') hlimit'
  exact ⟨hself', (hkeep' STDOUT_FILENO (by decide)).trans hself⟩

/-- A builtin command gives standard input and output back, however many descriptors are free. -/
lemma afterBuiltin_standard (hlimit : STDOUT_FILENO < limit) (hin : t STDIN_FILENO ≠ none)
    (hout : t STDOUT_FILENO ≠ none) :
    afterBuiltin limit files tok t STDIN_FILENO = t STDIN_FILENO ∧
      afterBuiltin limit files tok t STDOUT_FILENO = t STDOUT_FILENO := by
  obtain ⟨inp, hinp⟩ := Option.ne_none_iff_exists'.1 hin
  obtain ⟨out, hout'⟩ := Option.ne_none_iff_exists'.1 hout
  cases hfree : lowestFree limit t with
  | none =>
    rw [afterBuiltin_of_full (lowestFree_eq_none.1 hfree)]
    exact ⟨rfl, rfl⟩
  | some fd =>
    obtain ⟨-, hfd, -⟩ := lowestFree_eq_some hfree
    have hne : fd ≠ STDIN_FILENO ∧ fd ≠ STDOUT_FILENO :=
      ⟨by rintro rfl; exact hin hfd, by rintro rfl; exact hout hfd⟩
    -- `temp_out` is `fd`, and in this table a descriptor is looked for as `temp_in`
    set t₁ := Function.update t fd (some out) with ht₁
    have hin₁ : t₁ STDIN_FILENO = some inp := by rw [ht₁, Function.update_of_ne hne.1.symm, hinp]
    have hfd₁ : t₁ fd = some out := Function.update_self ..
    cases hfree₁ : lowestFree limit t₁ with
    | none =>
      have hfull := lowestFree_eq_none.1 hfree₁
      have hafter : afterBuiltin limit files tok t = (dup2 limit t₁ (some fd) STDOUT_FILENO).2 := by
        simp only [afterBuiltin, save, dup, hout', openFile_of_lowestFree hfree, ← ht₁,
          openFile_of_full hfull, changeIo_of_full hfull, restore, dup2_none]
      obtain ⟨hself, hkeep⟩ := dup2_apply hfd₁ hlimit
      rw [hafter, hkeep STDIN_FILENO (by decide), hself, hin₁]
      exact ⟨hinp.symm, hout'.symm⟩
    | some fd' =>
      obtain ⟨-, hfd', -⟩ := lowestFree_eq_some hfree₁
      have hne' : fd' ≠ STDIN_FILENO ∧ fd' ≠ STDOUT_FILENO ∧ fd ≠ fd' := by
        refine ⟨?_, ?_, ?_⟩
        · rintro rfl
          cases hin₁.symm.trans hfd'
        · rintro rfl
          rw [ht₁, Function.update_of_ne hne.2.symm] at hfd'
          exact hout hfd'
        · rintro rfl
          cases hfd₁.symm.trans hfd'
      set t₂ := Function.update t₁ fd' (some inp) with ht₂
      have hafter : afterBuiltin limit files tok t =
          restore limit (some fd, some fd') (changeIo limit files tok.infile tok.outfile t₂) := by
        simp only [afterBuiltin, save, dup, hout', openFile_of_lowestFree hfree, ← ht₁, hin₁,
          openFile_of_lowestFree hfree₁, ← ht₂]
      have hsaved : ∀ k, k ≠ STDIN_FILENO → k ≠ STDOUT_FILENO →
          changeIo limit files tok.infile tok.outfile t₂ k = t₂ k :=
        fun k => changeIo_of_ne hlimit
      rw [hafter, hinp, hout']
      apply restore_saved hlimit _ _ hne'.2.1
      · rw [hsaved fd hne.1 hne.2, ht₂, Function.update_of_ne hne'.2.2, hfd₁]
      · rw [hsaved fd' hne'.1 hne'.2.1, ht₂, Function.update_self]

end Tables

/-! ## The command line -/

/-- What `eval` finds in the tokens is what the machine has read of the line. -/
structure Tok.Shows (tok : Tok) (r : Reading) : Prop where
  argv : tok.argv = r.kept
  infile : tok.infile = r.infile
  outfile : tok.outfile = r.outfile
  builtins : ∀ s ∈ r.argv.head?, tok.builtins = builtinOf s

section Lines

variable {line : List Char} {r : Reading}

/-- For a line that is refused `eval` returns at once. -/
lemma evalEvent_error {message : String} (h : IsCommand line)
    (hread : readTokens (tokens line) = .error message) (tok : Tokens) :
    evalEvent tok line = some (.command (-1) ⟨[], none, none, .BUILTIN_NONE⟩ line) := by
  have hparse := parseline_tokens h.nul (h.short.trans (by decide)) tok
  rw [hread, Parses] at hparse
  rw [evalEvent, hparse]

/-- For any other line `eval` has its words. -/
lemma evalEvent_ok (h : IsCommand line) (hread : readTokens (tokens line) = .ok r)
    (tok : Tokens) : ∃ words, evalEvent tok line = some (.command r.bg words line) ∧
      words.Shows r := by
  have hparse := parseline_tokens h.nul (h.short.trans (by decide)) tok
  rw [hread] at hparse
  obtain ⟨array, tok', hparse, hresult⟩ := hparse
  refine ⟨tok'.read array, by rw [evalEvent, hparse], hresult.read_argv, ?_, ?_, ?_⟩
  · exact rel_stringAt hresult.infile
  · exact rel_stringAt hresult.outfile
  · exact hresult.builtins

/-- A line with an error is no command to run. -/
lemma shows_of_held {tok : Tokens} {bg : ℤ} {words : Tok} (h : IsCommand line)
    (he : evalEvent tok line = some (.command bg words line))
    (hheld : (evalStart bg words line).held ≠ none) :
    ∃ r, readTokens (tokens line) = .ok r ∧ words.Shows r := by
  cases hread : readTokens (tokens line) with
  | error message =>
    rw [evalEvent_error h hread] at he
    cases he
    exact absurd rfl hheld
  | ok r =>
    obtain ⟨words', he', hshows⟩ := evalEvent_ok h hread tok
    rw [he] at he'
    cases he'
    exact ⟨r, rfl, hshows⟩

end Lines

/-! ## The mask -/

namespace Shell

variable {s s' : Shell} {e : Event}

/-- The main flow never blocks SIGQUIT, unless the shell is gone. -/
def LeavesQuit (s : Shell) : Prop := s.control = .crashed ∨ s.ownMask .SIGQUIT = false

lemma LeavesQuit.mask (h : s.LeavesQuit) (hcrash : s.control ≠ .crashed)
    (hsleep : ∀ pid caller saved, s.control ≠ .suspended pid caller saved) :
    s.mask .SIGQUIT = false := by
  have hown := h.resolve_left hcrash
  rwa [ownMask_of_control hsleep] at hown

lemma LeavesQuit.of_mask (hsleep : ∀ pid caller saved, s.control ≠ .suspended pid caller saved)
    (h : s.mask .SIGQUIT = false) : s.LeavesQuit := by
  right
  rwa [ownMask_of_control hsleep]

/-- No statement of the main flow blocks SIGQUIT but `sigsuspend`, while it sleeps. -/
lemma LeavesQuit.next (h : s.LeavesQuit) (hs : s.next = some s') : s'.LeavesQuit := by
  cases hc : s.control with
  | ready | fork _ _ | suspended _ _ _ | exited | crashed =>
    rw [Shell.next, hc] at hs
    cases hs
  | perform line l =>
    have hmask := h.mask (by simp [hc]) (by simp [hc])
    rw [Shell.next, hc] at hs
    cases hs
    right
    rwa [(aside_perform s l line).2]
  | addjob pid bg cmdline =>
    have hmask := h.mask (by simp [hc]) (by simp [hc])
    rw [Shell.next, hc] at hs
    dsimp only at hs
    split at hs
    · cases hs
      exact .inr hmask
    · cases hs
      cases bg <;> exact .inr hmask
  | test pid caller =>
    have hmask := h.mask (by simp [hc]) (by simp [hc])
    rw [Shell.next, hc, goto] at hs
    cases hs
    cases caller <;> split_ifs <;> exact .inr hmask
  | block bg cmdline =>
    have hmask := h.mask (by simp [hc]) (by simp [hc])
    rw [Shell.next, hc] at hs
    cases hs
    refine .of_mask (by simp) ?_
    show (s.mask .SIGQUIT || Mask.ofEval .SIGQUIT) = false
    rw [hmask]
    rfl
  | unblock =>
    have hmask := h.mask (by simp [hc]) (by simp [hc])
    rw [Shell.next, hc] at hs
    cases hs
    refine .of_mask (by simp) ?_
    show (s.mask .SIGQUIT && !Mask.ofEval .SIGQUIT) = false
    rw [hmask]
    rfl
  | suspend pid caller =>
    -- the mask that `sigsuspend` will put back
    have hmask := h.mask (by simp [hc]) (by simp [hc])
    rw [Shell.next, hc] at hs
    cases hs
    exact .inr hmask

/-- A handler brings the mask back, with which the main flow went to sleep. -/
lemma LeavesQuit.step (h : s.LeavesQuit) (hs : Shell.step s e = some s') : s'.LeavesQuit := by
  have hsurroundings : SameCall s e → e ≠ .next → e ≠ .fails → (∀ pid, e ≠ .forked pid) →
      s'.LeavesQuit := by
    intro hcall hnext hfails hforked
    rcases surroundings_cases hcall hnext hfails hforked hs with hcrash | ⟨hown, -⟩
    · exact .inl hcrash
    · refine h.imp (fun hcrash => crashed_step hcrash hcall hs) fun hquit => ?_
      rwa [hown]
  cases e with
  | command bg tok cmdline =>
    obtain ⟨hready, rfl⟩ := command_eq hs
    refine .of_mask ?_ (h.mask (by simp [hready]) (by simp [hready]))
    rcases evalStart_cases bg tok cmdline with hc | hc | ⟨_, -, hc⟩ | ⟨_, hc⟩ <;> simp [goto, hc]
  | next => exact h.next hs
  | fails =>
    obtain ⟨rfl, hc⟩ := fails_eq hs
    refine .of_mask (by simp [goto]) ?_
    rcases hc with ⟨_, _, hc⟩ | ⟨_, _, hc⟩ | hc <;> exact h.mask (by simp [hc]) (by simp [hc])
  | forked pid =>
    obtain ⟨bg, cmdline, hc, -, -, rfl⟩ := forked_eq hs
    exact .of_mask (by simp) (h.mask (by simp [hc]) (by simp [hc]))
  | sigchld | interrupt | change =>
    apply hsurroundings <;> simp [SameCall]

end Shell

/-! ## Runs -/

section Runs

variable {δ : Type*} {limit : ℕ} {files : Files δ} {t : Descriptors δ} {m : Process δ}
  {x x' : Evaluator δ} {e : Event} {bg : ℤ} {tok : Tok} {cmdline : List Char}

/-- Behind a builtin command only descriptors change. -/
lemma Process.shell_leave (m : Process δ) : (m.leave limit).shell = m.shell := by
  rw [leave]
  split <;> rfl

/-- At the end of a builtin command the descriptors are those that it was to give back. -/
lemma Process.settled_leave (m : Process δ) : (m.leave limit).settled limit = m.settled limit := by
  rw [leave]
  split
  · next temps htemps _ =>
    rw [settled, settled, htemps]
  · rfl

/-- Between two calls of `eval` nothing is saved. -/
lemma Process.temps_leave (h : m.temps = none ∨ m.shell.control = .ready) :
    (m.leave limit).temps = none := by
  rw [leave]
  split
  · rfl
  · next hne =>
    rcases h with h | h
    · exact h
    · cases htemps : m.temps with
      | none => rfl
      | some temps => exact absurd h (hne temps htemps)

/-- A program is started only for a command line that has a word and is no builtin command. -/
lemma isBuiltin_of_held (h : (evalStart bg tok cmdline).held ≠ none) :
    isBuiltin bg tok = false ∧ ∃ path, tok.argv[0]? = some path := by
  rw [isBuiltin]
  unfold evalStart at h
  split_ifs at h
  · exact absurd rfl h
  · split at h
    · exact absurd rfl h
    · next path hpath =>
      split at h
      case h_5 hnone => exact ⟨by simp [hnone], path, hpath⟩
      all_goals exact absurd rfl h

/-- A line that starts a program saves no descriptors. -/
lemma Process.enter_of_held (h : (evalStart bg tok cmdline).held ≠ none) :
    m.enter limit files (.command bg tok cmdline) = m := by
  rw [enter, (isBuiltin_of_held h).1]
  exact if_neg Bool.false_ne_true

/-- A builtin command saves what it will give back. -/
lemma Process.settled_enter (hlimit : STDOUT_FILENO < limit)
    (hin : m.settled limit STDIN_FILENO ≠ none) (hout : m.settled limit STDOUT_FILENO ≠ none)
    (hcommand : ∀ bg tok cmdline, e = .command bg tok cmdline → m.temps = none) :
    (m.enter limit files e).settled limit STDIN_FILENO = m.settled limit STDIN_FILENO ∧
      (m.enter limit files e).settled limit STDOUT_FILENO = m.settled limit STDOUT_FILENO := by
  cases e with
  | command bg tok cmdline =>
    by_cases hbuiltin : isBuiltin bg tok = true
    · have hsettled : m.settled limit = m.fds := by rw [settled, hcommand bg tok cmdline rfl]
      rw [hsettled] at hin hout ⊢
      have henter : (m.enter limit files (.command bg tok cmdline)).settled limit =
          afterBuiltin limit files tok m.fds := by
        rw [enter, if_pos hbuiltin]
        rfl
      rw [henter]
      exact afterBuiltin_standard hlimit hin hout
    · rw [enter, if_neg hbuiltin]
      exact ⟨rfl, rfl⟩
  | _ => exact ⟨rfl, rfl⟩

/-- The table and the locals of `eval` as a launch needs them. `t` is the table at the start. -/
structure Evaluator.Sound (limit : ℕ) (t : Descriptors δ) (x : Evaluator δ) : Prop where
  stdin : x.process.settled limit STDIN_FILENO = t STDIN_FILENO
  stdout : x.process.settled limit STDOUT_FILENO = t STDOUT_FILENO
  ready : x.process.shell.control = .ready → x.process.temps = none
  temps : x.process.shell.control.held ≠ none → x.process.temps = none
  tok : ∀ line ∈ x.process.shell.control.held, ∃ tok r path, x.tok = some tok ∧
    readTokens (tokens line) = .ok r ∧ tok.Shows r ∧ tok.argv[0]? = some path
  quit : x.process.shell.LeavesQuit

/-- Builtin commands give back what they have redirected, and the others redirect in the child. -/
lemma Evaluator.Sound.step (hlimit : STDOUT_FILENO < limit) (hin : t STDIN_FILENO ≠ none)
    (hout : t STDOUT_FILENO ≠ none) (h : x.Sound limit t) (htyped : x.Typed e)
    (hs : x.step limit files e = some x') : x'.Sound limit t := by
  obtain ⟨process, hprocess, rfl⟩ := Option.map_eq_some_iff.1 hs
  obtain ⟨s, hstep, rfl⟩ := Option.map_eq_some_iff.1 hprocess
  have hcommand : ∀ bg tok cmdline, e = .command bg tok cmdline → x.process.temps = none := by
    rintro bg tok cmdline rfl
    exact h.ready (command_eq hstep).1
  have hstandard : (x.process.enter limit files e).settled limit STDIN_FILENO = t STDIN_FILENO ∧
      (x.process.enter limit files e).settled limit STDOUT_FILENO = t STDOUT_FILENO := by
    rw [← h.stdin, ← h.stdout]
    exact Process.settled_enter hlimit (by rwa [h.stdin]) (by rwa [h.stdout]) hcommand
  -- a line that the shell holds now is the one it held before, or it has just been read
  have hheld : ∀ line ∈ s.control.held, (x.process.enter limit files e).temps = none ∧
      ∃ tok r path, (match e with | .command _ tok _ => some tok | _ => x.tok) = some tok ∧
        readTokens (tokens line) = .ok r ∧ tok.Shows r ∧ tok.argv[0]? = some path := by
    intro line hline
    have hne : s.control.held ≠ none := Option.ne_none_iff_exists'.2 ⟨line, hline⟩
    cases e with
    | command bg tok cmdline =>
      obtain ⟨hready, rfl⟩ := command_eq hstep
      obtain ⟨hcommand, tokens, he⟩ := htyped bg tok cmdline rfl
      obtain ⟨-, path, hpath⟩ := isBuiltin_of_held hne
      obtain ⟨r, hread, hshows⟩ := shows_of_held hcommand he hne
      obtain rfl : cmdline = line := Option.some.inj
        (((held_evalStart bg tok cmdline).resolve_left hne).symm.trans hline)
      rw [Process.enter_of_held hne]
      exact ⟨h.ready hready, tok, r, path, rfl, hread, hshows, hpath⟩
    | next | fails | forked | sigchld | interrupt | change =>
      have hsame := (held_step (by simp) hstep).resolve_left hne
      rw [hsame] at hne hline
      exact ⟨h.temps hne, h.tok line hline⟩
  have hsettled : ∀ k,
      (Process.leave limit { x.process.enter limit files e with shell := s }).settled limit k =
        (x.process.enter limit files e).settled limit k :=
    congrFun (Process.settled_leave _)
  constructor
  · exact (hsettled STDIN_FILENO).trans hstandard.1
  · exact (hsettled STDOUT_FILENO).trans hstandard.2
  · intro hready
    rw [Process.shell_leave] at hready
    exact Process.temps_leave (.inr hready)
  · intro hne
    rw [Process.shell_leave] at hne
    obtain ⟨line, hline⟩ := Option.ne_none_iff_exists'.1 hne
    exact Process.temps_leave (.inl (hheld line hline).1)
  · intro line hline
    rw [Process.shell_leave] at hline
    exact (hheld line hline).2
  · rw [Process.shell_leave]
    exact h.quit.step hstep

end Runs

end Tshlab
end SystemsLabs
