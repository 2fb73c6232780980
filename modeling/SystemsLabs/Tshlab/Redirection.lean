import SystemsLabs.Posix.Descriptors
import SystemsLabs.Tshlab.Reaping

/-!
# The descriptors of the shell

`eval` saves standard output and input in two new descriptors before a builtin command, lets
`change_IO` redirect them, and points them back afterwards. It does not close the two. The machine
of the shell runs with its descriptor table (`Process`), and `builtin_keeps_descriptors_iff` says
when a builtin command leaves the table as it was. Otherwise there are fewer descriptors left with
every command, until there is none (`descriptors_run_out`).
-/

namespace SystemsLabs
namespace Tshlab

open Posix Runs Shell

def STDIN_FILENO : ℕ := 0

def STDOUT_FILENO : ℕ := 1

/-- What `change_IO` gets when it opens a file for reading or for writing, if it can. -/
structure Files (δ : Type*) where
  read : List Char → Option δ
  write : List Char → Option δ

section Functions

variable {δ : Type*} (limit : ℕ) (files : Files δ)

/-- `change_IO(infile, outfile)`. The message where `dup2` fails is left out. -/
def changeIo (infile outfile : Option (List Char)) (t : Descriptors δ) : Descriptors δ :=
  let t :=
    match infile with
    | some infile => redirect limit t (files.read infile) STDIN_FILENO
    | none => t
  match outfile with
  | some outfile => redirect limit t (files.write outfile) STDOUT_FILENO
  | none => t

/-- The shell with its descriptor table, and `temp_out` and `temp_in` while `eval` executes a
builtin command. -/
structure Process (δ : Type*) where
  shell : Shell
  fds : Descriptors δ
  temps : Option (Option ℕ × Option ℕ)

/-- `eval` executes a builtin command. -/
def isBuiltin (bg : ℤ) (tok : Tok) : Bool :=
  bg ≠ -1 ∧ tok.argv[0]?.isSome ∧ tok.builtins ≠ .BUILTIN_NONE

/-- What `eval` does in front of `handle_builtin`. -/
def save (tok : Tok) (t : Descriptors δ) : (Option ℕ × Option ℕ) × Descriptors δ :=
  let (temp_out, t) := dup limit t STDOUT_FILENO
  let (temp_in, t) := dup limit t STDIN_FILENO
  ((temp_out, temp_in), changeIo limit files tok.infile tok.outfile t)

/-- What `eval` does behind `handle_builtin`. -/
def restore (temps : Option ℕ × Option ℕ) (t : Descriptors δ) : Descriptors δ :=
  let t := (dup2 limit t temps.1 STDOUT_FILENO).2
  (dup2 limit t temps.2 STDIN_FILENO).2

/-- `eval` saves the descriptors where it begins with a builtin command. -/
def Process.enter (m : Process δ) : Event → Process δ
  | .command bg tok _ =>
    if isBuiltin bg tok then
      let (temps, fds) := save limit files tok m.fds
      { m with fds := fds, temps := some temps }
    else m
  | _ => m

/-- `eval` points the descriptors back where it returns from a builtin command. -/
def Process.leave (m : Process δ) : Process δ :=
  match m.temps, m.shell.control with
  | some temps, .ready => { m with fds := restore limit temps m.fds, temps := none }
  | _, _ => m

/-- One step. Neither `handle_builtin` nor a handler changes the table. -/
def Process.step (m : Process δ) (e : Event) : Option (Process δ) :=
  (m.shell.step e).map fun s => ({ m.enter limit files e with shell := s }).leave limit

/-- `eval` is in a builtin command, or has returned from it. `fds` is the table that
`handle_builtin` runs with. -/
def Process.Within (temps : Option ℕ × Option ℕ) (fds : Descriptors δ) (m : Process δ) : Prop :=
  m.temps = some temps ∧ m.fds = fds ∧ m.shell.control ≠ .ready ∨
    m.temps = none ∧ m.fds = restore limit temps fds

/-- A builtin command has no effect on the table: there is no room for a second descriptor of
standard input or output, or both are closed and no file is opened for output. -/
def Untouched (tok : Tok) (t : Descriptors δ) : Prop :=
  Full limit t ∨
    t STDIN_FILENO = none ∧ t STDOUT_FILENO = none ∧ tok.outfile.bind files.write = none

end Functions

/-! ## The table -/

section Tables

variable {δ : Type*} {limit k : ℕ} {files : Files δ} {t : Descriptors δ} {tok : Tok}
  {infile outfile : Option (List Char)} {temps : Option ℕ × Option ℕ}

/-- Without a free descriptor nothing is redirected. -/
lemma changeIo_of_full (h : Full limit t) : changeIo limit files infile outfile t = t := by
  unfold changeIo
  cases infile <;> cases outfile <;> simp [redirect_of_full h]

/-- A redirection closes no descriptor for good. -/
lemma changeIo_ne_none (hlimit : STDOUT_FILENO < limit) (h : t k ≠ none) :
    changeIo limit files infile outfile t k ≠ none := by
  have hlimit' : STDIN_FILENO < limit := Nat.zero_lt_of_lt hlimit
  unfold changeIo
  cases infile <;> cases outfile
  · exact h
  · exact redirect_ne_none hlimit h
  · exact redirect_ne_none hlimit' h
  · exact redirect_ne_none hlimit (redirect_ne_none hlimit' h)

/-- The table after a builtin command. -/
def afterBuiltin (limit : ℕ) (files : Files δ) (tok : Tok) (t : Descriptors δ) : Descriptors δ :=
  restore limit (save limit files tok t).1 (save limit files tok t).2

/-- Without a free descriptor nothing happens. -/
lemma afterBuiltin_of_full (h : Full limit t) : afterBuiltin limit files tok t = t := by
  simp only [afterBuiltin, save, dup, openFile_of_full h, changeIo_of_full h]
  rfl

/-- No descriptor is closed. -/
lemma afterBuiltin_ne_none (hlimit : STDOUT_FILENO < limit) (h : t k ≠ none) :
    afterBuiltin limit files tok t k ≠ none := by
  rw [afterBuiltin, restore]
  apply dup2_ne_none
  apply dup2_ne_none
  rw [save]
  exact changeIo_ne_none hlimit (openFile_ne_none (openFile_ne_none h))

/-- The lowest free descriptor is left behind, as a second one of standard output, or of standard
input where standard output is closed. -/
lemma afterBuiltin_opens (hlimit : STDOUT_FILENO < limit) {fd : ℕ}
    (hfree : lowestFree limit t = some fd) (hopen : t STDIN_FILENO ≠ none ∨ t STDOUT_FILENO ≠ none) :
    afterBuiltin limit files tok t fd ≠ none := by
  rw [afterBuiltin, restore]
  apply dup2_ne_none
  apply dup2_ne_none
  rw [save]
  apply changeIo_ne_none hlimit
  cases hout : t STDOUT_FILENO with
  | none =>
    obtain ⟨inp, hin⟩ := Option.ne_none_iff_exists'.1 (hopen.resolve_right (not_not.2 hout))
    simp only [dup, hout, openFile_none, hin, openFile_of_lowestFree hfree, Function.update_self]
    exact Option.some_ne_none inp
  | some out =>
    apply openFile_ne_none
    simp only [dup, hout, openFile_of_lowestFree hfree, Function.update_self]
    exact Option.some_ne_none out

/-- With both closed nothing is saved, and a file for input is opened and closed again. -/
lemma afterBuiltin_of_closed (hlimit : STDOUT_FILENO < limit) (hin : t STDIN_FILENO = none)
    (hout : t STDOUT_FILENO = none) :
    afterBuiltin limit files tok t = t ↔ tok.outfile.bind files.write = none := by
  have hfree : lowestFree limit t = some STDIN_FILENO :=
    lowestFree_of_free (Nat.zero_lt_of_lt hlimit) hin fun k hk => absurd hk (Nat.not_lt_zero k)
  have hinfile : ∀ file, redirect limit t file STDIN_FILENO = t := by
    intro file
    cases file with
    | none => rfl
    | some d =>
      have hlimit' : STDIN_FILENO < limit := Nat.zero_lt_of_lt hlimit
      rw [redirect_of_lowestFree hfree hlimit', if_pos rfl]
  have hafter : afterBuiltin limit files tok t =
      match tok.outfile with
      | some outfile => redirect limit t (files.write outfile) STDOUT_FILENO
      | none => t := by
    simp only [afterBuiltin, save, dup, hout, hin, openFile_none, restore, dup2_none]
    unfold changeIo
    cases tok.infile <;> simp [hinfile]
  rw [hafter]
  cases tok.outfile with
  | none => simp
  | some outfile =>
    rw [Option.bind_some]
    cases hfile : files.write outfile with
    | none => simp [hfile, redirect_none]
    | some d =>
      simp only [redirect_of_lowestFree hfree hlimit, hfile]
      rw [if_neg (by decide)]
      refine iff_of_false (fun heq => ?_) (Option.some_ne_none d)
      have hkept := congrFun heq STDOUT_FILENO
      rw [Function.update_self, hout] at hkept
      cases hkept

/-- A builtin command leaves the table as it was exactly if it has no effect on it at all. -/
lemma afterBuiltin_iff (hlimit : STDOUT_FILENO < limit) :
    afterBuiltin limit files tok t = t ↔ Untouched limit files tok t := by
  cases hfree : lowestFree limit t with
  | none =>
    have hfull := lowestFree_eq_none.1 hfree
    exact iff_of_true (afterBuiltin_of_full hfull) (.inl hfull)
  | some fd =>
    have hroom : ¬ Full limit t := by
      rw [← lowestFree_eq_none, hfree]
      exact Option.some_ne_none fd
    rw [Untouched, or_iff_right hroom]
    by_cases hopen : t STDIN_FILENO ≠ none ∨ t STDOUT_FILENO ≠ none
    · have hleft : afterBuiltin limit files tok t ≠ t := fun heq =>
        afterBuiltin_opens hlimit hfree hopen
          ((congrFun heq fd).trans (lowestFree_eq_some hfree).2.1)
      exact iff_of_false hleft fun ⟨hin, hout, _⟩ => hopen.elim (absurd hin) (absurd hout)
    · obtain ⟨hin, hout⟩ := not_or.1 hopen
      rw [not_not] at hin hout
      rw [afterBuiltin_of_closed hlimit hin hout]
      exact ⟨fun h => ⟨hin, hout, h⟩, fun h => h.2.2⟩

/-- Builtin commands one after the other, with what they can open. -/
def afterBuiltins (limit : ℕ) (commands : List (Files δ × Tok)) (t : Descriptors δ) : Descriptors δ :=
  commands.foldl (fun t c => afterBuiltin limit c.1 c.2 t) t

/-- After as many builtin commands as there are descriptors none is left, and no file can be
opened any more. -/
theorem descriptors_run_out (hlimit : STDOUT_FILENO < limit)
    (hopen : t STDIN_FILENO ≠ none ∨ t STDOUT_FILENO ≠ none) (commands : List (Files δ × Tok))
    (hmany : limit ≤ commands.length) : Full limit (afterBuiltins limit commands t) := by
  have hcard : (free limit t).card ≤ commands.length :=
    ((Finset.card_filter_le _ _).trans_eq (Finset.card_range limit)).trans hmany
  clear hmany
  rw [afterBuiltins]
  induction commands generalizing t with
  | nil => exact free_eq_empty.1 (Finset.card_eq_zero.1 (Nat.le_zero.1 hcard))
  | cons c commands ih =>
    rw [List.foldl_cons]
    apply ih
    · exact hopen.imp (afterBuiltin_ne_none hlimit) (afterBuiltin_ne_none hlimit)
    · cases hfree : lowestFree limit t with
      | none =>
        have hfull := lowestFree_eq_none.1 hfree
        rw [afterBuiltin_of_full hfull, free_eq_empty.2 hfull]
        exact Nat.zero_le _
      | some fd =>
        have hlt : (free limit (afterBuiltin limit c.1 c.2 t)).card < (free limit t).card :=
          card_free_lt (fun k => afterBuiltin_ne_none hlimit) hfree
            (afterBuiltin_opens hlimit hfree hopen)
        rw [List.length_cons] at hcard
        omega

end Tables

/-! ## The run of a builtin command -/

section Runs

variable {δ : Type*} {limit : ℕ} {files : Files δ} {t fds : Descriptors δ} {tok : Tok}
  {temps : Option ℕ × Option ℕ} {m m' : Process δ} {s : Shell} {e : Event} {es : List Event}
  {bg : ℤ} {cmdline : List Char}

/-- Whether `eval` returns with this step or not. -/
lemma Process.within_leave (hfds : m.fds = fds) (htemps : m.temps = some temps) :
    (m.leave limit).Within limit temps fds := by
  rw [leave]
  split
  · next temps' hm hready =>
    rw [hm] at htemps
    cases htemps
    exact .inr ⟨rfl, by rw [hfds]⟩
  · next hne =>
    exact .inl ⟨htemps, hfds, hne temps htemps⟩

/-- Until the next command the table changes only where `eval` returns. -/
lemma Process.Within.step (h : m.Within limit temps fds) (he : ∀ bg tok cmdline, e ≠ .command bg tok cmdline)
    (hm : m.step limit files e = some m') : m'.Within limit temps fds := by
  have henter : m.enter limit files e = m := by
    cases e with
    | command bg tok cmdline => exact absurd rfl (he bg tok cmdline)
    | _ => rfl
  rw [Process.step, henter] at hm
  obtain ⟨s, -, rfl⟩ := Option.map_eq_some_iff.1 hm
  rcases h with ⟨htemps, hfds, -⟩ | ⟨htemps, hfds⟩
  · exact within_leave hfds htemps
  · right
    rw [leave]
    split
    · next temps' hm _ =>
      rw [htemps] at hm
      cases hm
    · exact ⟨htemps, hfds⟩

/-- Within a call of `eval` the descriptors change only when it begins and ends. -/
lemma Process.Within.run (h : m.Within limit temps fds)
    (hes : ∀ e ∈ es, ∀ bg tok cmdline, e ≠ .command bg tok cmdline)
    (hm : after (Process.step limit files) m es = some m') : m'.Within limit temps fds := by
  induction es generalizing m with
  | nil =>
    cases hm
    exact h
  | cons e es ih =>
    obtain ⟨m₁, hstep, hm⟩ := after_cons_eq_some.1 hm
    exact ih (h.step (hes e List.mem_cons_self) hstep)
      (fun e he => hes e (List.mem_cons_of_mem _ he)) hm

/-- When `eval` returns from a builtin command, the descriptors are those that it had before
exactly if the table was full, or standard input and output were closed and no file for output
could be opened. -/
theorem builtin_keeps_descriptors_iff (hlimit : STDOUT_FILENO < limit)
    (hbuiltin : isBuiltin bg tok = true)
    (hrun : after (Process.step limit files) ⟨s, t, none⟩ (.command bg tok cmdline :: es) = some m')
    (hes : ∀ e ∈ es, ∀ bg tok cmdline, e ≠ .command bg tok cmdline)
    (hreturns : m'.shell.control = .ready) :
    m'.fds = t ↔ Untouched limit files tok t := by
  obtain ⟨m, hcommand, hrest⟩ := after_cons_eq_some.1 hrun
  obtain ⟨s', -, rfl⟩ := Option.map_eq_some_iff.1 hcommand
  have hwithin : Process.Within limit (save limit files tok t).1 (save limit files tok t).2 m' := by
    refine Process.Within.run (Process.within_leave ?_ ?_) hes hrest
    all_goals
      rw [Process.enter, if_pos hbuiltin]
  rcases hwithin with ⟨-, -, hne⟩ | ⟨-, hfds⟩
  · exact absurd hreturns hne
  · rw [hfds, ← afterBuiltin, afterBuiltin_iff hlimit]

end Runs

/-- With three descriptors in all the table is full, and nothing is saved or redirected. -/
theorem builtin_keeps_descriptors_full :
    ∃ m', after (Process.step 3 ⟨fun _ => some (), fun _ => some ()⟩) ⟨init, fun _ => some (), none⟩
      [.command 0 ⟨["jobs".toList], none, some "out".toList, .BUILTIN_JOBS⟩ "jobs > out".toList] =
        some m' ∧ m'.fds = fun _ => some () := by
  have hrun : after (Process.step 3 ⟨fun _ => some (), fun _ => some ()⟩)
      ⟨init, fun _ => some (), none⟩
      [.command 0 ⟨["jobs".toList], none, some "out".toList, .BUILTIN_JOBS⟩ "jobs > out".toList] =
        some _ := rfl
  exact ⟨_, hrun, (builtin_keeps_descriptors_iff (by decide) rfl hrun (List.forall_mem_nil _) rfl).2
    (.inl fun _ _ => Option.some_ne_none ())⟩

/-- With a terminal as standard input, output and error, `jobs` leaves descriptor 3 open. -/
theorem not_builtin_keeps_descriptors : ¬ ∀ (limit : ℕ) (files : Files Unit) (s : Shell)
    (t : Descriptors Unit) (bg : ℤ) (tok : Tok) (cmdline : List Char) (es : List Event)
    (m' : Process Unit), STDOUT_FILENO < limit → isBuiltin bg tok = true →
    after (Process.step limit files) ⟨s, t, none⟩ (.command bg tok cmdline :: es) = some m' →
    (∀ e ∈ es, ∀ bg tok cmdline, e ≠ .command bg tok cmdline) → m'.shell.control = .ready →
    m'.fds = t := by
  intro h
  have hkept := h 20 ⟨fun _ => some (), fun _ => some ()⟩ init
    (fun fd => if fd < 3 then some () else none) 0
    ⟨["jobs".toList], none, none, .BUILTIN_JOBS⟩ "jobs".toList [] _ (by decide) rfl rfl (by simp) rfl
  have hthree := congrFun hkept 3
  revert hthree
  decide

end Tshlab
end SystemsLabs
