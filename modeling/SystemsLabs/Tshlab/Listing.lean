import SystemsLabs.Memory.Buffers
import SystemsLabs.Memory.Decimals
import SystemsLabs.Posix.Streams
import SystemsLabs.Tshlab.ReadLoop

/-!
# What jobs prints

`listjobs` prints one line for each job, and writes each line in three pieces that it formats in
a buffer. It reads every field again from the list, and SIGCHLD is not blocked, so between two
looks at a slot the handler may change it. The pieces fit whatever happens meanwhile, because no
command line is longer than `main` can read. If no slot changes while its line is printed, the
text says what the list says: whoever reads it gets the jobs back. The IDs and pids that he reads
are arguments with which `fg` and `bg` find the jobs (`listing_shows_jobs`).

What the handler prints itself is left out.
-/

namespace SystemsLabs
namespace Tshlab

open Memory Posix Runs

/-! ## The command -/

/-- The value of a state. -/
def JobState.value : JobState → ℤ
  | .UNDEF => 0
  | .FG => 1
  | .BG => 2
  | .ST => 3

/-- The message for a job without a state. -/
def internalError (i : Slot) (state : JobState) : List Char :=
  "listjobs: Internal error: job[".toList ++ decimal i ++ "].state=".toList ++
    decimal state.value ++ [' ']

/-- What `listjobs` prints for a state. For the message the state is read again. -/
def stateText (i : Slot) (again : JobState) : JobState → List Char
  | .BG => ['R', 'u', 'n', 'n', 'i', 'n', 'g', ' ', ' ', ' ', ' ']
  | .FG => ['F', 'o', 'r', 'e', 'g', 'r', 'o', 'u', 'n', 'd', ' ']
  | .ST => ['S', 't', 'o', 'p', 'p', 'e', 'd', ' ', ' ', ' ', ' ']
  | .UNDEF => internalError i again

/-- What `listjobs` formats for a job, one piece after the other. -/
def jobPieces (i : Slot) (jid pid : ℤ) (state again : JobState) (cmdline : List Char) :
    List (List Char) :=
  [['['] ++ decimal jid ++ [']', ' ', '('] ++ decimal pid ++ [')', ' '],
    stateText i again state, cmdline ++ ['\n']]

/-- Slot `i` as the loop finds it the `k`-th of the six times that it looks there. `lists` is
the list of jobs in the course of the time. -/
def look (lists : ℕ → JobList) (i : Slot) (k : ℕ) : Job := lists (6 * i + k) i

/-- The body of the loop, up to the writing. -/
def slotPieces (lists : ℕ → JobList) (i : Slot) : List (List Char) :=
  if (look lists i 0).pid ≠ 0 then
    jobPieces i (look lists i 1).jid (look lists i 2).pid (look lists i 3).state
      (look lists i 4).state (look lists i 5).cmdline
  else []

/-- `sprintf` and `write`, piece by piece, up to the first `write` that fails. The flag says
whether `listjobs` returns; it exits otherwise. -/
def writePieces : List (List Char) → Sink Char → Option (Bool × Sink Char)
  | [], out => some (true, out)
  | piece :: rest, out => do
    let buf ← Buffer.sprintf MAXLINE piece
    let (rc, out) ← out.write buf.text
    if rc < 0 then some (false, out) else writePieces rest out

/-- `listjobs(job_list, output_fd)`. -/
def listjobs (lists : ℕ → JobList) (out : Sink Char) : Option (Bool × Sink Char) :=
  writePieces ((List.finRange MAXJOBS).flatMap (slotPieces lists)) out

/-- The slot is the same whenever the loop looks there. -/
def Steady (lists : ℕ → JobList) (i : Slot) : Prop := ∀ k < 6, look lists i k = look lists i 0

instance (lists : ℕ → JobList) (i : Slot) : Decidable (Steady lists i) :=
  inferInstanceAs (Decidable (∀ k < 6, _))

/-! ## Reading it again -/

/-- A printed line: the ID and the pid as they stand there, the state and the command line. -/
structure Shown where
  jid : List Char
  pid : List Char
  state : JobState
  cmdline : List Char
deriving DecidableEq

/-- What the line for a job should say. -/
def Job.shown (job : Job) : Shown := ⟨decimal job.jid, decimal job.pid, job.state, job.cmdline⟩

/-- The state that a printed word stands for. -/
def stateOf (word : List Char) : Option JobState :=
  [JobState.BG, .FG, .ST].find? fun state => stateText 0 state state = word

/-- The parts of a printed line, without the newline. -/
def readLine (line : List Char) : Option Shown :=
  let jid := (line.drop 1).takeWhile (· ≠ ']')
  let rest := line.drop (1 + jid.length + 3)
  let pid := rest.takeWhile (· ≠ ')')
  let rest := rest.drop (pid.length + 2)
  (stateOf (rest.take 11)).map fun state => ⟨jid, pid, state, rest.drop 11⟩

/-- The lines of a printed text, if each of them can be read. -/
def readListing (text : List Char) : Option (List Shown) := (pieces text).dropLast.mapM readLine

/-- The number is an `int`. -/
def IsInt (n : ℤ) : Prop := -2 ^ 31 ≤ n ∧ n < 2 ^ 31

/-- What any look at a slot finds: an ID and a pid that are `int`s, and no long line. -/
structure Job.Bounded (job : Job) : Prop where
  jid : IsInt job.jid
  pid : IsInt job.pid
  short : job.cmdline.length < MAXLINE - 1

/-- A job with a state and with a command line that came from `main`. -/
structure Job.Listable (job : Job) : Prop extends job.Bounded where
  state : job.state ≠ .UNDEF
  command : IsCommand job.cmdline

variable {i : Slot} {job : Job} {jobs : JobList} {lists : ℕ → JobList} {out : Sink Char}

/-- A state is a word of eleven characters, from which it can be read. -/
lemma stateText_spec (i : Slot) (again : JobState) {state : JobState} (h : state ≠ .UNDEF) :
    (stateText i again state).length = 11 ∧ stateOf (stateText i again state) = some state ∧
      '\n' ∉ stateText i again state := by
  cases state with
  | UNDEF => exact absurd rfl h
  | FG | BG | ST => exact ⟨rfl, rfl, by simp [stateText]⟩

/-- The message is longer, but fits as well. -/
lemma length_internalError_le (i : Slot) (state : JobState) :
    (internalError i state).length ≤ 100 := by
  have hslot : (decimal i).length ≤ 11 := by
    have hi : (i : ℕ) < 16 := i.isLt
    apply length_decimal_le <;> omega
  have hstate : (decimal state.value).length ≤ 11 := by
    apply length_decimal_le <;> cases state <;> norm_num [JobState.value]
  have hfirst : "listjobs: Internal error: job[".toList.length = 30 := rfl
  have hsecond : "].state=".toList.length = 8 := rfl
  unfold internalError
  generalize "listjobs: Internal error: job[".toList = first at *
  generalize "].state=".toList = second at *
  simp
  omega

lemma length_stateText_le (i : Slot) (again state : JobState) :
    (stateText i again state).length ≤ 100 := by
  cases state with
  | FG | BG | ST => exact (stateText_spec i again (by decide)).1.trans_le (by decide)
  | UNDEF => exact length_internalError_le i again

/-- What stands in front of the first separator. -/
lemma takeWhile_append_cons {p : Char → Bool} {s rest : List Char} {c : Char}
    (hs : ∀ x ∈ s, p x = true) (hc : p c = false) : (s ++ c :: rest).takeWhile p = s := by
  rw [List.takeWhile_append_of_pos hs, List.takeWhile_cons_of_neg (by simp [hc]), List.append_nil]

/-- The line for a job, without the newline. -/
def jobLine (i : Slot) (job : Job) : List Char :=
  '[' :: (decimal job.jid ++ [']', ' ', '('] ++ decimal job.pid ++ [')', ' '] ++
    stateText i job.state job.state ++ job.cmdline)

/-- For a slot that does not change the pieces are the line of its job. -/
lemma flatten_slotPieces (h : Steady lists i) (hpid : (look lists i 0).pid ≠ 0) :
    (slotPieces lists i).flatten = jobLine i (look lists i 0) ++ ['\n'] := by
  rw [slotPieces, if_pos hpid, h 1 (by decide), h 2 (by decide), h 3 (by decide),
    h 4 (by decide), h 5 (by decide)]
  simp [jobPieces, jobLine]

/-- The separators are in no number, so the parts of a line can be told apart. -/
lemma readLine_jobLine (i : Slot) (h : job.state ≠ .UNDEF) :
    readLine (jobLine i job) = some job.shown := by
  obtain ⟨hlen, hstate, -⟩ := stateText_spec i job.state h
  have hjid : ((jobLine i job).drop 1).takeWhile (· ≠ ']') = decimal job.jid := by
    have hline : (jobLine i job).drop 1 = decimal job.jid ++ ']' :: ([' ', '('] ++
        decimal job.pid ++ [')', ' '] ++ stateText i job.state job.state ++ job.cmdline) := by
      simp [jobLine]
    rw [hline]
    apply takeWhile_append_cons
    · intro c hc
      simpa using fun h : c = ']' => notMem_decimal (by decide) (by decide) (h ▸ hc)
    · decide
  have hrest : (jobLine i job).drop (1 + (decimal job.jid).length + 3) =
      decimal job.pid ++ ')' :: ' ' :: (stateText i job.state job.state ++ job.cmdline) := by
    have hline : jobLine i job = ('[' :: (decimal job.jid ++ [']', ' ', '('])) ++
        (decimal job.pid ++ ')' :: ' ' :: (stateText i job.state job.state ++ job.cmdline)) := by
      simp [jobLine]
    rw [hline]
    apply List.drop_left'
    simp
    omega
  have hpid : (decimal job.pid ++
      ')' :: ' ' :: (stateText i job.state job.state ++ job.cmdline)).takeWhile (· ≠ ')') =
        decimal job.pid := by
    apply takeWhile_append_cons
    · intro c hc
      simpa using fun h : c = ')' => notMem_decimal (by decide) (by decide) (h ▸ hc)
    · decide
  have hlast : (decimal job.pid ++
      ')' :: ' ' :: (stateText i job.state job.state ++ job.cmdline)).drop
        ((decimal job.pid).length + 2) = stateText i job.state job.state ++ job.cmdline := by
    rw [List.drop_append]
    simp
  rw [readLine, hjid, hrest, hpid, hlast, List.take_left' hlen, List.drop_left' hlen, hstate]
  rfl

/-- The line of a job is one line. -/
lemma newline_notMem_jobLine (h : job.Listable) : '\n' ∉ jobLine i job := by
  have hstate := (stateText_spec i job.state h.state).2.2
  have hnumber : ∀ n, '\n' ∉ decimal n := fun n => notMem_decimal (by decide) (by decide)
  simp [jobLine, hstate, hnumber, h.command.newline]

/-! ## The whole listing -/

/-- The jobs in the slots, in the order of the slots. -/
def shownJobs (jobs : JobList) (slots : List Slot) : List Shown :=
  slots.filterMap fun i => if (jobs i).pid ≠ 0 then some (jobs i).shown else none

/-- Slots that do not change are read back as they are. -/
lemma readListing_slots (hsteady : ∀ i, Steady lists i)
    (h : ∀ i, (look lists i 0).pid ≠ 0 → (look lists i 0).Listable) (slots : List Slot) :
    readListing (slots.flatMap (slotPieces lists)).flatten =
      some (shownJobs (fun i => look lists i 0) slots) := by
  induction slots with
  | nil => rfl
  | cons i slots ih =>
    by_cases hpid : (look lists i 0).pid = 0
    · simpa [shownJobs, slotPieces, hpid] using ih
    · have hjob := h i hpid
      have hline := newline_notMem_jobLine (i := i) hjob
      rw [List.flatMap_cons, List.flatten_append, flatten_slotPieces (hsteady i) hpid,
        List.append_assoc, List.singleton_append, readListing, pieces_line hline,
        List.dropLast_cons_of_ne_nil (by exact List.splitOn_ne_nil _ _), List.mapM_cons,
        readLine_jobLine i hjob.state]
      rw [readListing] at ih
      rw [ih]
      simp [shownJobs, hpid]

/-- Whatever the looks find, every piece fits into the buffer of `listjobs`. -/
lemma slotPieces_fit (h : ∀ k, (look lists i k).Bounded) :
    ∀ piece ∈ slotPieces lists i, piece.length < MAXLINE := by
  have hjid := length_decimal_le (h 1).jid.1 (h 1).jid.2
  have hpid := length_decimal_le (h 2).pid.1 (h 2).pid.2
  have hstate := length_stateText_le i (look lists i 4).state (look lists i 3).state
  have hcmdline := (h 5).short
  intro piece hpiece
  rw [slotPieces] at hpiece
  split_ifs at hpiece
  · simp only [jobPieces, List.mem_cons, List.not_mem_nil, or_false] at hpiece
    rcases hpiece with rfl | rfl | rfl
    · simp [MAXLINE]
      omega
    · exact hstate.trans_lt (by decide)
    · rw [List.length_append, List.length_singleton]
      omega
  · cases hpiece

/-- The pieces of a listing are three for each slot at most. -/
lemma length_pieces_le (lists : ℕ → JobList) :
    ((List.finRange MAXJOBS).flatMap (slotPieces lists)).length ≤ 48 := by
  rw [List.length_flatMap]
  have hbound : ∀ n ∈ (List.finRange MAXJOBS).map fun i => (slotPieces lists i).length, n ≤ 3 := by
    intro n hn
    obtain ⟨i, -, rfl⟩ := List.mem_map.1 hn
    rw [slotPieces]
    split_ifs
    · exact le_rfl
    · exact Nat.zero_le 3
  have hsum := List.sum_le_card_nsmul _ 3 hbound
  rw [List.length_map, List.length_finRange] at hsum
  exact hsum

/-- Pieces that fit are written, or a `write` fails. -/
lemma isSome_writePieces {ps : List (List Char)} (hfit : ∀ piece ∈ ps, piece.length < MAXLINE)
    (hlen : ps.length ≤ out.answers.length) : (writePieces ps out).isSome := by
  induction ps generalizing out with
  | nil => rfl
  | cons piece ps ih =>
    obtain ⟨bytes, errno, answers⟩ := out
    cases answers with
    | nil => exact absurd hlen (by simp)
    | cons a answers =>
      have hrest := fun piece hpiece => hfit piece (List.mem_cons_of_mem _ hpiece)
      rw [writePieces, Buffer.sprintf_of_lt (hfit piece List.mem_cons_self)]
      cases a with
      | moves k =>
        simp only [Option.bind_eq_bind, Option.bind_some, Sink.write]
        rw [if_neg (by omega)]
        exact ih hrest (by simpa using hlen)
      | fails e => rfl

/-- Every answer lets a whole buffer through. -/
def TakesAll (answers : List Answer) : Prop := ∀ a ∈ answers, ∃ k, MAXLINE ≤ k ∧ a = .moves k

/-- Then all pieces are written, one behind the other. -/
lemma writePieces_eq {ps : List (List Char)} (hfit : ∀ piece ∈ ps, piece.length < MAXLINE)
    (hall : TakesAll out.answers) (hlen : ps.length ≤ out.answers.length) :
    writePieces ps out =
      some (true, ⟨out.bytes ++ ps.flatten, out.errno, out.answers.drop ps.length⟩) := by
  induction ps generalizing out with
  | nil => simp [writePieces]
  | cons piece ps ih =>
    obtain ⟨bytes, errno, answers⟩ := out
    cases answers with
    | nil => exact absurd hlen (by simp)
    | cons a answers =>
      obtain ⟨k, hk, rfl⟩ := hall _ List.mem_cons_self
      have hpiece := hfit piece List.mem_cons_self
      have htake : piece.take k = piece := List.take_of_length_le (by omega)
      rw [writePieces, Buffer.sprintf_of_lt hpiece]
      simp only [Option.bind_eq_bind, Option.bind_some, Sink.write, htake]
      rw [if_neg (by omega), ih (fun p hp => hfit p (List.mem_cons_of_mem _ hp))
        (fun a ha => hall a (List.mem_cons_of_mem _ ha)) (by simpa using hlen)]
      simp

/-! ## The numbers -/

/-- The digits of a number denote it. -/
lemma digits_toDigits (n : ℕ) : digits (Nat.toDigits 10 n) = n := by
  have htake : (Nat.toDigits 10 n).takeWhile Char.isDigit = Nat.toDigits 10 n := by
    rw [List.takeWhile_eq_self_iff]
    intro c hc
    exact Nat.isDigit_of_mem_toDigits (by decide) (by decide) hc
  have hfold : ∀ (s : List Char) (m : ℕ),
      s.foldl (fun (n : ℤ) c => 10 * n + (c.toNat - '0'.toNat : ℕ)) m
        = (Nat.ofDigitChars 10 s m : ℕ) := by
    intro s
    induction s with
    | nil => simp
    | cons c s ih =>
      intro m
      rw [List.foldl_cons, Nat.ofDigitChars_cons, ← ih]
      push_cast
      rfl
  rw [digits, htake]
  exact (hfold _ 0).trans (by rw [Nat.ofDigitChars_ten_toDigits])

/-- A digit is neither white space nor a sign. -/
lemma digit_spec {c : Char} (h : c.isDigit) :
    ¬ (c = ' ' ∨ ('\t' ≤ c ∧ c ≤ '\r')) ∧ c ≠ '-' ∧ c ≠ '+' := by
  have hlow : '0' ≤ c := by
    simp only [Char.isDigit, Bool.and_eq_true, decide_eq_true_eq] at h
    exact h.1
  refine ⟨?_, ?_, ?_⟩
  · rintro (rfl | ⟨-, hc⟩)
    · exact absurd hlow (by decide)
    · have h0 : '0' ≤ '\r' := Char.le_trans hlow hc
      exact absurd h0 (by decide)
  all_goals
    rintro rfl
    exact absurd hlow (by decide)

/-- `atoi` reads what `%d` has printed. -/
lemma atoi_decimal {n : ℤ} (hlow : -2 ^ 31 ≤ n) (hhigh : n < 2 ^ 31) : atoi (decimal n) = n := by
  have hbmod : (max (-2 ^ 63) (min (2 ^ 63 - 1) n)).bmod (2 ^ 32) = n := by
    rw [min_eq_right (by omega), max_eq_right (by omega)]
    exact Int.bmod_eq_of_le_mul_two (by omega) (by omega)
  rw [atoi, decimal]
  split_ifs with hneg
  · have hminus : ('-' :: Nat.toDigits 10 n.natAbs).dropWhile
        (fun c => c = ' ' ∨ ('\t' ≤ c ∧ c ≤ '\r')) = '-' :: Nat.toDigits 10 n.natAbs :=
      List.dropWhile_cons_of_neg (by decide)
    have hvalue : -digits (Nat.toDigits 10 n.natAbs) = n := by
      rw [digits_toDigits]
      omega
    rw [hminus]
    change (max _ (min _ (-digits (Nat.toDigits 10 n.natAbs)))).bmod _ = n
    rw [hvalue]
    exact hbmod
  · obtain ⟨c, cs, hcs⟩ := List.exists_cons_of_ne_nil (Nat.toDigits_ne_nil (n := n.natAbs) (b := 10))
    have hdigit : c.isDigit :=
      Nat.isDigit_of_mem_toDigits (by decide) (by decide) (hcs ▸ List.mem_cons_self)
    obtain ⟨hspace, hminus, hplus⟩ := digit_spec hdigit
    have hvalue := digits_toDigits n.natAbs
    rw [hcs] at hvalue ⊢
    rw [List.dropWhile_cons_of_neg (by simpa using hspace)]
    split
    · next h => exact absurd (List.head_eq_of_cons_eq h) hminus
    · next h => exact absurd (List.head_eq_of_cons_eq h) hplus
    · rw [hvalue, show (n.natAbs : ℤ) = n by omega]
      exact hbmod

/-- The printed pid finds the job, and so does the printed ID if no other job has it. -/
lemma jobOf_shown {t : Table} {k : Slot} (hwf : t.WellFormed) (hpid : (t.jobs k).pid ≠ 0)
    (hjob : (t.jobs k).Listable) :
    jobOf t.jobs (t.jobs k).shown.pid = some k ∧
      (t.JidsDistinct → jobOf t.jobs ('%' :: (t.jobs k).shown.jid) = some k) := by
  have hpos : ¬ (t.jobs k).pid < 1 := by
    have := hwf.nonneg k
    omega
  constructor
  · have hhead : (decimal (t.jobs k).pid).head? ≠ some '%' := by
      intro h
      exact notMem_decimal (by decide) (by decide) (List.mem_of_mem_head? h)
    rw [Job.shown, jobOf, if_neg hhead, atoi_decimal hjob.pid.1 hjob.pid.2, getjobpid, if_neg hpos]
    apply firstSlot_unique (by simp)
    intro i hi
    have hi' : (t.jobs i).pid = (t.jobs k).pid := by simpa using hi
    exact hwf.distinct i k (by rwa [hi']) hi'
  · intro hd
    have hjid : ¬ (t.jobs k).jid < 1 := by
      have := hd.pos k hpid
      omega
    rw [Job.shown, jobOf, if_pos (List.head?_cons), List.tail_cons,
      atoi_decimal hjob.jid.1 hjob.jid.2, getjobjid, if_neg hjid]
    apply firstSlot_unique (by simp)
    intro i hi
    have hi' : (t.jobs i).jid = (t.jobs k).jid := by simpa using hi
    have hne : (t.jobs i).pid ≠ 0 := by
      intro hzero
      have := hwf.empty i hzero
      omega
    exact hd.distinct i k hne hpid hi'

/-! ## Every run -/

lemma isInt_zero : IsInt 0 := ⟨by decide, by decide⟩

lemma isInt_one : IsInt 1 := ⟨by decide, by decide⟩

/-- An `int` that is counted up stays one, by wrapping around. -/
lemma isInt_increment (x : ℤ) : IsInt (increment x) := by
  have hlow := Int.le_bmod (x := x + 1) (m := 2 ^ 32) (by decide)
  have hhigh := Int.bmod_lt (x := x + 1) (m := 2 ^ 32) (by decide)
  exact ⟨by simpa [increment] using hlow, by simpa [increment] using hhigh⟩

namespace Shell

variable {s s' : Shell} {e : Event}

/-- The pids and the job IDs are `int`s. -/
structure Ints (s : Shell) : Prop where
  pids : ∀ pid ∈ s.pids, IsInt pid
  nextjid : IsInt s.table.nextjid
  jids : ∀ k, IsInt (s.table.jobs k).jid

lemma Ints.of_eq (h : s.Ints) (hids : SameIds s s') (hnext : s'.table.nextjid = s.table.nextjid) :
    s'.Ints where
  pids := by
    rw [hids.pids]
    exact h.pids
  nextjid := by
    rw [hnext]
    exact h.nextjid
  jids := by
    intro k
    rw [hids.jid]
    exact h.jids k

/-- `perform_job` hands out no IDs. -/
lemma nextjid_perform (s : Shell) (l : Locals) (line : Line) :
    (s.perform l line).table.nextjid = s.table.nextjid := by
  cases line with
  | jidOfId | jobOfJid | pidOfId | jidOfPid | jobOfPid | finish => rfl
  | testId | pidOfJob | setState | resume =>
    rw [perform]
    split <;> rfl

/-- Only `addjob` gives an ID, and it is `nextjid`. -/
lemma Ints.next (h : s.Ints) (hs : s.next = some s') : s'.Ints := by
  cases hc : s.control with
  | perform line l =>
    rw [Shell.next, hc] at hs
    cases hs
    exact h.of_eq (.perform s l line) (nextjid_perform s l line)
  | addjob pid bg cmdline =>
    rw [Shell.next, hc] at hs
    dsimp only at hs
    split at hs
    · cases hs
      exact h.of_eq (.of_eq rfl rfl rfl) rfl
    · next t ht =>
      cases hs
      obtain ⟨-, i, -, hjobs⟩ := addjob_eq_some ht
      refine ⟨h.pids, ?_, ?_⟩
      · have hnext : t.nextjid = 1 ∨ t.nextjid = increment s.table.nextjid := by
          unfold Tshlab.addjob at ht
          split at ht
          · cases ht
          · split at ht
            · cases ht
            · cases ht
              dsimp only
              split_ifs
              · exact .inl rfl
              · exact .inr rfl
        rcases hnext with hnext | hnext
        · exact (hnext ▸ isInt_one : IsInt t.nextjid)
        · exact (hnext ▸ isInt_increment _ : IsInt t.nextjid)
      · intro k
        show IsInt (t.jobs k).jid
        by_cases hk : k = i
        · subst hk
          rw [hjobs, Function.update_self]
          exact h.nextjid
        · rw [hjobs, Function.update_of_ne hk]
          exact h.jids k
  | block _ _ | unblock | suspend _ _ | test _ _ =>
    rw [Shell.next, hc] at hs
    cases hs
    exact h.of_eq (.of_eq rfl rfl rfl) rfl
  | ready | fork _ _ | suspended _ _ _ | exited | crashed =>
    rw [Shell.next, hc] at hs
    cases hs

/-- `deletejob` computes the next ID from the IDs in the list. -/
lemma Ints.reap (h : s.Ints) (hb : s.Books) {pid : ℤ} (hpid : pid ∈ s.pids) :
    (s.reap pid).Ints where
  pids := fun q hq => h.pids q (mem_pids_reap.1 hq).1
  nextjid := by
    unfold Shell.reap
    cases hdel : deletejob s.table pid with
    | none => exact h.nextjid
    | some t =>
      unfold deletejob at hdel
      split at hdel
      · cases hdel
      · split at hdel
        · cases hdel
        · cases hdel
          exact isInt_increment _
  jids := by
    intro k
    rw [hb.jobs_reap (hb.pos pid hpid)]
    split_ifs
    · exact isInt_zero
    · exact h.jids k

/-- Pids come from `fork`, and IDs from `nextjid`. -/
lemma Ints.step (h : s.Ints) (hb : s.Books) (hfork : ∀ pid, e = .forked pid → IsInt pid)
    (hs : Shell.step s e = some s') : s'.Ints := by
  cases e with
  | command bg words cmdline =>
    obtain ⟨-, rfl⟩ := command_eq hs
    exact h.of_eq (.of_eq rfl rfl rfl) rfl
  | next => exact h.next hs
  | fails =>
    obtain ⟨rfl, -⟩ := fails_eq hs
    exact h.of_eq (.of_eq rfl rfl rfl) rfl
  | forked pid =>
    obtain ⟨bg, cmdline, -, -, -, rfl⟩ := forked_eq hs
    refine ⟨?_, h.nextjid, h.jids⟩
    intro q hq
    rcases List.mem_cons.1 hq with rfl | hq
    · exact hfork _ rfl
    · exact h.pids q hq
  | sigchld reports =>
    obtain ⟨-, -, -, t, ht, rfl⟩ := sigchld_eq hs
    have hreturns : t.handlerReturns.table.nextjid = t.table.nextjid := by
      unfold handlerReturns
      split <;> rfl
    have hkept := sigchldHandler_keeps (J := fun t => t.Books ∧ t.Ints) ?_ ?_ ?_ ?_ ht
    · exact hkept.2.of_eq (sameIds_handlerReturns t) hreturns
    · rintro u q - ⟨hbu, hu⟩ hq
      exact ⟨hbu.reap hq, hu.reap hbu hq⟩
    · rintro u q - i ⟨hbu, hu⟩ -
      have hids := (sameIds_reported u q).trans (sameIds_setState _ i .ST)
      exact ⟨hbu.congr hids, hu.of_eq hids rfl⟩
    · rintro u q - ⟨hbu, hu⟩ - -
      have hids : SameIds u ((u.reported q).goto .crashed) :=
        (sameIds_reported u q).trans (.of_eq rfl rfl rfl)
      exact ⟨hbu.congr hids, hu.of_eq hids rfl⟩
    · exact ⟨hb.congr (.of_eq rfl rfl rfl), h.of_eq (.of_eq rfl rfl rfl) rfl⟩
  | interrupt sig =>
    have := interrupt_eq hs
    subst this
    apply h.of_eq (sameIds_handlerReturns s)
    unfold handlerReturns
    split <;> rfl
  | change pid c =>
    obtain ⟨status, rfl⟩ := change_eq hs
    exact h.of_eq ⟨map_pid_setStatus _ _ _, fun _ => rfl, fun _ => rfl, rfl⟩ rfl

end Shell

namespace Main

variable {m m' : Main} {e : MainEvent}

/-- `fork` returns an `int`. -/
def ForksInt (_ : Main) : MainEvent → Prop
  | .other (.forked pid) => IsInt pid
  | _ => True

instance (n : ℤ) : Decidable (IsInt n) := inferInstanceAs (Decidable (_ ∧ _))

instance (m : Main) (e : MainEvent) : Decidable (ForksInt m e) := by
  unfold ForksInt
  split <;> infer_instance

/-- What the listing rests on. -/
structure Listed (m : Main) : Prop where
  sound : m.shell.Sound
  resumes : m.shell.control.Resumes
  stated : m.shell.Stated
  ints : m.shell.Ints
  shows : Shell.Shows m.evaluated m.shell
  commands : ∀ cmdline ∈ m.evaluated, IsCommand cmdline

/-- Every part of what the listing rests on is kept by every step. -/
lemma Listed.step (h : m.Listed) (hok : ForksInt m e) (hs : m.step e = some m') : m'.Listed := by
  have hsound := sound_step h.sound hs
  have hshows := shows_step h.shows h.sound hs
  cases e with
  | read tok =>
    obtain ⟨-, ⟨-, rfl⟩ | ⟨cmdline, rest, bg, words, hturn, -, hstep, -, heval⟩⟩ := read_cases hs
    · exact ⟨hsound, trivial, h.stated, h.ints.of_eq (.of_eq rfl rfl rfl) rfl, hshows, h.commands⟩
    · refine ⟨hsound, Shell.resumes_step h.resumes hstep,
        h.stated.step h.sound.books h.resumes hstep,
        h.ints.step h.sound.books (fun _ he => by cases he) hstep, hshows, ?_⟩
      intro c hc
      rw [heval] at hc
      rcases List.mem_append.1 hc with hc | hc
      · exact h.commands c hc
      · rw [List.mem_singleton.1 hc]
        exact isCommand_of_eval hturn
  | stdin input =>
    cases hs
    exact ⟨hsound, h.resumes, h.stated, h.ints, hshows, h.commands⟩
  | other e =>
    obtain ⟨-, hstep, -, heval⟩ := other_eq hs
    refine ⟨hsound, Shell.resumes_step h.resumes hstep,
      h.stated.step h.sound.books h.resumes hstep, h.ints.step h.sound.books ?_ hstep, hshows, ?_⟩
    · rintro pid rfl
      exact hok
    · rw [heval]
      exact h.commands

/-- The list is empty at the start. -/
lemma listed_start (input : List Char) : (start input).Listed where
  sound := Shell.sound_init
  resumes := trivial
  stated := fun _ hpid => absurd rfl hpid
  ints :=
    { pids := fun _ h => absurd h List.not_mem_nil
      nextjid := isInt_one
      jids := fun _ => isInt_zero }
  shows := ⟨fun _ hc => (by cases hc), fun _ => .inr ⟨rfl, rfl⟩⟩
  commands := fun _ h => absurd h List.not_mem_nil

/-- Every look finds what fits. -/
lemma Listed.bounded (h : m.Listed) (k : Slot) : (m.shell.table.jobs k).Bounded where
  jid := h.ints.jids k
  pid := by
    by_cases hpid : (m.shell.table.jobs k).pid = 0
    · rw [hpid]
      exact isInt_zero
    · exact h.ints.pids _ (h.sound.books.named k hpid)
  short := by
    rcases h.shows.jobs k with hline | ⟨-, hline⟩
    · exact (h.commands _ hline).short
    · rw [hline]
      decide

/-- A job in the list has a state and a command line. -/
lemma Listed.listable (h : m.Listed) {k : Slot} (hpid : (m.shell.table.jobs k).pid ≠ 0) :
    (m.shell.table.jobs k).Listable where
  toBounded := h.bounded k
  state := h.stated k hpid
  command := h.commands _ ((h.shows.jobs k).resolve_right fun h => hpid h.1)

end Main

/-- The list of jobs at these times. -/
def listsAt (times : ℕ → Main) (n : ℕ) : JobList := (times n).shell.table.jobs

/-- Take any run from any input, with the times at which `listjobs` looks at the list, and let
48 calls of `write` return. Whatever happens between the looks, `listjobs` does not write past its
buffer. If every `write` takes all it is given, and no slot changes between the looks at it, then
what `listjobs` has written tells the jobs in their order, with their states and command lines.
At any time the printed pid of a job is an argument with which `fg` and `bg` find it, and so is
the printed ID behind `%` as long as the IDs are distinct. -/
theorem listing_shows_jobs {input : List Char} {times : ℕ → Main}
    (hstart : Reaches Main.step Main.ForksInt (Main.start input) (times 0))
    (hnext : ∀ n, Reaches Main.step Main.ForksInt (times n) (times (n + 1)))
    (out : Sink Char) (hlen : 48 ≤ out.answers.length) :
    (listjobs (listsAt times) out).isSome ∧
    (TakesAll out.answers → (∀ i, Steady (listsAt times) i) →
      ∃ text answers,
        listjobs (listsAt times) out = some (true, ⟨out.bytes ++ text, out.errno, answers⟩) ∧
          readListing text =
            some (shownJobs (fun i => look (listsAt times) i 0) (List.finRange MAXJOBS))) ∧
    ∀ n k, (listsAt times n k).pid ≠ 0 →
      jobOf (listsAt times n) (listsAt times n k).shown.pid = some k ∧
        ((times n).shell.table.JidsDistinct →
          jobOf (listsAt times n) ('%' :: (listsAt times n k).shown.jid) = some k) := by
  have hlisted : ∀ n, (times n).Listed := by
    intro n
    induction n with
    | zero => exact hstart.invariant (Main.listed_start input) fun _ _ _ hm hok hs => hm.step hok hs
    | succ n ih => exact (hnext n).invariant ih fun _ _ _ hm hok hs => hm.step hok hs
  have hfit : ∀ piece ∈ (List.finRange MAXJOBS).flatMap (slotPieces (listsAt times)),
      piece.length < MAXLINE := by
    intro piece hpiece
    obtain ⟨i, -, hi⟩ := List.mem_flatMap.1 hpiece
    have hbounded : ∀ k, (look (listsAt times) i k).Bounded := fun k => (hlisted _).bounded i
    exact slotPieces_fit hbounded piece hi
  have hcalls := (length_pieces_le (listsAt times)).trans hlen
  refine ⟨isSome_writePieces hfit hcalls, ?_, ?_⟩
  · intro hall hsteady
    refine ⟨_, _, writePieces_eq hfit hall hcalls, ?_⟩
    exact readListing_slots hsteady (fun i hpid => (hlisted _).listable hpid) _
  · intro n k hpid
    exact jobOf_shown (hlisted n).sound.books.wf hpid ((hlisted n).listable hpid)

/-- A job, and then the jobs are listed. -/
def askedFor : List Char := "/a &\njobs\n".toList

/-- The shell adds the job and begins with the second command. -/
def askedRun : List MainEvent :=
  [.read ⟨0, fun _ => none, none, none, .BUILTIN_NONE⟩, .other .next, .other (.forked 2),
    .other .next, .other .next, .read ⟨0, fun _ => none, none, none, .BUILTIN_NONE⟩]

/-- The state in which `listjobs` begins. -/
def asked : Main := (after Main.step (Main.start askedFor) askedRun).get (by decide +kernel)

/-- Meanwhile the job ends. -/
def reapedRun : List MainEvent := [.other (.change 2 .exit), .other (.sigchld [2])]

/-- The state after that. -/
def reaped : Main := (after Main.step asked reapedRun).get (by decide +kernel)

/-- The job ends when its line has been printed. -/
def meanwhile (n : ℕ) : Main := if n < 6 then asked else reaped

/-- The job is listed as it was. -/
theorem listing_shows_jobs_reaped :
    ∃ text answers,
      listjobs (listsAt meanwhile) ⟨[], .other, List.replicate 48 (.moves MAXLINE)⟩ =
          some (true, ⟨text, .other, answers⟩) ∧
        readListing text = some [⟨['1'], ['2'], .BG, "/a &".toList⟩] := by
  have hstart : Reaches Main.step Main.ForksInt (Main.start askedFor) asked :=
    reaches_of_after (Option.some_get _).symm
      (by decide +kernel : Meets _ Main.ForksInt (Main.start askedFor) askedRun)
  have hreaped : Reaches Main.step Main.ForksInt asked reaped :=
    reaches_of_after (Option.some_get _).symm
      (by decide +kernel : Meets _ Main.ForksInt asked reapedRun)
  have hnext : ∀ n, Reaches Main.step Main.ForksInt (meanwhile n) (meanwhile (n + 1)) := by
    intro n
    unfold meanwhile
    split_ifs with h h'
    · exact .refl _
    · exact hreaped
    · omega
    · exact .refl _
  have hall : TakesAll (List.replicate 48 (.moves MAXLINE)) := by
    intro a ha
    exact ⟨MAXLINE, le_rfl, List.eq_of_mem_replicate ha⟩
  obtain ⟨text, answers, hlist, hread⟩ := (listing_shows_jobs hstart hnext
    ⟨[], .other, List.replicate 48 (.moves MAXLINE)⟩ (by simp)).2.1 hall (by decide +kernel)
  exact ⟨text, answers, hlist, hread.trans (by decide +kernel)⟩

end Tshlab
end SystemsLabs
