import SystemsLabs.Tshlab.Jobs

/-!
# The shell of tsh.c as a machine

The main flow runs statement by statement (`Control`), and between any two statements the
surroundings may act: a child ends, stops or continues, SIGCHLD is delivered, or SIGINT or
SIGTSTP. `sigchld_handler` runs as one step. The event of that step lists the children in the
order in which `waitpid` reports them, and the loop ends only when there is nothing left to
report. What `parseline` makes of a command line, whether a system call fails, and which pid
`fork` returns are choices of the surroundings, too.

A dereferenced `NULL` ends the shell (`Control.crashed`). `log` is no variable of the program:
it records the calls of `addjob` that succeed and those of `deletejob`, the latest first.
-/

namespace SystemsLabs
namespace Tshlab

/-! ## Signals and children -/

/-- The signals with a handler. -/
inductive Signal
  | SIGCHLD
  | SIGINT
  | SIGTSTP
  | SIGQUIT
deriving DecidableEq

/-- Which signals a mask blocks. -/
abbrev Mask := Signal → Bool

namespace Mask

/-- `sigprocmask(SIG_BLOCK, set, NULL)`. -/
def block (m set : Mask) : Mask := fun sig => m sig || set sig

/-- `sigprocmask(SIG_UNBLOCK, set, NULL)`. -/
def unblock (m set : Mask) : Mask := fun sig => m sig && !set sig

/-- The mask that `eval` blocks and unblocks. -/
def ofEval : Mask
  | .SIGCHLD | .SIGINT | .SIGTSTP => true
  | .SIGQUIT => false

/-- The mask that `wait_foregroundjob` waits with: everything but three signals. -/
def ofWait : Mask
  | .SIGCHLD | .SIGINT | .SIGTSTP => false
  | .SIGQUIT => true

end Mask

/-- What became of a child, and of a stopped one whether `waitpid` has reported it. -/
inductive Status
  | running
  | stopped (reported : Bool)
  | exited
  | signaled
deriving DecidableEq

/-- A child that has not been reaped. -/
structure Child where
  pid : ℤ
  status : Status
deriving DecidableEq

/-- `waitpid(-1, &status, WNOHANG|WUNTRACED)` may report the child. -/
def Child.reportable (c : Child) : Bool :=
  match c.status with
  | .running => false
  | .stopped reported => !reported
  | .exited | .signaled => true

/-- What may happen to a child. A child that continues need not cause SIGCHLD. -/
inductive Change
  | exit
  | kill
  | stop
  | continue (notify : Bool)
deriving DecidableEq

/-- The status after a change, if the change can happen. -/
def Change.apply : Change → Status → Option Status
  | .exit, .running => some .exited
  | .kill, .running | .kill, .stopped _ => some .signaled
  | .stop, .running => some (.stopped false)
  | .continue _, .stopped _ => some .running
  | _, _ => none

/-- The change causes SIGCHLD. -/
def Change.notifies : Change → Bool
  | .exit | .kill | .stop => true
  | .continue notify => notify

/-- The children after the status of one has changed. -/
def setStatus (children : List Child) (pid : ℤ) (status : Status) : List Child :=
  children.map fun c => if c.pid = pid then { c with status := status } else c

/-- The status of an unreaped child. -/
def statusOf (children : List Child) (pid : ℤ) : Option Status :=
  (children.find? fun c => c.pid = pid).map Child.status

/-! ## Command lines -/

/-- Whether `argv[0]` is a builtin command. -/
inductive Builtins
  | BUILTIN_NONE
  | BUILTIN_QUIT
  | BUILTIN_JOBS
  | BUILTIN_BG
  | BUILTIN_FG
deriving DecidableEq

/-- `struct cmdline_tokens`. The entry of `argv` behind the last one is `NULL`. -/
structure Tok where
  argv : List (List Char)
  infile : Option (List Char)
  outfile : Option (List Char)
  builtins : Builtins

/-- The number that the digits at the start of a string denote. -/
def digits (s : List Char) : ℤ :=
  (s.takeWhile Char.isDigit).foldl (fun n c => 10 * n + (c.toNat - '0'.toNat : ℕ)) 0

/-- `atoi(s)`: the `long` that `strtol` reads behind white space and a sign, cut to an `int`. -/
def atoi (s : List Char) : ℤ :=
  let value :=
    match s.dropWhile fun c => c = ' ' ∨ ('\t' ≤ c ∧ c ≤ '\r') with
    | '-' :: s => -digits s
    | '+' :: s => digits s
    | s => digits s
  (max (-2 ^ 63) (min (2 ^ 63 - 1) value)).bmod (2 ^ 32)

/-! ## The main flow -/

/-- The locals of `perform_job`. -/
structure Locals where
  id : Option (List Char)
  state : JobState
  pid : ℤ
  jid : ℤ
  job : Option Slot

/-- The statements of `perform_job`. -/
inductive Line
  | testId
  | jidOfId
  | jobOfJid
  | pidOfJob
  | pidOfId
  | jidOfPid
  | jobOfPid
  | setState
  | resume
  | finish
deriving DecidableEq

/-- Who called `wait_foregroundjob`. -/
inductive Caller
  | eval
  | performJob
deriving DecidableEq

/-- The next statement of the main flow. -/
inductive Control
  | ready
  | block (bg : Bool) (cmdline : List Char)
  | fork (bg : Bool) (cmdline : List Char)
  | addjob (pid : ℤ) (bg : Bool) (cmdline : List Char)
  | unblock
  | perform (line : Line) (locals : Locals)
  | test (pid : ℤ) (caller : Caller)
  | suspend (pid : ℤ) (caller : Caller)
  | suspended (pid : ℤ) (caller : Caller) (saved : Mask)
  | exited
  | crashed

/-- What the main flow does after `wait_foregroundjob`. -/
def Caller.returns : Caller → Control
  | .eval => .unblock
  | .performJob => .ready

/-- A call of `addjob` that succeeded or a call of `deletejob`. -/
inductive LogEntry
  | addjob (pid : ℤ)
  | deletejob (pid : ℤ)
deriving DecidableEq

/-- The shell and its children. -/
structure Shell where
  table : Table
  children : List Child
  pending : Bool
  mask : Mask
  control : Control
  log : List LogEntry

/-- What the surroundings decide: `next` lets the main flow go on, and in `fails` the system
call of its statement fails. -/
inductive Event
  | command (bg : ℤ) (tok : Tok) (cmdline : List Char)
  | next
  | fails
  | forked (pid : ℤ)
  | sigchld (reports : List ℤ)
  | interrupt (sig : Signal)
  | change (pid : ℤ) (c : Change)

namespace Shell

/-- The shell before its first command. -/
def init : Shell := ⟨Table.init, [], false, fun _ => false, .ready, []⟩

def goto (s : Shell) (c : Control) : Shell := { s with control := c }

/-- `job->state = state`. -/
def setState (s : Shell) (i : Slot) (state : JobState) : Shell :=
  { s with
    table :=
      { s.table with
        jobs := Function.update s.table.jobs i { s.table.jobs i with state := state } } }

/-- Only the state of that job is another one. -/
lemma jobs_setState (s : Shell) (i k : Slot) (state : JobState) :
    (s.setState i state).table.jobs k =
      if k = i then { s.table.jobs i with state := state } else s.table.jobs k :=
  Function.update_apply _ _ _ _

/-- `eval(cmdline)` up to the first statement that a signal could disturb. -/
def evalStart (bg : ℤ) (tok : Tok) (cmdline : List Char) : Control :=
  if bg = -1 then .ready
  else
    match tok.argv[0]? with
    | none => .ready
    | some _ =>
      match tok.builtins with
      | .BUILTIN_QUIT => .exited
      -- `listjobs` only reads the list, and signals come to it as they come at the prompt
      | .BUILTIN_JOBS => .ready
      | .BUILTIN_BG => .perform .testId ⟨tok.argv[1]?, .BG, 0, 0, none⟩
      | .BUILTIN_FG => .perform .testId ⟨tok.argv[1]?, .FG, 0, 0, none⟩
      | .BUILTIN_NONE => .block (bg ≠ 0) cmdline

/-- A statement of `perform_job`. -/
def perform (s : Shell) (l : Locals) : Line → Shell
  | .testId =>
    match l.id with
    | none => s.goto .crashed
    | some id => s.goto (.perform (if id.head? = some '%' then .jidOfId else .pidOfId) l)
  | .jidOfId => s.goto (.perform .jobOfJid { l with jid := atoi (l.id.getD []).tail })
  | .jobOfJid => s.goto (.perform .pidOfJob { l with job := getjobjid s.table.jobs l.jid })
  | .pidOfJob =>
    match l.job with
    | none => s.goto .crashed
    | some i => s.goto (.perform .jobOfPid { l with pid := (s.table.jobs i).pid })
  | .pidOfId => s.goto (.perform .jidOfPid { l with pid := atoi (l.id.getD []) })
  | .jidOfPid => s.goto (.perform .jobOfPid { l with jid := pid2jid s.table.jobs l.pid })
  | .jobOfPid =>
    s.goto (.perform .setState
      { l with job := if l.job = none then getjobpid s.table.jobs l.pid else l.job })
  | .setState =>
    match l.job with
    | none => s.goto .crashed
    | some i => (s.setState i l.state).goto (.perform .resume l)
  | .resume =>
    -- `kill(pid, SIGCONT)`
    match statusOf s.children l.pid with
    | some (.stopped _) =>
      { s with
        children := setStatus s.children l.pid .running
        pending := true
        control := .perform .finish l }
    | _ => s.goto (.perform .finish l)
  | .finish => s.goto (if l.state = .FG then .test l.pid .performJob else .ready)

/-- The main flow executes its next statement. -/
def next (s : Shell) : Option Shell :=
  match s.control with
  | .block bg cmdline => some { s with mask := s.mask.block .ofEval, control := .fork bg cmdline }
  | .addjob pid bg cmdline =>
    match Tshlab.addjob s.table pid (if bg then .BG else .FG) cmdline with
    | none => some (s.goto .ready)
    | some t =>
      some
        { s with
          table := t
          log := .addjob pid :: s.log
          control := if bg then .unblock else .test pid .eval }
  | .unblock => some { s with mask := s.mask.unblock .ofEval, control := .ready }
  | .perform line l => some (s.perform l line)
  | .test pid caller =>
    some (s.goto (if fgpid s.table.jobs = pid then .suspend pid caller else caller.returns))
  | .suspend pid caller =>
    some { s with mask := .ofWait, control := .suspended pid caller s.mask }
  | .ready | .fork _ _ | .suspended _ _ _ | .exited | .crashed => none

/-- The system call of the main flow's next statement fails. -/
def fails (s : Shell) : Option Shell :=
  match s.control with
  | .block _ _ | .fork _ _ | .unblock => some (s.goto .ready)
  | _ => none

/-- `fork` returns the pid of a new child. -/
def forked (s : Shell) (pid : ℤ) : Option Shell :=
  match s.control with
  | .fork bg cmdline =>
    if 0 < pid ∧ pid ∉ s.children.map Child.pid then
      some { s with children := ⟨pid, .running⟩ :: s.children, control := .addjob pid bg cmdline }
    else none
  | _ => none

/-! ## Signals -/

/-- `deletejob(job_list, pid)` in `sigchld_handler`, for a child that is reaped. -/
def reap (s : Shell) (pid : ℤ) : Shell :=
  { s with
    table := (deletejob s.table pid).getD s.table
    children := s.children.filter fun c => c.pid ≠ pid
    log := .deletejob pid :: s.log }

/-- `waitpid` has reported that a child stopped. -/
def reported (s : Shell) (pid : ℤ) : Shell :=
  { s with children := setStatus s.children pid (.stopped true) }

/-- `sigchld_handler`, when `waitpid` reports these children. -/
def sigchldHandler (s : Shell) : List ℤ → Option Shell
  | [] => if s.children.any Child.reportable then none else some s
  | pid :: reports =>
    match statusOf s.children pid with
    | some .exited | some .signaled => (s.reap pid).sigchldHandler reports
    | some (.stopped false) =>
      match getjobpid s.table.jobs pid with
      | some i => ((s.reported pid).setState i .ST).sigchldHandler reports
      -- `getjobpid` returned `NULL`, so this was the last report
      | none => if reports = [] then some ((s.reported pid).goto .crashed) else none
    | _ => none

/-- After a handler `sigsuspend` restores the mask and returns. -/
def handlerReturns (s : Shell) : Shell :=
  match s.control with
  | .suspended pid caller saved => { s with mask := saved, control := .test pid caller }
  | _ => s

/-- The process of the shell is there. -/
def alive (s : Shell) : Bool :=
  match s.control with
  | .exited | .crashed => false
  | _ => true

/-- SIGCHLD is delivered. -/
def sigchld (s : Shell) (reports : List ℤ) : Option Shell :=
  if s.alive ∧ s.pending ∧ s.mask .SIGCHLD = false then
    (sigchldHandler { s with pending := false } reports).map handlerReturns
  else none

/-- `sigint_handler` or `sigtstp_handler` runs. What its `kill` does to the foreground job is a
change of that child. -/
def interrupt (s : Shell) (sig : Signal) : Option Shell :=
  if s.alive ∧ (sig = .SIGINT ∨ sig = .SIGTSTP) ∧ s.mask sig = false then some s.handlerReturns
  else none

/-- Something happens to a child. -/
def change (s : Shell) (pid : ℤ) (c : Change) : Option Shell :=
  (statusOf s.children pid).bind fun status =>
    (c.apply status).map fun status =>
      { s with children := setStatus s.children pid status, pending := s.pending || c.notifies }

/-- One step of the shell or of its surroundings. -/
def step (s : Shell) : Event → Option Shell
  | .command bg tok cmdline =>
    match s.control with
    | .ready => some (s.goto (evalStart bg tok cmdline))
    | _ => none
  | .next => s.next
  | .fails => s.fails
  | .forked pid => s.forked pid
  | .sigchld reports => s.sigchld reports
  | .interrupt sig => s.interrupt sig
  | .change pid c => s.change pid c

end Shell

end Tshlab
end SystemsLabs
