import SystemsLabs.Tshlab.Foreground

/-!
# The states of a job

A job keeps its slot, its process, its ID and its command line until `deletejob` clears it
(`job_kept`), and only its state changes. The head of tsh.c lists the changes: FG to ST by
ctrl-z, ST to FG and BG to FG by `fg`, ST to BG by `bg`. The shell makes these, lets a job in
the background stop, too, and makes no others (`job_state_changes`).
-/

namespace SystemsLabs
namespace Tshlab

open Runs Shell

/-- `fg` and `bg` hand `perform_job` the state FG or BG. -/
def Control.Resumes : Control → Prop
  | .perform _ l => l.state = .FG ∨ l.state = .BG
  | _ => True

/-- What stays of a job while its state changes. -/
structure SameJob (job job' : Job) : Prop where
  pid : job'.pid = job.pid
  jid : job'.jid = job.jid
  cmdline : job'.cmdline = job.cmdline

namespace Shell

variable {s s' t : Shell} {e : Event} {pid : ℤ} {k : Slot} {reports : List ℤ}

/-! ## What one step does to a slot -/

/-- What a step does to the job of a slot: nothing; `eval` adds the child that it has forked;
the handler reaps the child, or learns that it has stopped; `fg` or `bg` writes the state. -/
inductive SlotStep (s s' : Shell) (e : Event) (k : Slot) : Prop
  | same (h : s'.table.jobs k = s.table.jobs k)
  | added (pid : ℤ) (bg : Bool) (cmdline : List Char) (hc : s.control = .addjob pid bg cmdline)
      (hfree : (s.table.jobs k).pid = 0)
      (h : s'.table.jobs k = ⟨pid, s.table.nextjid, if bg then .BG else .FG, cmdline⟩)
  | reaped (hreport : (s.table.jobs k).pid ∈ reportsOf e) (hchild : (s.table.jobs k).pid ∈ s.pids)
      (hgone : (s.table.jobs k).pid ∉ s'.pids) (h : s'.table.jobs k = clearjob)
  | stopped (hreport : (s.table.jobs k).pid ∈ reportsOf e) (hpid : (s.table.jobs k).pid ≠ 0)
      (h : s'.table.jobs k = { s.table.jobs k with state := .ST })
  | resumed (l : Locals) (hc : s.control = .perform .setState l) (he : e = .next)
      (hl : l.job = some k) (h : s'.table.jobs k = { s.table.jobs k with state := l.state })

/-- Of the statements of `perform_job` only one writes to the list. -/
lemma jobs_perform (s : Shell) (l : Locals) (line : Line) (k : Slot) :
    (s.perform l line).table.jobs k = s.table.jobs k ∨ line = .setState ∧ l.job = some k ∧
      (s.perform l line).table.jobs k = { s.table.jobs k with state := l.state } := by
  cases line with
  | jidOfId | jobOfJid | pidOfId | jidOfPid | jobOfPid | finish => exact .inl rfl
  | testId | pidOfJob | resume =>
    left
    rw [perform]
    split <;> rfl
  | setState =>
    rw [perform]
    split
    · exact .inl rfl
    · next i hi =>
      by_cases hk : k = i
      · subst hk
        right
        exact ⟨rfl, hi, (jobs_setState s k k l.state).trans (if_pos rfl)⟩
      · left
        exact (jobs_setState s i k l.state).trans (if_neg hk)

/-- What a statement of the main flow does to a slot. -/
lemma slotStep_next (hs : s.next = some s') (k : Slot) : SlotStep s s' .next k := by
  cases hc : s.control with
  | perform line l =>
    rw [next, hc] at hs
    cases hs
    rcases jobs_perform s l line k with hsame | ⟨rfl, hl, hstate⟩
    · exact .same hsame
    · exact .resumed l hc rfl hl hstate
  | addjob pid bg cmdline =>
    rw [next, hc] at hs
    dsimp only at hs
    split at hs
    · cases hs
      exact .same rfl
    · next t ht =>
      obtain ⟨-, i, hi, hjobs⟩ := addjob_eq_some ht
      cases hs
      by_cases hk : k = i
      · subst hk
        exact .added pid bg cmdline hc hi ((congrFun hjobs k).trans (Function.update_self ..))
      · exact .same ((congrFun hjobs k).trans (Function.update_of_ne hk ..))
  | block _ _ | unblock | test _ _ | suspend _ _ =>
    rw [next, hc] at hs
    cases hs
    exact .same rfl
  | ready | fork _ _ | suspended _ _ _ | exited | crashed =>
    rw [next, hc] at hs
    cases hs

/-- A job that the handler takes from its slot belonged to a child that it has reaped. -/
lemma sigchldHandler_gone (hb : s.Books) (hs : s.sigchldHandler reports = some s')
    (hpid : (s'.table.jobs k).pid ≠ (s.table.jobs k).pid) : (s.table.jobs k).pid ∉ s'.pids := by
  have hkept := sigchldHandler_keeps (J := fun t => t.Books ∧
    ((t.table.jobs k).pid = (s.table.jobs k).pid ∨ (s.table.jobs k).pid ∉ t.pids)) ?_ ?_ ?_ ?_ hs
  · exact hkept.2.resolve_left hpid
  · rintro t q - ⟨hbt, ht⟩ hq
    refine ⟨hbt.reap hq, ?_⟩
    rcases ht with hslot | hgone
    · rw [hbt.jobs_reap (hbt.pos q hq)]
      split_ifs with hkq
      · right
        intro hmem
        exact (mem_pids_reap.1 hmem).2 (hslot.symm.trans hkq)
      · exact .inl hslot
    · right
      intro hmem
      exact hgone (mem_pids_reap.1 hmem).1
  · rintro t q - i ⟨hbt, ht⟩ -
    have hids := (sameIds_reported t q).trans (sameIds_setState _ i .ST)
    refine ⟨hbt.congr hids, ?_⟩
    rw [hids.pid, hids.pids]
    exact ht
  · rintro t q - ⟨hbt, ht⟩ - -
    have hids : SameIds t ((t.reported q).goto .crashed) :=
      (sameIds_reported t q).trans (.of_eq rfl rfl rfl)
    refine ⟨hbt.congr hids, ?_⟩
    rw [hids.pid, hids.pids]
    exact ht
  · exact ⟨hb, .inl rfl⟩

/-- The handler clears a slot with its child or marks its job as stopped. -/
lemma slotStep_sigchld (hb : s.Books) (hs : step s (.sigchld reports) = some s') (k : Slot) :
    SlotStep s s' (.sigchld reports) k := by
  obtain ⟨-, -, -, t, ht, rfl⟩ := sigchld_eq hs
  have hids := sameIds_handlerReturns t
  have hjobs : t.handlerReturns.table.jobs k = t.table.jobs k := by
    unfold handlerReturns
    split <;> rfl
  have hb' : Books { s with pending := false } := hb.congr (.of_eq rfl rfl rfl)
  by_cases hslot : (s.table.jobs k).pid ∉ reports ∨ (s.table.jobs k).pid = 0
  · exact .same (hjobs.trans (sigchldHandler_slot (s := { s with pending := false }) hb' hslot ht))
  push Not at hslot
  rcases (handled_of_sigchldHandler hb' ht).slot k with hsame | hclear | ⟨hpid, hstop⟩
  · exact .same (hjobs.trans hsame)
  · refine .reaped hslot.1 (hb.named k hslot.2) ?_ (hjobs.trans hclear)
    rw [hids.pids]
    apply sigchldHandler_gone hb' ht
    rw [hclear]
    exact hslot.2.symm
  · exact .stopped hslot.1 hpid (hjobs.trans hstop)

/-- What any step does to a slot. -/
lemma slotStep (hb : s.Books) (hs : step s e = some s') (k : Slot) : SlotStep s s' e k := by
  cases e with
  | command bg tok cmdline =>
    obtain ⟨-, rfl⟩ := command_eq hs
    exact .same rfl
  | next => exact slotStep_next hs k
  | fails =>
    obtain ⟨rfl, -⟩ := fails_eq hs
    exact .same rfl
  | forked pid =>
    obtain ⟨bg, cmdline, -, -, -, rfl⟩ := forked_eq hs
    exact .same rfl
  | sigchld reports => exact slotStep_sigchld hb hs k
  | interrupt sig =>
    have := interrupt_eq hs
    subst this
    apply SlotStep.same
    unfold handlerReturns
    split <;> rfl
  | change pid c =>
    obtain ⟨status, rfl⟩ := change_eq hs
    exact .same rfl

/-! ## A job stays what it is -/

/-- A slot whose child stays keeps its job. -/
lemma SlotStep.sameJob (h : SlotStep s s' e k) (hpid : (s.table.jobs k).pid ≠ 0)
    (hmem : (s.table.jobs k).pid ∈ s'.pids) : SameJob (s.table.jobs k) (s'.table.jobs k) := by
  cases h with
  | same h =>
    rw [h]
    exact ⟨rfl, rfl, rfl⟩
  | added _ _ _ _ hfree _ => exact absurd hfree hpid
  | reaped _ _ hgone _ => exact absurd hmem hgone
  | stopped _ _ h | resumed _ _ _ _ h =>
    rw [h]
    exact ⟨rfl, rfl, rfl⟩

/-- From the one state to the other, `deletejob` has been called for the process if it is no
child any more. -/
structure Accounted (pid : ℤ) (s s' : Shell) : Prop where
  le : s.log.count (.deletejob pid) ≤ s'.log.count (.deletejob pid)
  lt : pid ∈ s.pids → pid ∉ s'.pids → s.log.count (.deletejob pid) < s'.log.count (.deletejob pid)

/-- Steps that call `deletejob` for nobody keep the children. -/
lemma Accounted.of_pids (hlog : s'.log.count (.deletejob pid) = s.log.count (.deletejob pid))
    (hpids : ∀ q ∈ s.pids, q ∈ s'.pids) : Accounted pid s s' where
  le := hlog.ge
  lt := fun hmem hgone => absurd (hpids pid hmem) hgone

/-- A step that keeps the pids leaves the account as it is. -/
lemma Accounted.sameIds (h : Accounted pid s t) (ht : SameIds t s') : Accounted pid s s' where
  le := by
    rw [ht.log]
    exact h.le
  lt := by
    rw [ht.log, ht.pids]
    exact h.lt

lemma SameIds.accounted (h : SameIds s s') : Accounted pid s s' := by
  apply Accounted.sameIds _ h
  exact .of_pids rfl fun _ hq => hq

/-- Another child that is reaped is in the account, too. -/
lemma Accounted.reap (h : Accounted pid s t) (q : ℤ) : Accounted pid s (t.reap q) := by
  have hcount : (t.reap q).log.count (.deletejob pid)
      = t.log.count (.deletejob pid) + if q = pid then 1 else 0 := by
    show (LogEntry.deletejob q :: t.log).count _ = _
    rw [List.count_cons]
    simp
  have hle := h.le
  constructor
  · omega
  · intro hmem hgone
    rw [mem_pids_reap] at hgone
    rw [hcount]
    split_ifs with hq
    · omega
    · exact h.lt hmem fun ht => hgone ⟨ht, fun h => hq h.symm⟩

/-- A child that a step takes away is reaped. -/
lemma accounted_step (hs : step s e = some s') (pid : ℤ) : Accounted pid s s' := by
  cases e with
  | command bg tok cmdline =>
    obtain ⟨-, rfl⟩ := command_eq hs
    exact SameIds.accounted (.of_eq rfl rfl rfl)
  | next =>
    obtain ⟨-, ⟨hids, -⟩ | ⟨q, bg, cmdline, t, -, -, rfl⟩⟩ := next_cases hs
    · exact hids.accounted
    · exact .of_pids (List.count_cons_of_ne (by simp)) fun _ hq => hq
  | fails =>
    obtain ⟨rfl, -⟩ := fails_eq hs
    exact SameIds.accounted (.of_eq rfl rfl rfl)
  | forked q =>
    obtain ⟨bg, cmdline, -, -, -, rfl⟩ := forked_eq hs
    exact .of_pids rfl fun _ hq => List.mem_cons_of_mem _ hq
  | sigchld reports =>
    obtain ⟨-, -, -, t, ht, rfl⟩ := sigchld_eq hs
    apply Accounted.sameIds _ (sameIds_handlerReturns t)
    apply sigchldHandler_keeps (J := Accounted pid s) _ _ _ _ ht
    · rintro u q - hu -
      exact hu.reap q
    · rintro u q - i hu -
      exact hu.sameIds ((sameIds_reported u q).trans (sameIds_setState _ i .ST))
    · rintro u q - hu - -
      exact hu.sameIds ((sameIds_reported u q).trans (.of_eq rfl rfl rfl))
    · exact .of_pids rfl fun _ hq => hq
  | interrupt sig =>
    have := interrupt_eq hs
    subst this
    exact (sameIds_handlerReturns s).accounted
  | change q c =>
    obtain ⟨status, rfl⟩ := change_eq hs
    exact SameIds.accounted ⟨map_pid_setStatus _ _ _, fun _ => rfl, fun _ => rfl, rfl⟩

/-- The slot has in `t` the job that it has in `s`, or `deletejob` has been called for the
process in between. -/
structure Keeps (s : Shell) (k : Slot) (t : Shell) : Prop where
  le : s.log.count (.deletejob (s.table.jobs k).pid) ≤ t.log.count (.deletejob (s.table.jobs k).pid)
  job : SameJob (s.table.jobs k) (t.table.jobs k) ∨
    s.log.count (.deletejob (s.table.jobs k).pid) < t.log.count (.deletejob (s.table.jobs k).pid)

/-- The job is in its slot as long as its child is not reaped. -/
lemma Keeps.step (h : Keeps s k t) (hpid : (s.table.jobs k).pid ≠ 0) (hb : t.Books)
    (hs : Shell.step t e = some s') : Keeps s k s' := by
  have hacc := accounted_step hs (s.table.jobs k).pid
  refine ⟨h.le.trans hacc.le, ?_⟩
  rcases h.job with hjob | hlt
  · have hpid' : (t.table.jobs k).pid ≠ 0 := by rwa [hjob.pid]
    have hchild := hb.named k hpid'
    by_cases hmem : (t.table.jobs k).pid ∈ s'.pids
    · have hjob' := (slotStep hb hs k).sameJob hpid' hmem
      exact .inl ⟨hjob'.pid.trans hjob.pid, hjob'.jid.trans hjob.jid,
        hjob'.cmdline.trans hjob.cmdline⟩
    · rw [hjob.pid] at hchild hmem
      exact .inr (h.le.trans_lt (hacc.lt hchild hmem))
  · exact .inr (hlt.trans_le hacc.le)

end Shell

/-- From its launch until `deletejob` is called for its process, a job keeps its slot, its
process, its ID and its command line, whatever the run does meanwhile. -/
theorem job_kept {ok : Shell → Event → Prop} {s t : Shell} {k : Slot}
    (h : Reaches step ok init s) (ht : Reaches step ok s t) (hpid : (s.table.jobs k).pid ≠ 0)
    (hlog : t.log.count (.deletejob (s.table.jobs k).pid)
      = s.log.count (.deletejob (s.table.jobs k).pid)) :
    SameJob (s.table.jobs k) (t.table.jobs k) := by
  have hsound : s.Sound := h.invariant sound_init fun _ _ _ hs _ he => hs.step he
  have hinv : t.Sound ∧ Keeps s k t := by
    apply ht.invariant ⟨hsound, le_rfl, .inl ⟨rfl, rfl, rfl⟩⟩
    intro u e u' hu _ he
    exact ⟨hu.1.step he, hu.2.step hpid hu.1.books he⟩
  exact hinv.2.job.resolve_right hlog.not_gt

/-- A job in the background. -/
def launched : Shell := (after step init (launch 2 true)).get (by decide +kernel)

/-- It stops, and `fg %1` is about to bring it to the foreground. -/
def stopAndFg : List Event :=
  [.next, .change 2 .stop, .sigchld [2],
    .command 0 ⟨[['f', 'g'], ['%', '1']], none, none, .BUILTIN_FG⟩ []] ++ List.replicate 5 .next

/-- The state after both. -/
def writing : Shell := (after step launched stopAndFg).get (by decide +kernel)

theorem job_kept_stopped : SameJob (launched.table.jobs 0) (writing.table.jobs 0) := by
  have hrun : Reaches step (fun _ _ => True) init launched :=
    reaches_of_after (Option.some_get _).symm
      (by decide +kernel : Meets _ (fun _ _ => True) init (launch 2 true))
  have hlater : Reaches step (fun _ _ => True) launched writing :=
    reaches_of_after (Option.some_get _).symm
      (by decide +kernel : Meets _ (fun _ _ => True) launched stopAndFg)
  exact job_kept hrun hlater (by decide +kernel) (by decide +kernel)

namespace Shell

variable {s s' t : Shell} {e : Event} {pid : ℤ} {k : Slot} {reports : List ℤ}

/-! ## Transitions -/

/-- `fg` and `bg` give one of the two states. -/
lemma resumes_evalStart (bg : ℤ) (tok : Tok) (cmdline : List Char) :
    (evalStart bg tok cmdline).Resumes := by
  unfold evalStart
  split_ifs
  · trivial
  · split
    · trivial
    · split
      · trivial
      · trivial
      · exact .inr rfl
      · exact .inl rfl
      · trivial

/-- The state to be written does not change in `perform_job`. -/
lemma resumes_perform {l : Locals} (h : l.state = .FG ∨ l.state = .BG) (line : Line) :
    (s.perform l line).control.Resumes := by
  cases line with
  | jidOfId | jobOfJid | pidOfId | jidOfPid | jobOfPid => exact h
  | testId =>
    rw [perform]
    split
    · trivial
    · rw [goto]
      split_ifs <;> exact h
  | pidOfJob | setState =>
    rw [perform]
    split
    · trivial
    · exact h
  | resume =>
    rw [perform]
    split <;> exact h
  | finish =>
    rw [perform, goto]
    split_ifs <;> trivial

/-- A handler does not change it either. -/
lemma resumes_handlerReturns (h : s.control.Resumes) : s.handlerReturns.control.Resumes := by
  unfold handlerReturns
  split
  · trivial
  · exact h

/-- In every step the state to be written is `FG` or `BG`. -/
lemma resumes_step (h : s.control.Resumes) (hs : step s e = some s') : s'.control.Resumes := by
  cases e with
  | command bg tok cmdline =>
    obtain ⟨-, rfl⟩ := command_eq hs
    exact resumes_evalStart bg tok cmdline
  | next =>
    cases hc : s.control with
    | perform line l =>
      rw [Shell.step, next, hc] at hs
      cases hs
      rw [hc] at h
      exact resumes_perform h line
    | addjob pid bg cmdline =>
      rw [Shell.step, next, hc] at hs
      dsimp only at hs
      split at hs
      · cases hs
        trivial
      · cases hs
        cases bg <;> trivial
    | test pid caller =>
      rw [Shell.step, next, hc] at hs
      cases hs
      rw [goto]
      cases caller <;> split_ifs <;> trivial
    | block _ _ | unblock | suspend _ _ =>
      rw [Shell.step, next, hc] at hs
      cases hs
      trivial
    | ready | fork _ _ | suspended _ _ _ | exited | crashed =>
      rw [Shell.step, next, hc] at hs
      cases hs
  | fails =>
    obtain ⟨rfl, -⟩ := fails_eq hs
    trivial
  | forked pid =>
    obtain ⟨bg, cmdline, -, -, -, rfl⟩ := forked_eq hs
    trivial
  | sigchld reports =>
    obtain ⟨-, -, -, t, ht, rfl⟩ := sigchld_eq hs
    apply resumes_handlerReturns
    obtain ⟨-, hc | hc⟩ := sigchldHandler_control ht
    · rw [hc]
      exact h
    · rw [hc]
      trivial
  | interrupt sig =>
    have := interrupt_eq hs
    subst this
    exact resumes_handlerReturns h
  | change pid c =>
    obtain ⟨status, rfl⟩ := change_eq hs
    exact h

/-- `fg` or `bg` is at the statement that writes this state to the job. -/
def Resuming (s : Shell) (e : Event) (k : Slot) (state : JobState) : Prop :=
  e = .next ∧ ∃ l, s.control = .perform .setState l ∧ l.job = some k ∧ l.state = state

/-- The job that `perform_job` is about to write to. -/
def writtenJob (s : Shell) : Event → Option Slot
  | .next =>
    match s.control with
    | .perform .setState l => l.job
    | _ => none
  | _ => none

/-- The condition, for the slot that the step writes to. -/
lemma writesLiveJob_iff (s : Shell) (e : Event) :
    (∀ k, s.writtenJob e = some k → (s.table.jobs k).pid ≠ 0) ↔ WritesLiveJob s e := by
  cases e with
  | next =>
    unfold WritesLiveJob writtenJob
    cases s.control with
    | perform line l => cases line <;> simp
    | _ => simp
  | _ => simp [WritesLiveJob, writtenJob]

instance (s : Shell) (e : Event) : Decidable (WritesLiveJob s e) :=
  decidable_of_iff _ (writesLiveJob_iff s e)

/-- The changes of state in the head of tsh.c, each with what causes it, and the stop of a job
in the background. -/
inductive Transition (s : Shell) (e : Event) (k : Slot) : JobState → JobState → Prop
  | ctrlZ (h : (s.table.jobs k).pid ∈ reportsOf e) : Transition s e k .FG .ST
  | stop (h : (s.table.jobs k).pid ∈ reportsOf e) : Transition s e k .BG .ST
  | fgStopped (h : Resuming s e k .FG) : Transition s e k .ST .FG
  | fgBackground (h : Resuming s e k .FG) : Transition s e k .BG .FG
  | bgStopped (h : Resuming s e k .BG) : Transition s e k .ST .BG

/-- What becomes of the job of a slot: it stays, comes, goes with its child, or changes its state
and nothing else. -/
inductive JobStep (s s' : Shell) (e : Event) (k : Slot) : Prop
  | same (h : s'.table.jobs k = s.table.jobs k)
  | added (pid : ℤ) (cmdline : List Char) (hc : s.control.adding = some pid)
      (hfree : (s.table.jobs k).state = .UNDEF)
      (h : s'.table.jobs k = ⟨pid, s.table.nextjid, .FG, cmdline⟩ ∨
        s'.table.jobs k = ⟨pid, s.table.nextjid, .BG, cmdline⟩)
  | reaped (hchild : (s.table.jobs k).pid ∈ s.pids) (hgone : (s.table.jobs k).pid ∉ s'.pids)
      (h : s'.table.jobs k = clearjob)
  | changed (state : JobState) (ht : Transition s e k (s.table.jobs k).state state)
      (h : s'.table.jobs k = { s.table.jobs k with state := state })

/-- Every job has a state. -/
def Stated (s : Shell) : Prop := ∀ k, (s.table.jobs k).pid ≠ 0 → (s.table.jobs k).state ≠ .UNDEF

/-- A job gets a state when it is added, and each later state is one, too. -/
lemma Stated.step (h : s.Stated) (hb : s.Books) (hr : s.control.Resumes)
    (hs : Shell.step s e = some s') : s'.Stated := by
  intro k
  cases slotStep hb hs k with
  | same hk =>
    rw [hk]
    exact h k
  | added pid bg _ _ _ hk =>
    rw [hk]
    cases bg <;> simp
  | reaped _ _ _ hk =>
    rw [hk]
    intro hpid
    exact absurd rfl hpid
  | stopped _ _ hk =>
    rw [hk]
    simp
  | resumed l hc _ _ hk =>
    rw [hc] at hr
    rw [hk]
    rcases hr with hr | hr <;> simp [hr]

end Shell

/-- In every run in which `perform_job` writes to no job that is gone, every step does to every
job one of four things: it leaves it, adds it for the child just forked, takes it away with its
child, or changes its state by a transition of the table, and nothing else of it. -/
theorem job_state_changes {s s' : Shell} {e : Event} (h : Reaches step WritesLiveJob init s)
    (hok : WritesLiveJob s e) (hs : step s e = some s') (k : Slot) : JobStep s s' e k := by
  have hinv : s.Sound ∧ s.control.Aims s.table.jobs ∧ s.Foreground ∧ s.control.Resumes ∧
      s.Stated := by
    apply h.invariant ⟨sound_init, trivial, foreground_init, trivial, fun _ hpid => absurd rfl hpid⟩
    rintro u f u' ⟨hsound, ha, hfg, hr, hst⟩ hok hf
    exact ⟨hsound.step hf, aims_step hsound.books ha hf, hfg.step hsound ha hok hf,
      resumes_step hr hf, hst.step hsound.books hr hf⟩
  obtain ⟨hsound, -, hfg, hr, hst⟩ := hinv
  cases slotStep hsound.books hs k with
  | same hk => exact .same hk
  | reaped _ hchild hgone hk => exact .reaped hchild hgone hk
  | added pid bg cmdline hc hfree hk =>
    have hstate : (s.table.jobs k).state = .UNDEF := by
      by_contra hstate
      exact hfg.named k hstate hfree
    refine .added pid cmdline (by rw [hc]; rfl) hstate ?_
    cases bg with
    | true => exact .inr hk
    | false => exact .inl hk
  | stopped hreport hpid hk =>
    cases hstate : (s.table.jobs k).state with
    | UNDEF => exact absurd hstate (hst k hpid)
    | FG => exact .changed .ST (hstate ▸ .ctrlZ hreport) hk
    | BG => exact .changed .ST (hstate ▸ .stop hreport) hk
    | ST =>
      apply JobStep.same
      rw [hk, ← hstate]
  | resumed l hc he hl hk =>
    subst he
    have hpid : (s.table.jobs k).pid ≠ 0 := by
      simp only [WritesLiveJob, hc] at hok
      exact hok k hl
    have hnone : (s.table.jobs k).state ≠ .FG := by
      -- a job in the foreground is waited for, and this statement waits for none
      intro hstate
      have haw := hfg.awaited k hstate
      rw [hc] at haw
      exact haw
    have hresume : Resuming s .next k l.state := ⟨rfl, l, hc, hl, rfl⟩
    rw [hc] at hr
    rcases hr with hr | hr
    · rw [hr] at hresume hk
      cases hstate : (s.table.jobs k).state with
      | UNDEF => exact absurd hstate (hst k hpid)
      | FG => exact absurd hstate hnone
      | BG => exact .changed .FG (hstate ▸ .fgBackground hresume) hk
      | ST => exact .changed .FG (hstate ▸ .fgStopped hresume) hk
    · rw [hr] at hresume hk
      cases hstate : (s.table.jobs k).state with
      | UNDEF => exact absurd hstate (hst k hpid)
      | FG => exact absurd hstate hnone
      | BG =>
        apply JobStep.same
        rw [hk, ← hstate]
      | ST => exact .changed .BG (hstate ▸ .bgStopped hresume) hk

theorem job_state_changes_fg :
    JobStep writing ((step writing .next).get (by decide +kernel)) .next 0 := by
  have hrun : Reaches step WritesLiveJob init writing := by
    have hsecond : Reaches step WritesLiveJob launched writing :=
      reaches_of_after (Option.some_get _).symm
        (by decide +kernel : Meets _ _ launched stopAndFg)
    exact Relation.ReflTransGen.trans (reaches_of_after (Option.some_get _).symm
      (by decide +kernel : Meets _ _ init (launch 2 true))) hsecond
  exact job_state_changes hrun (by decide +kernel) (Option.some_get _).symm 0

end Tshlab
end SystemsLabs
