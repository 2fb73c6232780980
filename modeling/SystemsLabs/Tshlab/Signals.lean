import SystemsLabs.Tshlab.JobStates
import SystemsLabs.Tshlab.StoppedJobs

/-!
# What the shell knows of stops, and whom the keyboard reaches

Once `waitpid` has reported that a child stopped, its job says so for as long as the child is
stopped (`stopped_jobs_marked`). The one exception lies inside `perform_job`, which writes the
new state before it wakes the child.

`sigint_handler` and `sigtstp_handler` send their signal to the process group of the job in the
foreground. They reach the job that the main flow waits for, and nobody otherwise
(`keyboard_signals_foreground`).
-/

namespace SystemsLabs
namespace Tshlab

open Runs Shell

/-- The next statement is the `kill` that wakes the process, or there is no next statement. -/
def Control.Wakes (c : Control) (pid : ℤ) : Prop :=
  match c with
  | .perform .resume l => l.pid = pid
  | .crashed => True
  | _ => False

namespace Shell

variable {s s' t : Shell} {e : Event} {pid : ℤ} {k : Slot} {reports : List ℤ} {c : Child}

/-! ## Stops that have been reported -/

/-- The jobs of the children whose stop has been reported are stopped, or about to go on. The
child that `eval` has forked is not among these children before it has its job. -/
structure Marked (s : Shell) : Prop where
  marked : ∀ c ∈ s.children, c.status = .stopped true → ∀ k, (s.table.jobs k).pid = c.pid →
    (s.table.jobs k).state = .ST ∨ s.control.Wakes c.pid
  adding : ∀ c ∈ s.children, c.status = .stopped true → s.control.adding ≠ some c.pid

/-- Steps that report no stop and write to no job. -/
lemma Marked.of_jobs (h : s.Marked) (hjobs : s'.table.jobs = s.table.jobs)
    (hc : ∀ c ∈ s'.children, c.status = .stopped true → c ∈ s.children ∧
      (s.control.Wakes c.pid → s'.control.Wakes c.pid) ∧
      (s'.control.adding = some c.pid → s.control.adding = some c.pid)) : s'.Marked where
  marked := by
    intro c hmem hst k hk
    rw [hjobs] at hk ⊢
    obtain ⟨hmem', hwake, -⟩ := hc c hmem hst
    exact (h.marked c hmem' hst k hk).imp_right hwake
  adding := by
    intro c hmem hst hadd
    obtain ⟨hmem', -, hadd'⟩ := hc c hmem hst
    exact h.adding c hmem' hst (hadd' hadd)

/-- Steps that leave the children, too. -/
lemma Marked.of_same (h : s.Marked) (hjobs : s'.table.jobs = s.table.jobs)
    (hchildren : s'.children = s.children) (hwake : ∀ pid, ¬ s.control.Wakes pid)
    (hadd : s'.control.adding = none) : s'.Marked := by
  apply h.of_jobs hjobs
  intro c hmem _
  rw [hchildren] at hmem
  refine ⟨hmem, fun hw => absurd hw (hwake c.pid), ?_⟩
  intro hadd'
  rw [hadd] at hadd'
  cases hadd'

/-- A child is found by its pid. -/
lemma statusOf_of_mem (hb : s.Books) (hc : c ∈ s.children) :
    statusOf s.children c.pid = some c.status := by
  have hfind : s.children.find? (fun d => d.pid = c.pid) = some c := by
    apply find?_of_unique hc (by simp)
    intro d hd hdc
    exact List.inj_on_of_nodup_map hb.nodup hd hc (by simpa using hdc)
  rw [statusOf, hfind, Option.map_some]

/-- The job that is written is that of a process which is woken next. -/
lemma Marked.write {l : Locals} {i : Slot} (h : s.Marked) (hb : s.Books)
    (hc : s.control = .perform .setState l) (ha : s.control.Aims s.table.jobs)
    (hi : l.job = some i) : ((s.setState i l.state).goto (.perform .resume l)).Marked := by
  rw [hc] at ha
  constructor
  · intro c hmem hst k hk
    have hjobs := jobs_setState s i k l.state
    change ((s.setState i l.state).table.jobs k).pid = _ at hk
    change ((s.setState i l.state).table.jobs k).state = _ ∨ _
    rw [hjobs] at hk ⊢
    split_ifs at hk ⊢ with hki
    · subst hki
      have hpos : 0 < c.pid := hb.pos _ (List.mem_map_of_mem hmem)
      rcases ha.2 k hi with hpid | hpid
      · right
        exact hpid.symm.trans hk
      · have hk' : (s.table.jobs k).pid = c.pid := hk
        omega
    · left
      refine (h.marked c hmem hst k hk).resolve_right ?_
      rw [hc]
      exact id
  · intro c _ _ hadd
    cases hadd

/-- The child that is woken is not stopped any more. -/
lemma Marked.resume {l : Locals} (h : s.Marked) (hb : s.Books)
    (hc : s.control = .perform .resume l) : (s.perform l .resume).Marked := by
  rw [Shell.perform]
  split
  · next reported hstatus =>
    refine h.of_jobs rfl ?_
    intro c hmem hst
    rcases mem_setStatus hmem with ⟨hmem', hne⟩ | ⟨-, hrun⟩
    · refine ⟨hmem', ?_, fun hadd => by cases hadd⟩
      intro hw
      rw [hc] at hw
      exact absurd hw.symm hne
    · cases hrun.symm.trans hst
  · next hrunning =>
    refine h.of_jobs rfl ?_
    intro c hmem hst
    refine ⟨hmem, ?_, fun hadd => by cases hadd⟩
    intro hw
    rw [hc] at hw
    -- it was not stopped
    have hpid : l.pid = c.pid := hw
    have hstatus := statusOf_of_mem hb hmem
    rw [← hpid, hst] at hstatus
    exact absurd hstatus (hrunning true)

/-- The state is written before SIGCONT is sent, so only in between a stopped child has no stopped
job. -/
lemma Marked.perform {l : Locals} {line : Line} (h : s.Marked) (hb : s.Books)
    (hc : s.control = .perform line l) (ha : s.control.Aims s.table.jobs) :
    (s.perform l line).Marked := by
  have hwake : line ≠ .resume → ∀ pid, ¬ s.control.Wakes pid := by
    intro hline pid hw
    rw [hc] at hw
    cases line with
    | resume => exact hline rfl
    | _ => exact hw
  cases line with
  | jidOfId | jobOfJid | pidOfId | jidOfPid | jobOfPid =>
    exact h.of_same rfl rfl (hwake (by simp)) rfl
  | testId | pidOfJob =>
    rw [Shell.perform]
    split
    all_goals exact h.of_same rfl rfl (hwake (by simp)) rfl
  | finish =>
    refine h.of_same rfl rfl (hwake (by simp)) ?_
    exact (control_perform s l .finish).1.adding
  | setState =>
    rw [Shell.perform]
    split
    · exact h.of_same rfl rfl (hwake (by simp)) rfl
    · next i hi => exact h.write hb hc ha hi
  | resume => exact h.resume hb hc

/-- The other statements change no state of a job. -/
lemma Marked.next (h : s.Marked) (hsound : s.Sound) (ha : s.control.Aims s.table.jobs)
    (hs : s.next = some s') : s'.Marked := by
  cases hc : s.control with
  | perform line l =>
    rw [Shell.next, hc] at hs
    cases hs
    exact h.perform hsound.books hc ha
  | addjob pid bg cmdline =>
    have hadding : s.control.adding = some pid := by rw [hc]; rfl
    have hwake : ∀ q, ¬ s.control.Wakes q := by
      intro q hq
      rw [hc] at hq
      exact hq
    rw [Shell.next, hc] at hs
    dsimp only at hs
    split at hs
    · cases hs
      exact h.of_same rfl rfl hwake rfl
    · next t ht =>
      obtain ⟨-, i, -, hjobs⟩ := addjob_eq_some ht
      cases hs
      constructor
      · intro c hmem hst k hk
        left
        change (t.jobs k).pid = c.pid at hk
        change (t.jobs k).state = .ST
        by_cases hki : k = i
        · -- the child that is added has not been reported
          subst hki
          rw [hjobs, Function.update_self] at hk
          have hpid : pid = c.pid := hk
          rw [hpid] at hadding
          exact absurd hadding (h.adding c hmem hst)
        · rw [hjobs, Function.update_of_ne hki] at hk ⊢
          exact (h.marked c hmem hst k hk).resolve_right (hwake _)
      · intro c _ _ hadd
        cases bg <;> cases hadd
  | block _ _ | unblock | suspend _ _ =>
    rw [Shell.next, hc] at hs
    cases hs
    refine h.of_same rfl rfl ?_ rfl
    intro q hq
    rw [hc] at hq
    exact hq
  | test pid caller =>
    rw [Shell.next, hc] at hs
    cases hs
    refine h.of_same rfl rfl ?_ ?_
    · intro q hq
      rw [hc] at hq
      exact hq
    · rw [goto]
      cases caller <;> split_ifs <;> rfl
  | ready | fork _ _ | suspended _ _ _ | exited | crashed =>
    rw [Shell.next, hc] at hs
    cases hs

/-- Waking up changes no job. -/
lemma Marked.handlerReturns (h : s.Marked) : s.handlerReturns.Marked := by
  unfold Shell.handlerReturns
  split
  · next hc =>
    refine h.of_same rfl rfl ?_ rfl
    intro q hq
    rw [hc] at hq
    exact hq
  · exact h

/-- The handler marks the job of each child that it reports as stopped. -/
lemma Marked.sigchldHandler (h : s.Marked) (hb : s.Books) (hadd : s.control.adding = none)
    (hs : s.sigchldHandler reports = some s') : s'.Marked := by
  have hkept := sigchldHandler_keeps
    (J := fun t => t.Books ∧ t.Marked ∧ t.control.adding = none) ?_ ?_ ?_ ?_ hs
  · exact hkept.2.1
  · rintro t q - ⟨hbt, ht, haddt⟩ hq
    refine ⟨hbt.reap hq, ?_, haddt⟩
    constructor
    · intro c hmem hst k hk
      have hpos : 0 < c.pid := (hbt.reap hq).pos _ (List.mem_map_of_mem hmem)
      rw [hbt.jobs_reap (hbt.pos q hq)] at hk ⊢
      split_ifs at hk ⊢
      · have hzero : 0 = c.pid := hk
        omega
      · exact ht.marked c (List.mem_of_mem_filter hmem) hst k hk
    · intro c _ _
      rw [show (t.reap q).control = t.control from rfl, haddt]
      simp
  · rintro t q - i ⟨hbt, ht, haddt⟩ hi
    have hids := (sameIds_reported t q).trans (sameIds_setState _ i .ST)
    refine ⟨hbt.congr hids, ?_, haddt⟩
    obtain ⟨hpos, hpid⟩ := getjobpid_eq_some hi
    constructor
    · intro c hmem hst k hk
      rw [hids.pid] at hk
      rw [jobs_setState]
      split_ifs with hki
      · exact .inl rfl
      · rcases mem_setStatus hmem with ⟨hmem', -⟩ | ⟨hcq, -⟩
        · exact ht.marked c hmem' hst k hk
        · -- the process has one job
          refine absurd (hbt.wf.distinct k i ?_ ?_) hki
          all_goals omega
    · intro c _ _
      rw [show ((t.reported q).setState i .ST).control = t.control from rfl, haddt]
      simp
  · rintro t q - ⟨hbt, -, -⟩ - -
    refine ⟨hbt.congr ((sameIds_reported t q).trans (.of_eq rfl rfl rfl)), ⟨?_, ?_⟩, rfl⟩
    · intro c _ _ k _
      exact .inr trivial
    · intro c _ _ hadd
      cases hadd
  · exact ⟨hb, h, hadd⟩

/-- No change of a child is one that has been reported. -/
lemma change_not_reported {change : Change} (hs : step s (.change pid change) = some s') :
    ∃ status, status ≠ .stopped true ∧ s' = { s with
      children := setStatus s.children pid status, pending := s.pending || change.notifies } := by
  rw [step, Shell.change] at hs
  obtain ⟨old, -, hs⟩ := Option.bind_eq_some_iff.1 hs
  obtain ⟨status, hstatus, rfl⟩ := Option.map_eq_some_iff.1 hs
  refine ⟨status, ?_, rfl⟩
  rintro rfl
  cases change <;> cases old <;> cases hstatus

/-- A reported stop is written to the job at once. -/
lemma Marked.step (h : s.Marked) (hsound : s.Sound) (ha : s.control.Aims s.table.jobs)
    (hs : Shell.step s e = some s') : s'.Marked := by
  cases e with
  | command bg tok cmdline =>
    obtain ⟨hc, rfl⟩ := command_eq hs
    refine h.of_same rfl rfl ?_ (adding_evalStart bg tok cmdline)
    intro q hq
    rw [hc] at hq
    exact hq
  | next => exact h.next hsound ha hs
  | fails =>
    obtain ⟨rfl, hc⟩ := fails_eq hs
    refine h.of_same rfl rfl ?_ rfl
    intro q hq
    rcases hc with ⟨_, _, hc⟩ | ⟨_, _, hc⟩ | hc
    all_goals
      rw [hc] at hq
      exact hq
  | forked pid =>
    obtain ⟨bg, cmdline, hc, -, hfresh, rfl⟩ := forked_eq hs
    refine h.of_jobs rfl ?_
    intro c hmem hst
    rcases List.mem_cons.1 hmem with rfl | hmem'
    · cases hst
    · refine ⟨hmem', ?_, ?_⟩
      · intro hw
        rw [hc] at hw
        exact hw.elim
      · intro hadd
        -- the new child has a pid of its own
        obtain rfl : pid = c.pid := Option.some.inj hadd
        exact absurd (List.mem_map_of_mem hmem') hfresh
  | sigchld reports =>
    obtain ⟨-, -, hmask, t, ht, rfl⟩ := sigchld_eq hs
    have hb' : Books { s with pending := false } := hsound.books.congr (.of_eq rfl rfl rfl)
    have h' : Marked { s with pending := false } := ⟨h.marked, h.adding⟩
    exact (h'.sigchldHandler hb' (hsound.masked.adding hmask) ht).handlerReturns
  | interrupt sig =>
    have := interrupt_eq hs
    subst this
    exact h.handlerReturns
  | change pid change =>
    obtain ⟨status, hstatus, rfl⟩ := change_not_reported hs
    refine h.of_jobs rfl ?_
    intro c hmem hst
    rcases mem_setStatus hmem with ⟨hmem', -⟩ | ⟨-, hc⟩
    · exact ⟨hmem', id, id⟩
    · exact absurd (hc.symm.trans hst) hstatus

/-- No child has stopped. -/
lemma marked_init : init.Marked where
  marked := fun _ h => absurd h List.not_mem_nil
  adding := fun _ h => absurd h List.not_mem_nil

end Shell

/-- In every run, the job of a child whose stop has been reported is stopped, unless the next
statement wakes the child or the shell has crashed. -/
theorem stopped_jobs_marked {ok : Shell → Event → Prop} {s : Shell} (h : Reaches step ok init s)
    {c : Child} (hc : c ∈ s.children) (hst : c.status = .stopped true) {k : Slot}
    (hk : (s.table.jobs k).pid = c.pid) :
    (s.table.jobs k).state = .ST ∨ s.control.Wakes c.pid := by
  have hinv : s.Sound ∧ s.control.Aims s.table.jobs ∧ s.Marked := by
    apply h.invariant ⟨sound_init, trivial, marked_init⟩
    rintro u f u' ⟨hsound, ha, hm⟩ - hf
    exact ⟨hsound.step hf, aims_step hsound.books ha hf, hm.step hsound ha hf⟩
  exact hinv.2.2.marked c hc hst k hk

/-- The job in the background of `sample` has stopped. -/
theorem stopped_jobs_marked_sample :
    (sample.table.jobs 0).state = .ST ∨ sample.control.Wakes 2 := by
  have hrun : Reaches step (fun _ _ => True) init sample :=
    reaches_of_after (Option.some_get _).symm
      (by decide +kernel : Meets _ (fun _ _ => True) init sampleRun)
  exact stopped_jobs_marked hrun (c := ⟨2, .stopped true⟩) (by decide +kernel) rfl
    (by decide +kernel)

/-! ## The keyboard -/

/-- A call `kill(group, sig)` with the negated pid of the foreground job, if there is one. -/
def forward (jobs : JobList) (sig : Signal) : Option (ℤ × Signal) :=
  let pid := fgpid jobs
  if pid ≠ 0 then some (-pid, sig) else none

/-- The signal that `sigint_handler` sends. -/
def sigintHandler (s : Shell) : Option (ℤ × Signal) := forward s.table.jobs .SIGINT

/-- The signal that `sigtstp_handler` sends. -/
def sigtstpHandler (s : Shell) : Option (ℤ × Signal) := forward s.table.jobs .SIGTSTP

namespace Shell

variable {s : Shell} {sig : Signal} {group pid : ℤ} {k : Slot}

/-- The handlers send to the foreground job, if there is one. -/
lemma forward_eq_some {jobs : JobList} :
    forward jobs sig = some (group, sig) ↔ fgpid jobs ≠ 0 ∧ group = -fgpid jobs := by
  rw [forward]
  by_cases h : fgpid jobs = 0
  · simp [h]
  · simp [h, eq_comm]

/-- The group is that of an unreaped child, whose job is in the foreground and awaited. -/
def Targets (s : Shell) (group : ℤ) : Prop :=
  ∃ k, (s.table.jobs k).state = .FG ∧ (s.table.jobs k).pid ∈ s.pids ∧
    s.control.Awaits (s.table.jobs k).pid ∧ group = -(s.table.jobs k).pid

/-- `fgpid` returns the process of the one job in the foreground. -/
lemma OneForeground.fgpid_eq (h : s.OneForeground) (hk : (s.table.jobs k).state = .FG) :
    fgpid s.table.jobs = (s.table.jobs k).pid := by
  rcases fgpid_spec s.table.jobs with ⟨-, hnone⟩ | ⟨i, hi, hpid⟩
  · exact absurd hk (hnone k)
  · rw [← hpid, h.one i k hi hk]

/-- The foreground job is found by `fgpid`. -/
lemma Foreground.forward_iff (h : s.Foreground) (hb : s.Books) :
    forward s.table.jobs sig = some (group, sig) ↔ s.Targets group := by
  rw [forward_eq_some]
  constructor
  · rintro ⟨hne, rfl⟩
    rcases fgpid_spec s.table.jobs with ⟨hzero, -⟩ | ⟨k, hk, hpid⟩
    · exact absurd hzero hne
    · have hpid' : (s.table.jobs k).pid ≠ 0 := by rwa [hpid]
      exact ⟨k, hk, hb.named k hpid', h.awaited k hk, by rw [hpid]⟩
  · rintro ⟨k, hk, hmem, -, rfl⟩
    rw [h.fgpid_eq hk]
    exact ⟨(hb.pos _ hmem).ne', rfl⟩

end Shell

/-- In every run in which `perform_job` writes to no job that is gone, ctrl-c and ctrl-z send
their signal exactly to the process group of the child whose job is in the foreground, and that
is a job that the main flow waits for: at the prompt, no child gets it. -/
theorem keyboard_signals_foreground {s : Shell} (h : Reaches step WritesLiveJob init s)
    (group : ℤ) :
    (sigintHandler s = some (group, .SIGINT) ↔ s.Targets group) ∧
      (sigtstpHandler s = some (group, .SIGTSTP) ↔ s.Targets group) := by
  have hinv : s.Sound ∧ s.control.Aims s.table.jobs ∧ s.Foreground := by
    apply h.invariant ⟨sound_init, trivial, foreground_init⟩
    rintro u f u' ⟨hsound, ha, hfg⟩ hok hf
    exact ⟨hsound.step hf, aims_step hsound.books ha hf, hfg.step hsound ha hok hf⟩
  exact ⟨hinv.2.2.forward_iff hinv.1.books, hinv.2.2.forward_iff hinv.1.books⟩

/-- A job in the background and one in the foreground, for which the shell sleeps. -/
def waiting : List Event := launch 2 true ++ .next :: launch 3 false ++ [.next, .next]

theorem keyboard_signals_foreground_sample :
    sigintHandler ((after step init waiting).get (by decide +kernel)) = some (-3, .SIGINT) ↔
      Targets ((after step init waiting).get (by decide +kernel)) (-3) := by
  have hrun : Reaches step WritesLiveJob init ((after step init waiting).get (by decide +kernel)) :=
    reaches_of_after (Option.some_get _).symm (by decide +kernel : Meets _ _ init waiting)
  exact (keyboard_signals_foreground hrun (-3)).1

/-- The shell sleeps for a child that ctrl-c and ctrl-z reach, unless a SIGCHLD is pending: no
foreground job is out of reach of the keyboard. -/
theorem keyboard_reaches_sleeper {s : Shell}
    (h : Reaches step (fun s e => WritesLiveJob s e ∧ NoReportBeforeSleep s e) init s) {pid : ℤ}
    {caller : Caller} {saved : Mask} (hc : s.control = .suspended pid caller saved)
    (hp : s.pending = false) :
    sigintHandler s = some (-pid, .SIGINT) ∧ sigtstpHandler s = some (-pid, .SIGTSTP) := by
  have hinv : s.Sound ∧ s.control.Aims s.table.jobs ∧ s.Foreground ∧ s.Woken := by
    apply h.invariant ⟨sound_init, trivial, foreground_init, trivial⟩
    rintro u f u' ⟨hsound, ha, hfg, hw⟩ ⟨hok, hreport⟩ hf
    exact ⟨hsound.step hf, aims_step hsound.books ha hf, hfg.step hsound ha hok hf,
      woken_step hw hsound ha hreport hf⟩
  obtain ⟨hsound, -, hfg, hw⟩ := hinv
  unfold Woken at hw
  rw [hc, hp] at hw
  obtain ⟨k, hpid, hk⟩ := hw.1.resolve_left (by simp)
  have hne : (s.table.jobs k).pid ≠ 0 := by
    apply hfg.named
    rw [hk]
    simp
  have htarget : s.Targets (-pid) :=
    ⟨k, hk, hsound.books.named k hne, hfg.awaited k hk, by rw [hpid]⟩
  exact ⟨(hfg.forward_iff hsound.books).2 htarget, (hfg.forward_iff hsound.books).2 htarget⟩

theorem keyboard_reaches_sleeper_fg :
    sigintHandler sleeping = some (-2, .SIGINT) ∧ sigtstpHandler sleeping = some (-2, .SIGTSTP) := by
  have hrun : Reaches step (fun s e => WritesLiveJob s e ∧ NoReportBeforeSleep s e) init sleeping :=
    reaches_of_after (Option.some_get _).symm
      (by decide +kernel : Meets _ _ init (fgTested ++ [.next]))
  have hpid : sleeping.control.sleepsFor = some 2 := by decide +kernel
  obtain ⟨saved, hc⟩ := Control.sleepsFor_eq_some hpid
  exact keyboard_reaches_sleeper hrun hc (by decide +kernel)

end Tshlab
end SystemsLabs
