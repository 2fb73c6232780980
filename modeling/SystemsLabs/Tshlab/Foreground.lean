import SystemsLabs.Tshlab.Reaping

/-!
# The foreground job

Two promises of tsh.c depend on when SIGCHLD arrives while `fg` or `bg` runs, because
`perform_job` does not block it.

At most one job is in the foreground, and empty slots have no state. This fails exactly if the
job that `perform_job` has looked up is reaped before its state is written
(`one_foreground_iff`).

The shell does not sleep for a foreground job that is gone. `eval` blocks SIGCHLD between the
test of the wait loop and `sigsuspend`. After `fg` it is not blocked there, and a report of the
awaited child in between is lost on the loop (`no_lost_wakeup`).
-/

namespace SystemsLabs
namespace Tshlab

open Runs Shell

/-- The process that a job in the foreground may have. -/
def Control.Awaits (c : Control) (pid : ℤ) : Prop :=
  match c with
  | .test p _ | .suspend p _ | .suspended p _ _ => pid = p
  | .perform .resume l | .perform .finish l => l.state = .FG ∧ pid = l.pid
  | .crashed => True
  | _ => False

/-- What `perform_job` knows about the job it has looked up: it is the job of the process, or
its slot has been cleared. -/
def Control.Aims (c : Control) (jobs : JobList) : Prop :=
  match c with
  | .perform line l =>
    l.state ≠ .UNDEF ∧
      match line with
      | .testId | .jidOfId | .jobOfJid | .pidOfId | .jidOfPid => l.job = none
      | .jobOfPid | .setState => ∀ i, l.job = some i → (jobs i).pid = l.pid ∨ (jobs i).pid = 0
      | .pidOfJob | .resume | .finish => True
  | _ => True

namespace Shell

variable {s s' t : Shell} {e : Event} {pid : ℤ} {i k : Slot} {reports : List ℤ}

/-! ## What the handler does to the list -/

/-- Each slot of `s'` is that of `s`, that of `s` with the job stopped, or empty. -/
structure Handled (s s' : Shell) : Prop where
  books : s'.Books
  slot : ∀ k, s'.table.jobs k = s.table.jobs k ∨ s'.table.jobs k = clearjob ∨
    (s.table.jobs k).pid ≠ 0 ∧ s'.table.jobs k = { s.table.jobs k with state := .ST }

/-- One report after the other clears a slot or marks a job as stopped. -/
lemma handled_of_sigchldHandler (h : s.Books) (hs : s.sigchldHandler reports = some s') :
    Handled s s' := by
  apply sigchldHandler_keeps (J := Handled s) _ _ _ _ hs
  · intro t pid _ ht hpid
    refine ⟨ht.books.reap hpid, ?_⟩
    intro k
    rw [ht.books.jobs_reap (ht.books.pos pid hpid)]
    split_ifs
    · exact .inr (.inl rfl)
    · exact ht.slot k
  · intro t pid _ i ht hi
    refine ⟨ht.books.congr ((sameIds_reported t pid).trans (sameIds_setState _ i .ST)), ?_⟩
    intro k
    rw [jobs_setState]
    obtain ⟨hpos, hpid⟩ := getjobpid_eq_some hi
    split_ifs with hk
    · subst hk
      right; right
      show _ ∧ { t.table.jobs k with state := JobState.ST } = _
      rcases ht.slot k with hsame | hclear | ⟨hne, hstop⟩
      · rw [hsame] at hpid ⊢
        exact ⟨by omega, rfl⟩
      · rw [hclear] at hpid
        have : clearjob.pid = 0 := rfl
        omega
      · exact ⟨hne, by rw [hstop]⟩
    · exact ht.slot k
  · intro t pid _ ht _ _
    refine ⟨ht.books.congr ((sameIds_reported t pid).trans (.of_eq rfl rfl rfl)), ?_⟩
    exact ht.slot
  · exact ⟨h, fun _ => .inl rfl⟩

/-- A job that the handler leaves in the foreground was there before. -/
lemma Handled.fg (h : Handled s s') (hk : (s'.table.jobs k).state = .FG) :
    (s.table.jobs k).state = .FG ∧ (s'.table.jobs k).pid = (s.table.jobs k).pid := by
  rcases h.slot k with hsame | hclear | ⟨-, hstop⟩
  · rw [hsame] at hk ⊢
    exact ⟨hk, rfl⟩
  · rw [hclear] at hk
    cases hk
  · rw [hstop] at hk
    cases hk

/-- The handler clears slots, and fills none. -/
lemma Handled.pid_eq (h : Handled s s') (k : Slot) :
    (s'.table.jobs k).pid = (s.table.jobs k).pid ∨ (s'.table.jobs k).pid = 0 := by
  rcases h.slot k with hsame | hclear | ⟨-, hstop⟩
  · exact .inl (by rw [hsame])
  · exact .inr (by rw [hclear]; rfl)
  · exact .inl (by rw [hstop])

/-- The handler does not touch the slot of a process that is not reported. -/
lemma sigchldHandler_slot (h : s.Books) (hi : (s.table.jobs i).pid ∉ reports ∨ (s.table.jobs i).pid = 0)
    (hs : s.sigchldHandler reports = some s') : s'.table.jobs i = s.table.jobs i := by
  have hkept := sigchldHandler_keeps (J := fun t => t.Books ∧ t.table.jobs i = s.table.jobs i)
    ?_ ?_ ?_ ?_ hs
  · exact hkept.2
  · rintro t pid hmem ⟨hb, ht⟩ hpid
    refine ⟨hb.reap hpid, ?_⟩
    have hpos := hb.pos pid hpid
    rw [hb.jobs_reap hpos, if_neg, ht]
    rw [ht]
    rintro rfl
    rcases hi with hi | hi
    · exact hi hmem
    · omega
  · rintro t pid hmem k ⟨hb, ht⟩ hk
    refine ⟨hb.congr ((sameIds_reported t pid).trans (sameIds_setState _ k .ST)), ?_⟩
    obtain ⟨hpos, hpid⟩ := getjobpid_eq_some hk
    rw [jobs_setState, if_neg]
    · exact ht
    · rintro rfl
      rw [ht] at hpid
      rcases hi with hi | hi
      · exact hi (hpid ▸ hmem)
      · omega
  · rintro t pid - ⟨hb, ht⟩ - -
    exact ⟨hb.congr ((sameIds_reported t pid).trans (.of_eq rfl rfl rfl)), ht⟩
  · exact ⟨h, rfl⟩

/-! ## What `perform_job` aims at -/

lemma aims_evalStart (bg : ℤ) (tok : Tok) (cmdline : List Char) (jobs : JobList) :
    (evalStart bg tok cmdline).Aims jobs := by
  rcases evalStart_cases bg tok cmdline with h | h | ⟨state, hstate, h⟩ | ⟨_, h⟩
  case inr.inr.inl =>
    rw [h]
    exact ⟨hstate, rfl⟩
  all_goals
    rw [h]
    trivial

/-- Each line of `perform_job` knows of its job what the lines before have found out. -/
lemma aims_perform {l : Locals} {line : Line} (h : (Control.perform line l).Aims s.table.jobs) :
    (s.perform l line).control.Aims (s.perform l line).table.jobs := by
  -- one case for each line of `perform_job`
  cases line with
  | testId =>
    rw [Shell.perform]
    split
    · trivial
    · rw [goto]
      split_ifs <;> exact ⟨h.1, h.2⟩
  | jidOfId => exact ⟨h.1, h.2⟩
  | jobOfJid => exact ⟨h.1, trivial⟩
  | pidOfJob =>
    rw [Shell.perform]
    split
    · trivial
    · next i hi =>
      refine ⟨h.1, ?_⟩
      intro k hk
      have hki : k = i := by
        have hk' : l.job = some k := hk
        rw [hi] at hk'
        exact (Option.some.inj hk').symm
      left
      rw [hki]
      rfl
  | pidOfId => exact ⟨h.1, h.2⟩
  | jidOfPid =>
    refine ⟨h.1, ?_⟩
    intro k hk
    have hk' : l.job = some k := hk
    have hnone : l.job = none := h.2
    rw [hnone] at hk'
    cases hk'
  | jobOfPid =>
    refine ⟨h.1, ?_⟩
    intro k hk
    have hk' : (if l.job = none then getjobpid s.table.jobs l.pid else l.job) = some k := hk
    split_ifs at hk'
    · exact .inl (getjobpid_eq_some hk').2
    · exact h.2 k hk'
  | setState =>
    rw [Shell.perform]
    split
    · trivial
    · exact ⟨h.1, trivial⟩
  | resume =>
    rw [Shell.perform]
    split <;> exact ⟨h.1, trivial⟩
  | finish =>
    rw [Shell.perform, goto]
    split_ifs <;> trivial

/-- Only processes matter, and whether their slots have been cleared. -/
lemma Control.aims_mono {c : Control} {jobs jobs' : JobList} (h : c.Aims jobs)
    (hp : ∀ k, (jobs' k).pid = (jobs k).pid ∨ (jobs' k).pid = 0) : c.Aims jobs' := by
  cases c with
  | perform line l =>
    refine ⟨h.1, ?_⟩
    have h2 := h.2
    cases line
    case jobOfPid | setState =>
      intro k hk
      rcases hp k with hsame | hzero
      · rw [hsame]
        exact h2 k hk
      · exact .inr hzero
    all_goals exact h2
  | _ => trivial

/-- A handler leaves the locals of `perform_job` alone. -/
lemma aims_handlerReturns (h : s.control.Aims s.table.jobs) :
    s.handlerReturns.control.Aims s.handlerReturns.table.jobs := by
  unfold handlerReturns
  split
  · trivial
  · exact h

/-- Behind `sigsuspend` the loop tests for the same child again. -/
lemma awaits_handlerReturns (pid : ℤ) (h : s.control.Awaits pid) :
    s.handlerReturns.control.Awaits pid := by
  unfold handlerReturns
  split
  · next hc =>
    rw [hc] at h
    exact h
  · exact h

/-- The main flow keeps the aim. -/
lemma aims_next (h : s.control.Aims s.table.jobs) (hs : s.next = some s') :
    s'.control.Aims s'.table.jobs := by
  cases hc : s.control with
  | perform line l =>
    rw [next, hc] at hs
    cases hs
    rw [hc] at h
    exact aims_perform h
  | addjob pid bg cmdline =>
    rw [next, hc] at hs
    dsimp only at hs
    split at hs
    · cases hs
      trivial
    · cases hs
      cases bg <;> trivial
  | test pid caller =>
    rw [next, hc] at hs
    cases hs
    rw [goto]
    cases caller <;> split_ifs <;> trivial
  | block _ _ | unblock | suspend _ _ =>
    rw [next, hc] at hs
    cases hs
    trivial
  | ready | fork _ _ | suspended _ _ _ | exited | crashed =>
    rw [next, hc] at hs
    cases hs

/-- Every step keeps the aim of `perform_job`. -/
lemma aims_step (hb : s.Books) (h : s.control.Aims s.table.jobs) (hs : step s e = some s') :
    s'.control.Aims s'.table.jobs := by
  cases e with
  | command bg tok cmdline =>
    obtain ⟨-, rfl⟩ := command_eq hs
    exact aims_evalStart bg tok cmdline _
  | next => exact aims_next h hs
  | fails =>
    obtain ⟨rfl, -⟩ := fails_eq hs
    trivial
  | forked pid =>
    obtain ⟨bg, cmdline, -, -, -, rfl⟩ := forked_eq hs
    trivial
  | sigchld reports =>
    obtain ⟨-, -, -, t, ht, rfl⟩ := sigchld_eq hs
    apply aims_handlerReturns
    have hb' : Books { s with pending := false } := hb.congr (.of_eq rfl rfl rfl)
    have hhandled := handled_of_sigchldHandler hb' ht
    obtain ⟨-, hc | hc⟩ := sigchldHandler_control ht
    · rw [hc]
      exact Control.aims_mono h hhandled.pid_eq
    · rw [hc]
      trivial
  | interrupt sig =>
    have := interrupt_eq hs
    subst this
    exact aims_handlerReturns h
  | change pid c =>
    obtain ⟨status, rfl⟩ := change_eq hs
    exact h

/-! ## At most one job in the foreground -/

/-- At most one job is in the foreground, and a slot with a state has a process. -/
structure OneForeground (s : Shell) : Prop where
  one : ∀ i k, (s.table.jobs i).state = .FG → (s.table.jobs k).state = .FG → i = k
  named : ∀ i, (s.table.jobs i).state ≠ .UNDEF → (s.table.jobs i).pid ≠ 0

/-- The step does not write the state of a job that is gone. -/
def WritesLiveJob (s : Shell) (e : Event) : Prop :=
  match s.control, e with
  | .perform .setState l, .next => ∀ i, l.job = some i → (s.table.jobs i).pid ≠ 0
  | _, _ => True

/-- A job in the foreground is one that the main flow waits for. -/
structure Foreground (s : Shell) : Prop extends OneForeground s where
  awaited : ∀ i, (s.table.jobs i).state = .FG → s.control.Awaits (s.table.jobs i).pid

/-- Steps that change no job. -/
lemma Foreground.of_jobs (h : s.Foreground) (hj : s'.table.jobs = s.table.jobs)
    (hc : ∀ pid, s.control.Awaits pid → s'.control.Awaits pid) : s'.Foreground where
  one := by
    rw [hj]
    exact h.one
  named := by
    rw [hj]
    exact h.named
  awaited := by
    rw [hj]
    intro i hi
    exact hc _ (h.awaited i hi)

/-- The handler brings no job to the foreground. -/
lemma Foreground.handled (h : s.Foreground) (ht : Handled s s')
    (hc : ∀ pid, s.control.Awaits pid → s'.control.Awaits pid) : s'.Foreground where
  one := by
    intro i k hi hk
    exact h.one i k (ht.fg hi).1 (ht.fg hk).1
  named := by
    intro i hi
    rcases ht.slot i with hsame | hclear | ⟨hne, hstop⟩
    · rw [hsame] at hi ⊢
      exact h.named i hi
    · rw [hclear] at hi
      exact absurd rfl hi
    · rw [hstop]
      exact hne
  awaited := by
    intro i hi
    obtain ⟨hfg, hpid⟩ := ht.fg hi
    rw [hpid]
    exact hc _ (h.awaited i hfg)

/-- One slot gets a new job or a new state while no job is in the foreground. -/
lemma Foreground.write {job : Job} (h : s.Foreground) (hnone : ∀ pid, ¬ s.control.Awaits pid)
    (hj : s'.table.jobs = Function.update s.table.jobs i job) (hpid : job.pid ≠ 0)
    (hc : job.state = .FG → s'.control.Awaits job.pid) : s'.Foreground where
  one := by
    have hother : ∀ k, (s'.table.jobs k).state = .FG → k = i := by
      intro k hk
      by_contra hki
      rw [hj, Function.update_of_ne hki] at hk
      exact hnone _ (h.awaited k hk)
    intro a b ha hb
    rw [hother a ha, hother b hb]
  named := by
    intro k hk
    rw [hj, Function.update_apply] at hk ⊢
    split_ifs at hk ⊢
    · exact hpid
    · exact h.named k hk
  awaited := by
    intro k hk
    rw [hj, Function.update_apply] at hk ⊢
    split_ifs at hk ⊢
    · exact hc hk
    · exact absurd (h.awaited k hk) (hnone _)

/-- `fg` brings a job to the foreground only when no other one is there, if the job still lives. -/
lemma Foreground.perform {l : Locals} {line : Line} (h : s.Foreground)
    (hc : s.control = .perform line l) (ha : s.control.Aims s.table.jobs)
    (hok : WritesLiveJob s .next) : (s.perform l line).Foreground := by
  have hnone : ∀ {line' : Line}, line = line' → line' ≠ .resume → line' ≠ .finish →
      ∀ pid, ¬ s.control.Awaits pid := by
    rintro line' rfl h₁ h₂ pid hp
    rw [hc] at hp
    cases line with
    | resume => exact h₁ rfl
    | finish => exact h₂ rfl
    | _ => exact hp
  cases line with
  | jidOfId | jobOfJid | pidOfId | jidOfPid | jobOfPid =>
    refine h.of_jobs rfl ?_
    intro pid hp
    exact absurd hp (hnone rfl (by simp) (by simp) pid)
  | testId | pidOfJob =>
    rw [Shell.perform]
    split
    all_goals
      refine h.of_jobs rfl ?_
      intro pid hp
      exact absurd hp (hnone rfl (by simp) (by simp) pid)
  | setState =>
    have hnone' := hnone rfl (by simp) (by simp)
    rw [hc] at ha
    simp only [WritesLiveJob, hc] at hok
    rw [Shell.perform]
    split
    · refine h.of_jobs rfl ?_
      intro pid hp
      exact absurd hp (hnone' pid)
    · next i hi =>
      -- the slot has not been cleared, so it is that of the process
      have hpid : (s.table.jobs i).pid = l.pid := (ha.2 i hi).resolve_right (hok i hi)
      apply h.write hnone' rfl
      · exact hok i hi
      · intro hfg
        exact ⟨hfg, hpid⟩
  | resume =>
    rw [Shell.perform]
    split
    all_goals
      refine h.of_jobs rfl ?_
      intro pid hp
      rw [hc] at hp
      exact hp
  | finish =>
    refine h.of_jobs rfl ?_
    intro pid hp
    rw [hc] at hp
    obtain ⟨hfg, hpid⟩ := hp
    rw [Shell.perform, goto, if_pos hfg]
    exact hpid

/-- A test of the wait loop that fails finds no job in the foreground: it would have another
process. -/
lemma Foreground.none_of_test {caller : Caller} (h : s.Foreground)
    (hc : s.control = .test pid caller) (hfg : fgpid s.table.jobs ≠ pid) :
    ∀ i, (s.table.jobs i).state ≠ .FG := by
  rcases fgpid_spec s.table.jobs with ⟨-, hnone⟩ | ⟨i, hi, hpid⟩
  · exact hnone
  · have haw := h.awaited i hi
    rw [hc] at haw
    exact absurd (hpid.symm.trans haw) hfg

/-- `eval` adds a foreground job only when it waits for none. -/
lemma Foreground.next (h : s.Foreground) (ha : s.control.Aims s.table.jobs)
    (hok : WritesLiveJob s .next) (hs : s.next = some s') : s'.Foreground := by
  cases hc : s.control with
  | perform line l =>
    rw [Shell.next, hc] at hs
    cases hs
    exact h.perform hc ha hok
  | addjob pid bg cmdline =>
    have hnone : ∀ pid, ¬ s.control.Awaits pid := by
      intro p hp
      rw [hc] at hp
      exact hp
    rw [Shell.next, hc] at hs
    dsimp only at hs
    split at hs
    · cases hs
      refine h.of_jobs rfl ?_
      intro p hp
      exact absurd hp (hnone p)
    · next t ht =>
      obtain ⟨hpos, i, hi, hjobs⟩ := addjob_eq_some ht
      cases hs
      apply h.write hnone hjobs hpos.ne'
      intro hfg
      cases bg with
      | true => cases hfg
      | false => exact rfl
  | test pid caller =>
    rw [Shell.next, hc] at hs
    cases hs
    rw [goto]
    split_ifs with hfg
    · refine h.of_jobs rfl ?_
      intro p hp
      rw [hc] at hp
      exact hp
    · -- the wait ends because no job is in the foreground
      refine ⟨⟨h.one, h.named⟩, ?_⟩
      intro i hi
      exact absurd hi (h.none_of_test hc hfg i)
  | suspend pid caller =>
    rw [Shell.next, hc] at hs
    cases hs
    refine h.of_jobs rfl ?_
    intro p hp
    rw [hc] at hp
    exact hp
  | block _ _ | unblock =>
    rw [Shell.next, hc] at hs
    cases hs
    refine h.of_jobs rfl ?_
    intro p hp
    rw [hc] at hp
    exact hp.elim
  | ready | fork _ _ | suspended _ _ _ | exited | crashed =>
    rw [Shell.next, hc] at hs
    cases hs

/-- The list is the same behind `sigsuspend`. -/
lemma Foreground.handlerReturns (h : s.Foreground) : s.handlerReturns.Foreground := by
  apply h.of_jobs _ awaits_handlerReturns
  unfold Shell.handlerReturns
  split <;> rfl

/-- The handler runs to its end with at most one job in the foreground. -/
lemma Foreground.sigchldHandler (h : s.Foreground) (hb : s.Books)
    (hs : s.sigchldHandler reports = some s') : s'.Foreground := by
  apply h.handled (handled_of_sigchldHandler hb hs)
  intro p hp
  obtain ⟨-, hc | hc⟩ := sigchldHandler_control hs
  · rw [hc]
    exact hp
  · rw [hc]
    trivial

/-- Every step that does not write to a job that is gone keeps one job in the foreground. -/
lemma Foreground.step (h : s.Foreground) (hsound : s.Sound) (ha : s.control.Aims s.table.jobs)
    (hok : WritesLiveJob s e) (hs : step s e = some s') : s'.Foreground := by
  cases e with
  | command bg tok cmdline =>
    obtain ⟨hc, rfl⟩ := command_eq hs
    refine h.of_jobs rfl ?_
    intro pid hp
    rw [hc] at hp
    exact hp.elim
  | next => exact h.next ha hok hs
  | fails =>
    obtain ⟨rfl, hc⟩ := fails_eq hs
    refine h.of_jobs rfl ?_
    intro p hp
    rcases hc with ⟨_, _, hc⟩ | ⟨_, _, hc⟩ | hc
    all_goals
      rw [hc] at hp
      exact hp.elim
  | forked pid =>
    obtain ⟨bg, cmdline, hc, -, -, rfl⟩ := forked_eq hs
    refine h.of_jobs rfl ?_
    intro p hp
    rw [hc] at hp
    exact hp.elim
  | sigchld reports =>
    obtain ⟨-, -, -, t, ht, rfl⟩ := sigchld_eq hs
    have hb' : Books { s with pending := false } := hsound.books.congr (.of_eq rfl rfl rfl)
    have h' : Foreground { s with pending := false } := h.of_jobs rfl fun _ hp => hp
    exact (h'.sigchldHandler hb' ht).handlerReturns
  | interrupt sig =>
    have := interrupt_eq hs
    subst this
    exact h.handlerReturns
  | change pid c =>
    obtain ⟨status, rfl⟩ := change_eq hs
    exact h.of_jobs rfl fun _ hp => hp

lemma foreground_init : init.Foreground where
  one := fun _ _ hi _ => by cases hi
  named := fun _ hi => absurd rfl hi
  awaited := fun _ hi => by cases hi

/-- Writing the state of a job that is gone gives a state to an empty slot. -/
lemma not_oneForeground_step (ha : s.control.Aims s.table.jobs) (hok : ¬ WritesLiveJob s e)
    (hs : step s e = some s') : ¬ s'.OneForeground := by
  intro hone
  unfold WritesLiveJob at hok
  split at hok
  · next l hc =>
    push Not at hok
    obtain ⟨i, hi, hpid⟩ := hok
    rw [hc] at ha
    have hs' : s' = (s.setState i l.state).goto (.perform .resume l) := by
      rw [Shell.step, next, hc] at hs
      simp only [Shell.perform, hi, Option.some.injEq] at hs
      exact hs.symm
    have hslot : s'.table.jobs i = { s.table.jobs i with state := l.state } := by
      rw [hs']
      exact (jobs_setState s i i l.state).trans (if_pos rfl)
    apply hone.named i
    · rw [hslot]
      exact ha.1
    · rw [hslot]
      exact hpid
  · exact hok trivial

end Shell

/-- In a run there is at most one job in the foreground throughout, and no state in an empty
slot, exactly if no statement of `perform_job` writes the state of a job that is gone. -/
theorem one_foreground_iff (es : List Event) :
    Passes step OneForeground init es ↔ Meets step WritesLiveJob init es := by
  apply passes_iff_meets (I := fun s => s.Sound ∧ s.control.Aims s.table.jobs ∧ s.Foreground)
  · intro s hs
    exact hs.2.2.toOneForeground
  · intro s e s' hs hok he
    exact ⟨hs.1.step he, aims_step hs.1.books hs.2.1 he, hs.2.2.step hs.1 hs.2.1 hok he⟩
  · intro s e s' hs hok he
    exact not_oneForeground_step hs.2.1 hok he
  · exact ⟨sound_init, trivial, foreground_init⟩

/-- Two jobs in the background. `fg %2` looks up the second, which ends before its state is
written. The first ends, too, and the next job in the foreground takes its slot. -/
def lateWrite : List Event :=
  launch 2 true ++ .next :: launch 3 true ++
    [.next, .command 0 ⟨[['f', 'g'], ['%', '2']], none, none, .BUILTIN_FG⟩ [], .next, .next, .next,
      .next, .change 3 .exit, .sigchld [3], .next, .next, .next, .next, .next, .change 2 .exit,
      .sigchld [2]] ++ launch 4 false

theorem two_in_foreground : ¬ ∀ es s, after step init es = some s → s.OneForeground := by
  intro h
  have hrun : (after step init lateWrite).map (fun s =>
      ((s.table.jobs 0).state, (s.table.jobs 1).state, (s.table.jobs 1).pid)) =
        some (.FG, .FG, 0) := by decide +kernel
  obtain ⟨s, hs, hjobs⟩ := Option.map_eq_some_iff.1 hrun
  obtain ⟨h0, h1⟩ := Prod.mk.inj hjobs
  have h01 := (h lateWrite s hs).one 0 1 h0 (Prod.mk.inj h1).1
  exact absurd h01 (by decide)

/-! ## No lost wake-up -/

/-- What the main flow owes the job it waits for: `fg` tells for which processes there is a job
in the foreground. Process 0 is waited for when `perform_job` has read the pid of a slot that
was cleared before. -/
def Control.Owes (c : Control) (pending : Bool) (fg : ℤ → Prop) : Prop :=
  match c with
  | .perform .resume l | .perform .finish l => l.state = .FG → l.pid = 0 → fg 0
  | .test pid _ => pid = 0 → fg 0
  | .suspend pid _ => fg pid
  | .suspended pid _ _ => (pending = true ∨ fg pid) ∧ (pid = 0 → fg 0)
  | _ => True

namespace Shell

variable {s s' : Shell} {e : Event} {pid : ℤ} {reports : List ℤ}

/-- The process has a job in the foreground. -/
def HasFg (s : Shell) (pid : ℤ) : Prop :=
  ∃ i, (s.table.jobs i).pid = pid ∧ (s.table.jobs i).state = .FG

/-- A shell that sleeps in `sigsuspend` has SIGCHLD pending or the awaited job in the
foreground. -/
def SleepsForJob (s : Shell) : Prop :=
  ∀ pid caller saved, s.control = .suspended pid caller saved → s.pending = true ∨ s.HasFg pid

/-- No SIGCHLD that reports the awaited child is delivered between the test of the wait loop
and `sigsuspend` when `perform_job` waits. -/
def NoReportBeforeSleep (s : Shell) (e : Event) : Prop :=
  match s.control, e with
  | .suspend pid .performJob, .sigchld reports => pid ∉ reports
  | _, _ => True

/-- The job that `perform_job` is about to sleep for. -/
def suspendsFor (s : Shell) : Option ℤ :=
  match s.control with
  | .suspend pid .performJob => some pid
  | _ => none

/-- The children that a SIGCHLD reports. -/
def reportsOf : Event → List ℤ
  | .sigchld reports => reports
  | _ => []

/-- The condition, for the child that the step goes to sleep for. -/
lemma noReportBeforeSleep_iff (s : Shell) (e : Event) :
    (∀ pid ∈ s.suspendsFor, pid ∉ reportsOf e) ↔ NoReportBeforeSleep s e := by
  unfold NoReportBeforeSleep suspendsFor
  cases s.control with
  | suspend pid caller =>
    cases caller with
    | eval => simp
    | performJob => cases e <;> simp [reportsOf]
  | _ => simp

instance (s : Shell) (e : Event) : Decidable (NoReportBeforeSleep s e) :=
  decidable_of_iff _ (noReportBeforeSleep_iff s e)

/-- The main flow has what it needs to be woken up. -/
def Woken (s : Shell) : Prop := s.control.Owes s.pending s.HasFg

/-- A foreground job without a report stays one. -/
lemma hasFg_handled (hb : s.Books) (h : s.HasFg pid) (hpid : pid ∉ reports ∨ pid = 0)
    (hs : s.sigchldHandler reports = some s') : s'.HasFg pid := by
  obtain ⟨i, hi, hfg⟩ := h
  subst hi
  have hslot := sigchldHandler_slot hb hpid hs
  exact ⟨i, by rw [hslot], by rw [hslot, hfg]⟩

/-- A test of the wait loop that succeeds has found the awaited job. -/
lemma hasFg_of_fgpid (h : pid = 0 → s.HasFg 0) (hfg : fgpid s.table.jobs = pid) : s.HasFg pid := by
  rcases fgpid_spec s.table.jobs with ⟨hzero, hnone⟩ | ⟨i, hi, hpid⟩
  · obtain ⟨i, -, hi⟩ := h (hfg.symm.trans hzero)
    exact absurd hi (hnone i)
  · exact ⟨i, hpid.trans hfg, hi⟩

/-- `perform_job` waits for the job that it has brought to the foreground. -/
lemma woken_perform {l : Locals} {line : Line} (h : s.Woken) (hc : s.control = .perform line l)
    (ha : s.control.Aims s.table.jobs) : (s.perform l line).Woken := by
  unfold Woken at h
  rw [hc] at h ha
  cases line with
  | jidOfId | jobOfJid | pidOfId | jidOfPid | jobOfPid => trivial
  | testId =>
    rw [Shell.perform]
    split
    · trivial
    · rw [goto]
      split_ifs <;> trivial
  | pidOfJob =>
    rw [Shell.perform]
    split <;> trivial
  | setState =>
    rw [Shell.perform]
    split
    · trivial
    · next i hi =>
      intro hfg hzero
      -- with process 0 the job is a slot that has been cleared, and gets the state
      have hpid : (s.table.jobs i).pid = 0 := by
        rcases ha.2 i hi with hp | hp
        · rw [hp, hzero]
        · exact hp
      have hslot : ((s.setState i l.state).goto (.perform .resume l)).table.jobs i
          = { s.table.jobs i with state := l.state } :=
        (jobs_setState s i i l.state).trans (if_pos rfl)
      exact ⟨i, by rw [hslot, hpid], by rw [hslot, hfg]⟩
  | resume =>
    rw [Shell.perform]
    split <;> exact h
  | finish =>
    rw [Shell.perform, goto]
    split_ifs with hfg
    · exact h hfg
    · trivial

/-- A wait that is woken up tests again. -/
lemma woken_handlerReturns (h : s.Woken) : s.handlerReturns.Woken := by
  unfold Shell.handlerReturns
  split
  · next hc =>
    unfold Woken at h
    rw [hc] at h
    exact h.2
  · exact h

/-- The main flow goes to sleep only for a job that the test has found. -/
lemma woken_next (h : s.Woken) (ha : s.control.Aims s.table.jobs) (hs : s.next = some s') :
    s'.Woken := by
  cases hc : s.control with
  | perform line l =>
    rw [next, hc] at hs
    cases hs
    exact woken_perform h hc ha
  | addjob pid bg cmdline =>
    rw [next, hc] at hs
    dsimp only at hs
    split at hs
    · cases hs
      trivial
    · next t ht =>
      obtain ⟨hpos, -⟩ := addjob_eq_some ht
      cases hs
      cases bg with
      | true => trivial
      | false =>
        intro hzero
        omega
  | test pid caller =>
    unfold Woken at h
    rw [hc] at h
    rw [next, hc] at hs
    cases hs
    unfold Woken
    rw [goto]
    split_ifs with hfg
    · exact hasFg_of_fgpid h hfg
    · cases caller <;> trivial
  | suspend pid caller =>
    unfold Woken at h
    rw [hc] at h
    rw [next, hc] at hs
    cases hs
    refine ⟨.inr h, ?_⟩
    rintro rfl
    exact h
  | block _ _ | unblock =>
    rw [next, hc] at hs
    cases hs
    trivial
  | ready | fork _ _ | suspended _ _ _ | exited | crashed =>
    rw [next, hc] at hs
    cases hs

/-- The handler takes what is owed only where the main flow is about to sleep. -/
lemma woken_handled {t : Shell} (h : s.Woken) (hc : t.control = s.control)
    (hsleep : ∀ p caller, s.control = .suspend p caller → s.HasFg p → t.HasFg p)
    (hzero : s.HasFg 0 → t.HasFg 0) : t.handlerReturns.Woken := by
  unfold Woken at h
  cases hs : s.control with
  | suspended p caller saved =>
    rw [hs] at h
    -- the handler interrupts the sleep, and the test comes next
    have hreturns : t.handlerReturns = { t with mask := saved, control := .test p caller } := by
      rw [Shell.handlerReturns, hc, hs]
    rw [hreturns]
    intro hp
    exact hzero (h.2 hp)
  | suspend p caller =>
    rw [hs] at h
    apply woken_handlerReturns
    unfold Woken
    rw [hc, hs]
    exact hsleep p caller hs h
  | test p caller =>
    rw [hs] at h
    apply woken_handlerReturns
    unfold Woken
    rw [hc, hs]
    intro hp
    exact hzero (h hp)
  | perform line l =>
    rw [hs] at h
    apply woken_handlerReturns
    unfold Woken
    rw [hc, hs]
    cases line
    case resume | finish =>
      intro hfg hp
      exact hzero (h hfg hp)
    all_goals trivial
  | _ =>
    apply woken_handlerReturns
    unfold Woken
    rw [hc, hs]
    trivial

/-- A report that ends the wait comes while the loop tests or sleeps, not in between. -/
lemma woken_sigchld (h : s.Woken) (hsound : s.Sound) (hok : NoReportBeforeSleep s (.sigchld reports))
    (hs : step s (.sigchld reports) = some s') : s'.Woken := by
  obtain ⟨-, -, hmask, t, ht, rfl⟩ := sigchld_eq hs
  have hb' : Books { s with pending := false } := hsound.books.congr (.of_eq rfl rfl rfl)
  obtain ⟨-, hcontrol | hcontrol⟩ := sigchldHandler_control ht
  · apply woken_handled h hcontrol
    · intro p caller hc hp
      cases caller with
      | eval =>
        -- `eval` has blocked the signal
        rw [hsound.masked.blocked (by rw [hc]; rfl)] at hmask
        cases hmask
      | performJob =>
        simp only [NoReportBeforeSleep, hc] at hok
        exact hasFg_handled hb' hp (.inl hok) ht
    · intro hp
      exact hasFg_handled hb' hp (.inr rfl) ht
  · apply woken_handlerReturns
    unfold Woken
    rw [hcontrol]
    trivial

/-- More may be pending after a change of a child, and nothing else that matters differs. -/
lemma woken_change {c : Change} (h : s.Woken) (hs : step s (.change pid c) = some s') :
    s'.Woken := by
  obtain ⟨status, rfl⟩ := change_eq hs
  unfold Woken at h ⊢
  cases hc : s.control with
  | suspended pid caller saved =>
    rw [hc] at h
    refine ⟨?_, h.2⟩
    rcases h.1 with hp | hfg
    · left
      rw [hp, Bool.true_or]
    · exact .inr hfg
  | perform line l =>
    rw [hc] at h
    cases line <;> exact h
  | _ =>
    rw [hc] at h
    exact h

/-- Every step but a report in the wrong place keeps the shell from sleeping in vain. -/
lemma woken_step (h : s.Woken) (hsound : s.Sound) (ha : s.control.Aims s.table.jobs)
    (hok : NoReportBeforeSleep s e) (hs : step s e = some s') : s'.Woken := by
  cases e with
  | command bg tok cmdline =>
    obtain ⟨-, rfl⟩ := command_eq hs
    unfold Woken
    rw [goto]
    rcases evalStart_cases bg tok cmdline with hc | hc | ⟨_, -, hc⟩ | ⟨_, hc⟩
    all_goals
      rw [hc]
      trivial
  | next => exact woken_next h ha hs
  | fails =>
    obtain ⟨rfl, -⟩ := fails_eq hs
    trivial
  | forked pid =>
    obtain ⟨bg, cmdline, -, -, -, rfl⟩ := forked_eq hs
    trivial
  | sigchld reports => exact woken_sigchld h hsound hok hs
  | interrupt sig =>
    have := interrupt_eq hs
    subst this
    exact woken_handlerReturns h
  | change pid c => exact woken_change h hs

end Shell

/-- In every run in which no SIGCHLD that reports the awaited child comes between the test of
the wait loop and `sigsuspend` after `fg`, the shell never sleeps for a job that is not in the
foreground while no SIGCHLD is pending. In `eval` that SIGCHLD is blocked. -/
theorem no_lost_wakeup {s : Shell} (h : Reaches step NoReportBeforeSleep init s) :
    s.SleepsForJob := by
  have hinv : s.Sound ∧ s.control.Aims s.table.jobs ∧ s.Woken := by
    apply h.invariant ⟨sound_init, trivial, trivial⟩
    intro s e s' hs hok he
    exact ⟨hs.1.step he, aims_step hs.1.books hs.2.1 he, woken_step hs.2.2 hs.1 hs.2.1 hok he⟩
  intro pid caller saved hc
  have hw := hinv.2.2
  unfold Woken at hw
  rw [hc] at hw
  exact hw.1

/-- A job in the background and `fg %1`, up to a test of the wait loop that succeeds. -/
def fgTested : List Event :=
  launch 2 true ++ .next :: .command 0 ⟨[['f', 'g'], ['%', '1']], none, none, .BUILTIN_FG⟩ [] ::
    List.replicate 9 .next

/-- The shell sleeps until the job that `fg` waits for is reported. -/
def sleeping : Shell := (after step init (fgTested ++ [.next])).get (by decide +kernel)

theorem no_lost_wakeup_sample : sleeping.SleepsForJob := by
  have hrun : Reaches step NoReportBeforeSleep init sleeping :=
    reaches_of_after (Option.some_get _).symm
      (by decide +kernel : Meets _ _ init (fgTested ++ [.next]))
  exact no_lost_wakeup hrun

/-- The job that the shell sleeps for in `perform_job`. -/
def Control.sleepsFor : Control → Option ℤ
  | .suspended pid .performJob _ => some pid
  | _ => none

/-- Where `perform_job` sleeps. -/
lemma Control.sleepsFor_eq_some {c : Control} {pid : ℤ} (h : c.sleepsFor = some pid) :
    ∃ saved, c = .suspended pid .performJob saved := by
  cases c with
  | suspended pid' caller saved =>
    cases caller with
    | eval => cases h
    | performJob =>
      cases h
      exact ⟨saved, rfl⟩
  | _ => cases h

/-- The job ends and is reaped before the shell goes to sleep. -/
theorem lost_wakeup : ¬ ∀ es s, after step init es = some s → s.SleepsForJob := by
  intro h
  have hrun : (after step init (fgTested ++ [.change 2 .exit, .sigchld [2], .next])).map (fun s =>
      (s.control.sleepsFor, s.pending,
        decide (∃ i, (s.table.jobs i).pid = 2 ∧ (s.table.jobs i).state = .FG))) =
          some (some 2, false, false) := by decide +kernel
  obtain ⟨s, hs, hview⟩ := Option.map_eq_some_iff.1 hrun
  simp only [Prod.mk.injEq, decide_eq_false_iff_not] at hview
  obtain ⟨hc, hp, hnone⟩ := hview
  obtain ⟨saved, hc⟩ := Control.sleepsFor_eq_some hc
  rcases h _ s hs 2 .performJob saved hc with hp' | hfg
  · rw [hp] at hp'
    cases hp'
  · exact hnone hfg

end Tshlab
end SystemsLabs
