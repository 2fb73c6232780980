import SystemsLabs.Tshlab.Shell

/-!
# The job list and the children that have not been reaped

The job list names only children that have not been reaped (`Books`), because `eval` blocks
SIGCHLD from before `fork` until after `addjob`: a child that ends in between is reaped
later, when the handler can find its job. The wait loop unblocks SIGCHLD while it sleeps, but
`sigsuspend` puts the mask of the caller back before the loop goes on (`Masked`).

As long as every `addjob` succeeds, the list misses no child either.
-/

namespace SystemsLabs
namespace Tshlab

open Runs Shell

/-- Where `eval` has blocked SIGCHLD. -/
def Control.shielded : Control → Bool
  | .fork _ _ | .addjob _ _ _ | .unblock | .test _ .eval | .suspend _ .eval => true
  | _ => false

/-- `eval` has forked a child that it has not added yet. -/
def Control.adding : Control → Option ℤ
  | .addjob pid _ _ => some pid
  | _ => none

/-- `eval` sleeps in `sigsuspend`, which will restore this mask. -/
def Control.evalSleeps : Control → Option Mask
  | .suspended _ .eval saved => some saved
  | _ => none

/-- Where the main flow may be behind a statement of `perform_job`. -/
inductive Control.FollowsPerform : Control → Prop
  | perform (line : Line) (l : Locals) : FollowsPerform (.perform line l)
  | test (pid : ℤ) : FollowsPerform (.test pid .performJob)
  | ready : FollowsPerform .ready
  | crashed : FollowsPerform .crashed

namespace Control.FollowsPerform

variable {c : Control}

lemma unshielded (h : c.FollowsPerform) : c.shielded = false ∧ c.evalSleeps = none := by
  cases h <;> exact ⟨rfl, rfl⟩

lemma adding (h : c.FollowsPerform) : c.adding = none := by
  cases h <;> rfl

end Control.FollowsPerform

namespace Shell

variable {s s' : Shell} {e : Event} {pid : ℤ} {i k : Slot}

/-- The pids of the children that have not been reaped. -/
def pids (s : Shell) : List ℤ := s.children.map Child.pid

/-- Who has a status is a child. -/
lemma statusOf_eq_some {children : List Child} {status : Status}
    (h : statusOf children pid = some status) : pid ∈ children.map Child.pid := by
  obtain ⟨c, hc, -⟩ := Option.map_eq_some_iff.1 h
  have hpid : c.pid = pid := by simpa using List.find?_some hc
  rw [← hpid]
  exact List.mem_map_of_mem (List.mem_of_find?_eq_some hc)

/-- A status is set, and no child comes or goes. -/
@[simp] lemma map_pid_setStatus (children : List Child) (pid : ℤ) (status : Status) :
    (setStatus children pid status).map Child.pid = children.map Child.pid := by
  rw [setStatus, List.map_map]
  apply List.map_congr_left
  intro c _
  rw [Function.comp_apply]
  split_ifs <;> rfl

/-- Reaping takes exactly one child away. -/
lemma mem_pids_reap {q : ℤ} : q ∈ (s.reap pid).pids ↔ q ∈ s.pids ∧ q ≠ pid := by
  simp only [pids, reap, List.mem_map, List.mem_filter, decide_eq_true_eq]
  constructor
  · rintro ⟨c, ⟨hc, hne⟩, rfl⟩
    exact ⟨⟨c, hc, rfl⟩, hne⟩
  · rintro ⟨⟨c, hc, rfl⟩, hne⟩
    exact ⟨c, ⟨hc, hne⟩, rfl⟩

/-! ## Whom the job list names -/

/-- The children are distinct processes, and the job list names some of them, each once. -/
structure Books (s : Shell) : Prop where
  nodup : s.pids.Nodup
  pos : ∀ pid ∈ s.pids, 0 < pid
  wf : s.table.WellFormed
  named : ∀ i, (s.table.jobs i).pid ≠ 0 → (s.table.jobs i).pid ∈ s.pids

/-- The children and the processes and job IDs of the list are the same. -/
structure SameIds (s s' : Shell) : Prop where
  pids : s'.pids = s.pids
  pid : ∀ i, (s'.table.jobs i).pid = (s.table.jobs i).pid
  jid : ∀ i, (s'.table.jobs i).jid = (s.table.jobs i).jid
  log : s'.log = s.log

lemma SameIds.refl (s : Shell) : SameIds s s := ⟨rfl, fun _ => rfl, fun _ => rfl, rfl⟩

/-- Steps that change neither the children nor the table. -/
lemma SameIds.of_eq (hc : s'.children = s.children) (ht : s'.table = s.table)
    (hl : s'.log = s.log) : SameIds s s' :=
  ⟨congrArg (List.map Child.pid) hc, fun i => by rw [ht], fun i => by rw [ht], hl⟩

lemma SameIds.trans {s'' : Shell} (h : SameIds s s') (h' : SameIds s' s'') : SameIds s s'' :=
  ⟨h'.pids.trans h.pids, fun i => (h'.pid i).trans (h.pid i), fun i => (h'.jid i).trans (h.jid i),
    h'.log.trans h.log⟩

/-- The state is neither pid nor ID. -/
lemma sameIds_setState (s : Shell) (i : Slot) (state : JobState) :
    SameIds s (s.setState i state) where
  pids := rfl
  pid := by
    intro k
    rw [jobs_setState]
    split_ifs with hk
    · rw [hk]
    · rfl
  jid := by
    intro k
    rw [jobs_setState]
    split_ifs with hk
    · rw [hk]
    · rfl
  log := rfl

/-- A report of a stop changes a status only. -/
lemma sameIds_reported (s : Shell) (pid : ℤ) : SameIds s (s.reported pid) where
  pids := map_pid_setStatus _ _ _
  pid := fun _ => rfl
  jid := fun _ => rfl
  log := rfl

/-- The books are about pids only. -/
lemma Books.congr (h : s.Books) (hs : SameIds s s') : s'.Books where
  nodup := by
    rw [hs.pids]
    exact h.nodup
  pos := by
    rw [hs.pids]
    exact h.pos
  wf :=
    { distinct := fun i k hi hk =>
        h.wf.distinct i k (by rwa [← hs.pid]) (by rwa [← hs.pid, ← hs.pid k])
      nonneg := fun i => by
        rw [hs.pid]
        exact h.wf.nonneg i
      empty := fun i hi => by
        rw [hs.jid]
        exact h.wf.empty i (by rwa [← hs.pid]) }
  named := by
    intro i hi
    rw [hs.pid] at hi ⊢
    rw [hs.pids]
    exact h.named i hi

/-- Reaping a child clears its slot and no other. -/
lemma Books.jobs_reap (h : s.Books) (hpid : 0 < pid) (k : Slot) :
    (s.reap pid).table.jobs k =
      if (s.table.jobs k).pid = pid then clearjob else s.table.jobs k := by
  unfold reap
  cases hdel : deletejob s.table pid with
  | none => rw [Option.getD_none, if_neg (deletejob_eq_none hpid hdel k)]
  | some t =>
    obtain ⟨-, i, hi, ht⟩ := deletejob_eq_some hdel
    rw [Option.getD_some, ht, Function.update_apply]
    by_cases hk : k = i
    · rw [if_pos hk, hk, if_pos hi]
    · rw [if_neg hk, if_neg]
      intro hkp
      exact hk (h.wf.distinct k i (by omega) (hkp.trans hi.symm))

/-- With the child its job goes, so the list names nobody who has been reaped. -/
lemma Books.reap (h : s.Books) (hpid : pid ∈ s.pids) : (s.reap pid).Books where
  nodup := by
    have hsub : ((s.reap pid).pids).Sublist s.pids := (List.filter_sublist).map _
    exact h.nodup.sublist hsub
  pos := by
    intro q hq
    exact h.pos q (mem_pids_reap.1 hq).1
  wf := by
    unfold Shell.reap
    cases hdel : deletejob s.table pid with
    | none => exact h.wf
    | some t =>
      obtain ⟨-, i, -, ht⟩ := deletejob_eq_some hdel
      exact h.wf.clear ht
  named := by
    intro i hi
    rw [h.jobs_reap (h.pos pid hpid)] at hi ⊢
    split_ifs at hi ⊢ with hp
    · exact absurd rfl hi
    · exact mem_pids_reap.2 ⟨h.named i hi, hp⟩

/-! ## The handler -/

/-- What one report of `waitpid` keeps, the handler keeps. -/
theorem sigchldHandler_keeps {J : Shell → Prop} {reports : List ℤ}
    (hreap : ∀ s, ∀ pid ∈ reports, J s → pid ∈ s.pids → J (s.reap pid))
    (hstop : ∀ s, ∀ pid ∈ reports, ∀ i, J s → getjobpid s.table.jobs pid = some i →
      J ((s.reported pid).setState i .ST))
    (hcrash : ∀ s, ∀ pid ∈ reports, J s → pid ∈ s.pids → getjobpid s.table.jobs pid = none →
      J ((s.reported pid).goto .crashed))
    (hs : J s) (h : s.sigchldHandler reports = some s') : J s' := by
  induction reports generalizing s with
  | nil =>
    rw [sigchldHandler] at h
    split_ifs at h
    cases h
    exact hs
  | cons pid reports ih =>
    have hmem : pid ∈ pid :: reports := List.mem_cons_self
    have hrest : ∀ {t}, J t → t.sigchldHandler reports = some s' → J s' :=
      ih (fun s q hq => hreap s q (List.mem_cons_of_mem _ hq))
        (fun s q hq => hstop s q (List.mem_cons_of_mem _ hq))
        (fun s q hq => hcrash s q (List.mem_cons_of_mem _ hq))
    rw [Shell.sigchldHandler] at h
    cases hst : statusOf s.children pid with
    | none =>
      rw [hst] at h
      cases h
    | some status =>
      have hpid : pid ∈ s.pids := statusOf_eq_some hst
      rw [hst] at h
      cases status with
      | running => cases h
      | exited => exact hrest (hreap s pid hmem hs hpid) h
      | signaled => exact hrest (hreap s pid hmem hs hpid) h
      | stopped reported =>
        cases reported with
        | true => cases h
        | false =>
          -- the handler writes through the pointer that the lookup returns
          dsimp only at h
          cases hjob : getjobpid s.table.jobs pid with
          | some i =>
            rw [hjob] at h
            exact hrest (hstop s pid hmem i hs hjob) h
          | none =>
            rw [hjob] at h
            dsimp only at h
            split_ifs at h
            cases h
            exact hcrash s pid hmem hs hpid hjob

/-- The handler reaps and reports, one child after the other. -/
lemma Books.sigchldHandler {reports : List ℤ} (h : s.Books)
    (hs : s.sigchldHandler reports = some s') : s'.Books := by
  apply sigchldHandler_keeps (J := Books) _ _ _ h hs
  · intro s pid _ hb hpid
    exact hb.reap hpid
  · intro s pid _ i hb _
    exact hb.congr ((sameIds_reported s pid).trans (sameIds_setState _ i .ST))
  · intro s pid _ hb _ _
    exact hb.congr ((sameIds_reported s pid).trans (SameIds.of_eq rfl rfl rfl))

/-- The handler changes neither the mask nor where the main flow is, unless the shell crashes. -/
lemma sigchldHandler_control {reports : List ℤ} (h : s.sigchldHandler reports = some s') :
    s'.mask = s.mask ∧ (s'.control = s.control ∨ s'.control = .crashed) := by
  apply sigchldHandler_keeps
    (J := fun t => t.mask = s.mask ∧ (t.control = s.control ∨ t.control = .crashed)) _ _ _ _ h
  · intro t pid _ ht _
    exact ht
  · intro t pid _ i ht _
    exact ht
  · intro t pid _ ht _ _
    exact ⟨ht.1, .inr rfl⟩
  · exact ⟨rfl, .inl rfl⟩

/-! ## The mask -/

/-- SIGCHLD is blocked in `eval` from before `fork`, but while `sigsuspend` sleeps, and then
`sigsuspend` will block it again. -/
structure Masked (s : Shell) : Prop where
  blocked : s.control.shielded = true → s.mask .SIGCHLD = true
  saved : ∀ m, s.control.evalSleeps = some m → m .SIGCHLD = true

/-- Outside `eval` there is nothing to show. -/
lemma Masked.of_unshielded (h : s.control.shielded = false) (h' : s.control.evalSleeps = none) :
    s.Masked where
  blocked := by
    intro hs
    rw [h] at hs
    cases hs
  saved := by
    intro m hm
    rw [h'] at hm
    cases hm

/-- Where a command line leads to. -/
lemma evalStart_cases (bg : ℤ) (tok : Tok) (cmdline : List Char) :
    evalStart bg tok cmdline = .ready ∨ evalStart bg tok cmdline = .exited ∨
      (∃ state, state ≠ .UNDEF ∧
        evalStart bg tok cmdline = .perform .testId ⟨tok.argv[1]?, state, 0, 0, none⟩) ∨
      ∃ b, evalStart bg tok cmdline = .block b cmdline := by
  unfold evalStart
  split_ifs
  · exact .inl rfl
  · split
    · exact .inl rfl
    · split
      · exact .inr (.inl rfl)
      · exact .inl rfl
      · exact .inr (.inr (.inl ⟨.BG, by simp, rfl⟩))
      · exact .inr (.inr (.inl ⟨.FG, by simp, rfl⟩))
      · exact .inr (.inr (.inr ⟨_, rfl⟩))

/-- `eval` begins with the signals as they are. -/
lemma unshielded_evalStart (bg : ℤ) (tok : Tok) (cmdline : List Char) :
    (evalStart bg tok cmdline).shielded = false ∧
      (evalStart bg tok cmdline).evalSleeps = none := by
  rcases evalStart_cases bg tok cmdline with h | h | ⟨_, -, h⟩ | ⟨_, h⟩
  all_goals
    rw [h]
    exact ⟨rfl, rfl⟩

lemma adding_evalStart (bg : ℤ) (tok : Tok) (cmdline : List Char) :
    (evalStart bg tok cmdline).adding = none := by
  rcases evalStart_cases bg tok cmdline with h | h | ⟨_, -, h⟩ | ⟨_, h⟩
  all_goals
    rw [h]
    rfl

/-- A statement of `perform_job` stays within it, or comes to its wait or its end, and leaves the
mask alone. -/
lemma control_perform (s : Shell) (l : Locals) (line : Line) :
    (s.perform l line).control.FollowsPerform ∧ (s.perform l line).mask = s.mask := by
  cases line with
  | jidOfId | jobOfJid | pidOfId | jidOfPid | jobOfPid => exact ⟨.perform _ _, rfl⟩
  | testId | pidOfJob | setState =>
    rw [perform]
    split
    · exact ⟨.crashed, rfl⟩
    · exact ⟨.perform _ _, rfl⟩
  | resume =>
    rw [perform]
    split <;> exact ⟨.perform _ _, rfl⟩
  | finish =>
    rw [perform, goto]
    split_ifs
    · exact ⟨.test _, rfl⟩
    · exact ⟨.ready, rfl⟩

/-- A command is taken at the prompt only. -/
lemma command_eq {bg : ℤ} {tok : Tok} {cmdline : List Char}
    (h : step s (.command bg tok cmdline) = some s') :
    s.control = .ready ∧ s' = s.goto (evalStart bg tok cmdline) := by
  rw [step] at h
  split at h
  · next hc =>
    cases h
    exact ⟨hc, rfl⟩
  · cases h

/-- What a successful `fork` leaves: a child that is not in the list yet. -/
lemma forked_eq (h : step s (.forked pid) = some s') :
    ∃ bg cmdline, s.control = .fork bg cmdline ∧ 0 < pid ∧ pid ∉ s.pids ∧
      s' = { s with children := ⟨pid, .running⟩ :: s.children, control := .addjob pid bg cmdline } := by
  rw [step, forked] at h
  split at h
  · next bg cmdline hc =>
    split_ifs at h with hpid
    cases h
    exact ⟨bg, cmdline, hc, hpid.1, hpid.2, rfl⟩
  · cases h

/-- Where a system call can fail, and that `eval` returns from there. -/
lemma fails_eq (h : step s .fails = some s') :
    s' = s.goto .ready ∧ ((∃ bg cmdline, s.control = .block bg cmdline) ∨
      (∃ bg cmdline, s.control = .fork bg cmdline) ∨ s.control = .unblock) := by
  rw [step, fails] at h
  split at h
  · next bg cmdline hc =>
    cases h
    exact ⟨rfl, .inl ⟨bg, cmdline, hc⟩⟩
  · next bg cmdline hc =>
    cases h
    exact ⟨rfl, .inr (.inl ⟨bg, cmdline, hc⟩)⟩
  · next hc =>
    cases h
    exact ⟨rfl, .inr (.inr hc)⟩
  · cases h

/-- The handler runs where SIGCHLD is pending and not blocked, to its end. -/
lemma sigchld_eq {reports : List ℤ} (h : step s (.sigchld reports) = some s') :
    s.alive = true ∧ s.pending = true ∧ s.mask .SIGCHLD = false ∧
      ∃ t, sigchldHandler { s with pending := false } reports = some t ∧ s' = t.handlerReturns := by
  rw [step, sigchld] at h
  split_ifs at h with hc
  obtain ⟨t, ht, rfl⟩ := Option.map_eq_some_iff.1 h
  exact ⟨hc.1, hc.2.1, hc.2.2, t, ht, rfl⟩

/-- The other two handlers do no more than to wake up `sigsuspend`. -/
lemma interrupt_eq {sig : Signal} (h : step s (.interrupt sig) = some s') :
    s' = s.handlerReturns := by
  rw [step, interrupt] at h
  split_ifs at h
  cases h
  rfl

/-- A change is a new status for one child, and perhaps a SIGCHLD. -/
lemma change_eq {c : Change} (h : step s (.change pid c) = some s') :
    ∃ status, s' = { s with
      children := setStatus s.children pid status, pending := s.pending || c.notifies } := by
  rw [step, change] at h
  obtain ⟨old, -, h⟩ := Option.bind_eq_some_iff.1 h
  obtain ⟨status, -, rfl⟩ := Option.map_eq_some_iff.1 h
  exact ⟨status, rfl⟩

/-- `sigsuspend` puts back the mask with which it was called. -/
lemma Masked.handlerReturns (h : s.Masked) : s.handlerReturns.Masked := by
  unfold Shell.handlerReturns
  split
  · next pid caller saved hc =>
    constructor
    · intro hs
      cases caller with
      | eval => exact h.saved saved (by rw [hc]; rfl)
      | performJob => cases hs
    · intro m hm
      cases hm
  · exact h

/-- Every statement of `eval` between `fork` and the end has SIGCHLD blocked. -/
lemma Masked.next (h : s.Masked) (hs : s.next = some s') : s'.Masked := by
  cases hc : s.control with
  | block bg cmdline =>
    rw [Shell.next, hc] at hs
    cases hs
    constructor
    · intro _
      exact Bool.or_true _
    · intro m hm
      cases hm
  | addjob pid bg cmdline =>
    have hb := h.blocked (by rw [hc]; rfl)
    rw [Shell.next, hc] at hs
    dsimp only at hs
    split at hs
    · cases hs
      exact .of_unshielded rfl rfl
    · cases hs
      constructor
      · intro _
        exact hb
      · intro m hm
        cases bg <;> cases hm
  | unblock =>
    rw [Shell.next, hc] at hs
    cases hs
    exact .of_unshielded rfl rfl
  | perform line l =>
    rw [Shell.next, hc] at hs
    cases hs
    obtain ⟨h₁, h₂⟩ := (control_perform s l line).1.unshielded
    exact .of_unshielded h₁ h₂
  | test pid caller =>
    have hb := h.blocked
    rw [hc] at hb
    rw [Shell.next, hc] at hs
    cases hs
    constructor
    · intro hsh
      apply hb
      cases caller with
      | eval => rfl
      | performJob =>
        rw [goto] at hsh
        split_ifs at hsh <;> cases hsh
    · intro m hm
      rw [goto] at hm
      cases caller <;> split_ifs at hm <;> cases hm
  | suspend pid caller =>
    have hb := h.blocked
    rw [hc] at hb
    rw [Shell.next, hc] at hs
    cases hs
    constructor
    · intro hsh
      cases hsh
    · intro m hm
      -- the mask that `sigsuspend` saves is the one that `eval` has set
      cases caller with
      | eval =>
        cases hm
        exact hb rfl
      | performJob => cases hm
  | ready | fork _ _ | suspended _ _ _ | exited | crashed =>
    rw [Shell.next, hc] at hs
    cases hs

/-- Every step keeps SIGCHLD blocked where `eval` relies on it. -/
lemma Masked.step (h : s.Masked) (hs : step s e = some s') : s'.Masked := by
  cases e with
  | command bg tok cmdline =>
    obtain ⟨-, rfl⟩ := command_eq hs
    obtain ⟨h₁, h₂⟩ := unshielded_evalStart bg tok cmdline
    exact .of_unshielded h₁ h₂
  | next => exact h.next hs
  | fails =>
    rw [(fails_eq hs).1]
    exact .of_unshielded rfl rfl
  | forked pid =>
    obtain ⟨bg, cmdline, hc, -, -, rfl⟩ := forked_eq hs
    constructor
    · intro _
      exact h.blocked (by rw [hc]; rfl)
    · intro m hm
      cases hm
  | sigchld reports =>
    obtain ⟨-, -, -, t, ht, rfl⟩ := sigchld_eq hs
    apply Masked.handlerReturns
    obtain ⟨hmask, hcontrol | hcontrol⟩ := sigchldHandler_control ht
    · constructor
      · rw [hmask, hcontrol]
        exact h.blocked
      · rw [hcontrol]
        exact h.saved
    · exact .of_unshielded (by rw [hcontrol]; rfl) (by rw [hcontrol]; rfl)
  | interrupt sig =>
    rw [interrupt_eq hs]
    exact h.handlerReturns
  | change pid c =>
    obtain ⟨status, rfl⟩ := change_eq hs
    exact ⟨h.blocked, h.saved⟩

/-! ## Every run -/

/-- `perform_job` changes states, never pids or IDs. -/
lemma SameIds.perform (s : Shell) (l : Locals) (line : Line) : SameIds s (s.perform l line) := by
  cases line with
  | jidOfId | jobOfJid | pidOfId | jidOfPid | jobOfPid | finish => exact .of_eq rfl rfl rfl
  | testId | pidOfJob =>
    rw [Shell.perform]
    split <;> exact .of_eq rfl rfl rfl
  | setState =>
    rw [Shell.perform]
    split
    · exact .of_eq rfl rfl rfl
    · exact (sameIds_setState s _ _).trans (.of_eq rfl rfl rfl)
  | resume =>
    rw [Shell.perform]
    split
    · exact ⟨map_pid_setStatus _ _ _, fun _ => rfl, fun _ => rfl, rfl⟩
    · exact .of_eq rfl rfl rfl

/-- The next statement is no `addjob` that fails. -/
def AddjobSucceeds (s : Shell) (e : Event) : Prop :=
  match s.control, e with
  | .addjob pid bg cmdline, .next =>
    (addjob s.table pid (if bg then .BG else .FG) cmdline).isSome = true
  | _, _ => True

instance (s : Shell) (e : Event) : Decidable (AddjobSucceeds s e) := by
  unfold AddjobSucceeds
  split <;> infer_instance

/-- A statement of the main flow adds a job, or leaves the pids and job IDs alone. -/
lemma next_cases (h : s.next = some s') :
    s'.control.adding = none ∧
      (SameIds s s' ∧ (AddjobSucceeds s .next → s.control.adding = none) ∨ ∃ pid bg cmdline t,
        s.control = .addjob pid bg cmdline ∧
        addjob s.table pid (if bg then .BG else .FG) cmdline = some t ∧
        s' = { s with
          table := t
          log := .addjob pid :: s.log
          control := if bg then .unblock else .test pid .eval }) := by
  cases hc : s.control with
  | addjob pid bg cmdline =>
    rw [Shell.next, hc] at h
    dsimp only at h
    split at h
    · next hnone =>
      cases h
      refine ⟨rfl, .inl ⟨.of_eq rfl rfl rfl, ?_⟩⟩
      intro hok
      simp only [AddjobSucceeds, hc, hnone, Option.isSome_none] at hok
      cases hok
    · next t ht =>
      cases h
      refine ⟨?_, .inr ⟨pid, bg, cmdline, t, rfl, ht, rfl⟩⟩
      cases bg <;> rfl
  | perform line l =>
    rw [Shell.next, hc] at h
    cases h
    exact ⟨(control_perform s l line).1.adding, .inl ⟨.perform s l line, fun _ => rfl⟩⟩
  | block _ _ | unblock | suspend _ _ =>
    rw [Shell.next, hc] at h
    cases h
    exact ⟨rfl, .inl ⟨.of_eq rfl rfl rfl, fun _ => rfl⟩⟩
  | test pid caller =>
    rw [Shell.next, hc] at h
    cases h
    refine ⟨?_, .inl ⟨.of_eq rfl rfl rfl, fun _ => rfl⟩⟩
    rw [goto]
    cases caller <;> split_ifs <;> rfl
  | ready | fork _ _ | suspended _ _ _ | exited | crashed =>
    rw [Shell.next, hc] at h
    cases h

/-- What holds in every run: of the children that the list does not name, one may be about to
be added. -/
structure Sound (s : Shell) : Prop where
  books : s.Books
  masked : s.Masked
  fresh : ∀ pid, s.control.adding = some pid → pid ∈ s.pids ∧ ∀ i, (s.table.jobs i).pid ≠ pid

/-- Without children there is nothing to keep. -/
lemma sound_init : init.Sound where
  books :=
    { nodup := List.nodup_nil
      pos := fun _ h => absurd h List.not_mem_nil
      wf := Table.wellFormed_init
      named := fun _ h => absurd rfl h }
  masked := .of_unshielded rfl rfl
  fresh := fun _ h => by cases h

/-- A step that changes no pid can only spoil the mask and the child that is being added. -/
lemma Sound.of_sameIds (h : s.Sound) (hm : s'.Masked) (hs : SameIds s s')
    (hc : s'.control.adding = none ∨ s'.control = s.control) : s'.Sound where
  books := h.books.congr hs
  masked := hm
  fresh := by
    intro pid hpid
    rcases hc with hc | hc
    · rw [hc] at hpid
      cases hpid
    · rw [hc] at hpid
      obtain ⟨hmem, hnone⟩ := h.fresh pid hpid
      rw [hs.pids]
      exact ⟨hmem, fun i => by rw [hs.pid]; exact hnone i⟩

/-- A job is added for the child that has just been forked. -/
lemma Books.add {t : Table} {state : JobState} {cmdline : List Char} (h : s.Books)
    (hmem : pid ∈ s.pids) (hnone : ∀ i, (s.table.jobs i).pid ≠ pid)
    (ht : Tshlab.addjob s.table pid state cmdline = some t) (hp : s'.pids = s.pids)
    (hs : s'.table = t) : s'.Books := by
  obtain ⟨hpid, i, -, hjobs⟩ := addjob_eq_some ht
  have hjobs' : s'.table.jobs
      = Function.update s.table.jobs i ⟨pid, s.table.nextjid, state, cmdline⟩ := by rw [hs, hjobs]
  constructor
  · rw [hp]
    exact h.nodup
  · rw [hp]
    exact h.pos
  · exact h.wf.fill hnone hpid hjobs'
  · intro k hk
    rw [hp]
    rw [hjobs', Function.update_apply] at hk ⊢
    split_ifs at hk ⊢
    · exact hmem
    · exact h.named k hk

/-- A handler never returns into the middle of `addjob`. -/
lemma adding_handlerReturns (s : Shell) :
    s.handlerReturns.control.adding = none ∨ s.handlerReturns.control = s.control := by
  unfold Shell.handlerReturns
  split
  · exact .inl rfl
  · exact .inr rfl

/-- Waking up changes the mask and the statement. -/
lemma sameIds_handlerReturns (s : Shell) : SameIds s s.handlerReturns := by
  unfold Shell.handlerReturns
  split <;> exact .of_eq rfl rfl rfl

/-- SIGCHLD is blocked while a child waits to be added. -/
lemma Masked.adding (h : s.Masked) (hmask : s.mask .SIGCHLD = false) : s.control.adding = none := by
  cases hc : s.control with
  | addjob _ _ _ =>
    have := h.blocked (by rw [hc]; rfl)
    rw [this] at hmask
    cases hmask
  | _ => rfl

/-- Behind the handler no child is being added, if none was before. -/
lemma adding_handled {reports : List ℤ}
    (h : sigchldHandler { s with pending := false } reports = some s')
    (hadd : s.control.adding = none) : s'.handlerReturns.control.adding = none := by
  rcases adding_handlerReturns s' with hr | hr
  · exact hr
  · rw [hr]
    obtain ⟨-, hc | hc⟩ := sigchldHandler_control h
    · rw [hc]
      exact hadd
    · rw [hc]
      rfl

/-- Every step keeps what the program relies on. -/
lemma Sound.step (h : s.Sound) (hs : step s e = some s') : s'.Sound := by
  have hm := h.masked.step hs
  cases e with
  | command bg tok cmdline =>
    obtain ⟨-, rfl⟩ := command_eq hs
    exact h.of_sameIds hm (.of_eq rfl rfl rfl) (.inl (adding_evalStart bg tok cmdline))
  | next =>
    obtain ⟨hadd, ⟨hids, -⟩ | ⟨pid, bg, cmdline, t, hc, ht, rfl⟩⟩ := next_cases hs
    · exact h.of_sameIds hm hids (.inl hadd)
    · obtain ⟨hmem, hnone⟩ := h.fresh pid (by rw [hc]; rfl)
      refine ⟨h.books.add hmem hnone ht rfl rfl, hm, ?_⟩
      intro q hq
      rw [hadd] at hq
      cases hq
  | fails =>
    obtain ⟨rfl, -⟩ := fails_eq hs
    exact h.of_sameIds hm (.of_eq rfl rfl rfl) (.inl rfl)
  | forked pid =>
    obtain ⟨bg, cmdline, -, hpos, hnew, rfl⟩ := forked_eq hs
    have hb := h.books
    refine ⟨⟨?_, ?_, hb.wf, ?_⟩, hm, ?_⟩
    · exact List.nodup_cons.2 ⟨hnew, hb.nodup⟩
    · intro q hq
      rcases List.mem_cons.1 hq with rfl | hq
      · exact hpos
      · exact hb.pos q hq
    · intro i hi
      exact List.mem_cons_of_mem _ (hb.named i hi)
    · -- the list names old children only, and the new one is none of them
      intro q hq
      cases hq
      refine ⟨List.mem_cons_self, ?_⟩
      intro i hi
      have hi' : (s.table.jobs i).pid = pid := hi
      apply hnew
      rw [← hi']
      apply hb.named
      omega
  | sigchld reports =>
    obtain ⟨-, -, hmask, t, ht, rfl⟩ := sigchld_eq hs
    have hbooks : t.Books := by
      apply Books.sigchldHandler (s := { s with pending := false }) _ ht
      exact h.books.congr (.of_eq rfl rfl rfl)
    refine ⟨hbooks.congr (sameIds_handlerReturns t), hm, ?_⟩
    intro q hq
    rw [adding_handled ht (h.masked.adding hmask)] at hq
    cases hq
  | interrupt sig =>
    have := interrupt_eq hs
    subst this
    exact h.of_sameIds hm (sameIds_handlerReturns s) (adding_handlerReturns s)
  | change pid c =>
    obtain ⟨status, rfl⟩ := change_eq hs
    exact h.of_sameIds hm ⟨map_pid_setStatus _ _ _, fun _ => rfl, fun _ => rfl, rfl⟩ (.inr rfl)

/-! ## Runs in which every job finds a slot -/

/-- Every `deletejob` comes after an `addjob` of the same process that no earlier one has met.
The latest call is the first of the list. -/
def DeletesFollowAdds : List LogEntry → Prop
  | [] => True
  | .addjob _ :: log => DeletesFollowAdds log
  | .deletejob pid :: log =>
    log.count (.deletejob pid) < log.count (.addjob pid) ∧ DeletesFollowAdds log

/-- The job list has exactly the children that have not been reaped, each in one slot. -/
structure Tracks (s : Shell) : Prop where
  named : ∀ i, (s.table.jobs i).pid ≠ 0 → ∃ c ∈ s.children, c.pid = (s.table.jobs i).pid
  listed : ∀ c ∈ s.children, ∃! i, (s.table.jobs i).pid ≠ 0 ∧ (s.table.jobs i).pid = c.pid

/-- The job list has a slot for the process. -/
def Lists (s : Shell) (pid : ℤ) : Prop := ∃ i, (s.table.jobs i).pid = pid

instance (s : Shell) (pid : ℤ) : Decidable (s.Lists pid) := by
  unfold Lists
  infer_instance

/-- The log agrees with the list: what was added and not deleted is there. -/
structure Logged (s : Shell) : Prop where
  count : ∀ pid, 0 < pid →
    s.log.count (.addjob pid) = s.log.count (.deletejob pid) + if s.Lists pid then 1 else 0
  ordered : DeletesFollowAdds s.log

/-- Whom the list names depends on the pids. -/
lemma lists_congr (h : ∀ i, (s'.table.jobs i).pid = (s.table.jobs i).pid) :
    s'.Lists pid ↔ s.Lists pid := by
  unfold Lists
  simp only [h]

/-- The log is compared with the pids in the list. -/
lemma Logged.congr (h : s.Logged) (hp : ∀ i, (s'.table.jobs i).pid = (s.table.jobs i).pid)
    (hl : s'.log = s.log) : s'.Logged where
  count := by
    intro pid hpid
    rw [hl, h.count pid hpid]
    simp only [lists_congr hp]
  ordered := by
    rw [hl]
    exact h.ordered

/-- The list loses the child that is reaped and nobody else. -/
lemma Books.lists_reap {q : ℤ} (h : s.Books) (hpid : 0 < pid) (hq : 0 < q) :
    (s.reap pid).Lists q ↔ s.Lists q ∧ q ≠ pid := by
  constructor
  · rintro ⟨i, hi⟩
    rw [h.jobs_reap hpid] at hi
    split_ifs at hi with hp
    · have : (clearjob).pid = 0 := rfl
      omega
    · exact ⟨⟨i, hi⟩, fun h => hp (hi.trans h)⟩
  · rintro ⟨⟨i, hi⟩, hne⟩
    refine ⟨i, ?_⟩
    rw [h.jobs_reap hpid, if_neg (by omega), hi]

/-- A child that the list names is reaped. -/
lemma Logged.reap (h : s.Logged) (hb : s.Books) (hpid : 0 < pid) (hl : s.Lists pid) :
    (s.reap pid).Logged := by
  have hcount := h.count pid hpid
  rw [if_pos hl] at hcount
  constructor
  · intro q hq
    have hlog : (s.reap pid).log = .deletejob pid :: s.log := rfl
    rw [hlog, List.count_cons_of_ne (by simp)]
    by_cases hqp : q = pid
    · rw [hqp, List.count_cons_self, hcount, if_neg]
      intro hq'
      exact ((hb.lists_reap hpid hpid).1 hq').2 rfl
    · rw [List.count_cons_of_ne (by simpa using Ne.symm hqp), h.count q hq]
      simp only [hb.lists_reap hpid hq, hqp, ne_eq, not_false_eq_true, and_true]
  · exact ⟨by omega, h.ordered⟩

/-- A job is added. -/
lemma Logged.add {t : Table} {state : JobState} {cmdline : List Char} (h : s.Logged)
    (hnone : ¬ s.Lists pid) (ht : Tshlab.addjob s.table pid state cmdline = some t)
    (hl : s'.log = .addjob pid :: s.log) (hs : s'.table = t) : s'.Logged := by
  obtain ⟨-, i, hi, hjobs⟩ := addjob_eq_some ht
  have hlists : ∀ q, 0 < q → (s'.Lists q ↔ s.Lists q ∨ q = pid) := by
    intro q hq
    unfold Lists
    rw [hs, hjobs]
    constructor
    · rintro ⟨k, hk⟩
      rw [Function.update_apply] at hk
      split_ifs at hk
      · exact .inr hk.symm
      · exact .inl ⟨k, hk⟩
    · rintro (⟨k, hk⟩ | rfl)
      · refine ⟨k, ?_⟩
        rw [Function.update_of_ne (by rintro rfl; omega), hk]
      · exact ⟨i, by rw [Function.update_self]⟩
  constructor
  · intro q hq
    have hdel : (LogEntry.addjob pid :: s.log).count (.deletejob q) = s.log.count (.deletejob q) :=
      List.count_cons_of_ne (by simp)
    rw [hl, hdel]
    by_cases hqp : q = pid
    · subst hqp
      have hold := h.count q hq
      rw [if_neg hnone] at hold
      rw [List.count_cons_self, hold, if_pos ((hlists q hq).2 (.inr rfl))]
    · rw [List.count_cons_of_ne (by simpa using Ne.symm hqp), h.count q hq]
      simp only [hlists q hq, hqp, or_false]
  · rw [hl]
    exact h.ordered

/-- While every `addjob` succeeds the list misses no child but the one about to be added. -/
structure Complete (s : Shell) : Prop where
  listed : ∀ pid ∈ s.pids, s.control.adding ≠ some pid → s.Lists pid
  logged : s.Logged

/-- A step that keeps the pids keeps the list complete. -/
lemma Complete.of_sameIds (h : s.Complete) (hs : SameIds s s')
    (hc : s'.control.adding = s.control.adding) : s'.Complete where
  listed := by
    intro pid hpid hadd
    rw [lists_congr hs.pid]
    rw [hs.pids] at hpid
    rw [hc] at hadd
    exact h.listed pid hpid hadd
  logged := h.logged.congr hs.pid hs.log

/-- The handler finds the job of every child that it reaps. -/
lemma Complete.sigchldHandler {reports : List ℤ} (h : s.Complete) (hb : s.Books)
    (hadd : s.control.adding = none) (hs : s.sigchldHandler reports = some s') :
    s'.Logged ∧ ∀ pid ∈ s'.pids, s'.Lists pid := by
  have hkept := sigchldHandler_keeps
    (J := fun t => t.Books ∧ t.Logged ∧ ∀ pid ∈ t.pids, t.Lists pid) ?_ ?_ ?_ ?_ hs
  · exact hkept.2
  · rintro t pid - ⟨hb, hl, hall⟩ hpid
    have hpos := hb.pos pid hpid
    refine ⟨hb.reap hpid, hl.reap hb hpos (hall pid hpid), ?_⟩
    intro q hq
    obtain ⟨hq, hne⟩ := mem_pids_reap.1 hq
    exact (hb.lists_reap hpos (hb.pos q hq)).2 ⟨hall q hq, hne⟩
  · rintro t pid - i ⟨hb, hl, hall⟩ -
    have hids := (sameIds_reported t pid).trans (sameIds_setState _ i .ST)
    refine ⟨hb.congr hids, hl.congr hids.pid hids.log, ?_⟩
    intro q hq
    rw [hids.pids] at hq
    exact (lists_congr hids.pid).2 (hall q hq)
  · rintro t pid - ⟨hb, -, hall⟩ hpid hnone
    obtain ⟨i, hi⟩ := hall pid hpid
    exact absurd hi ((getjobpid_eq_none (hb.pos pid hpid)).1 hnone i)
  · refine ⟨hb, h.logged, ?_⟩
    intro pid hpid
    exact h.listed pid hpid (by rw [hadd]; simp)

/-- With `addjob` succeeding, a child is missing from the list only while it is being added. -/
lemma Complete.step (h : s.Complete) (hsound : s.Sound) (hok : AddjobSucceeds s e)
    (hs : step s e = some s') : s'.Complete := by
  cases e with
  | command bg tok cmdline =>
    obtain ⟨hc, rfl⟩ := command_eq hs
    refine h.of_sameIds (.of_eq rfl rfl rfl) ?_
    rw [hc]
    exact adding_evalStart bg tok cmdline
  | next =>
    obtain ⟨hadd, ⟨hids, hnone⟩ | ⟨pid, bg, cmdline, t, hc, ht, rfl⟩⟩ := next_cases hs
    · exact h.of_sameIds hids (hadd.trans (hnone hok).symm)
    · obtain ⟨hmem, hnone⟩ := hsound.fresh pid (by rw [hc]; rfl)
      -- the child that is being added is listed from now on
      have hlists : ¬ s.Lists pid := by
        rintro ⟨i, hi⟩
        exact hnone i hi
      refine ⟨?_, h.logged.add hlists ht rfl rfl⟩
      obtain ⟨-, i, hi, hjobs⟩ := addjob_eq_some ht
      intro q hq _
      by_cases hqp : q = pid
      · exact ⟨i, by rw [hjobs, Function.update_self, hqp]⟩
      · obtain ⟨k, hk⟩ := h.listed q hq (by rw [hc]; simpa [Control.adding] using Ne.symm hqp)
        refine ⟨k, ?_⟩
        have hpos := hsound.books.pos q hq
        rw [hjobs, Function.update_of_ne (by rintro rfl; omega), hk]
  | fails =>
    obtain ⟨rfl, hc⟩ := fails_eq hs
    refine h.of_sameIds (.of_eq rfl rfl rfl) ?_
    rcases hc with ⟨_, _, hc⟩ | ⟨_, _, hc⟩ | hc
    all_goals
      rw [hc]
      rfl
  | forked pid =>
    obtain ⟨bg, cmdline, hc, -, -, rfl⟩ := forked_eq hs
    refine ⟨?_, h.logged.congr (fun _ => rfl) rfl⟩
    intro q hq hadd
    rcases List.mem_cons.1 hq with rfl | hq
    · exact absurd rfl hadd
    · exact h.listed q hq (by rw [hc]; simp [Control.adding])
  | sigchld reports =>
    obtain ⟨-, -, hmask, t, ht, rfl⟩ := sigchld_eq hs
    -- the signal is not masked, so no child waits for its job
    have hadd := hsound.masked.adding hmask
    have hids := sameIds_handlerReturns t
    have hstart : Complete { s with pending := false } :=
      h.of_sameIds (.of_eq rfl rfl rfl) rfl
    obtain ⟨hlogged, hall⟩ :=
      hstart.sigchldHandler (hsound.books.congr (.of_eq rfl rfl rfl)) hadd ht
    refine ⟨?_, hlogged.congr hids.pid hids.log⟩
    intro q hq _
    rw [hids.pids] at hq
    exact (lists_congr hids.pid).2 (hall q hq)
  | interrupt sig =>
    have := interrupt_eq hs
    subst this
    apply h.of_sameIds (sameIds_handlerReturns s)
    unfold Shell.handlerReturns
    split
    · next hc =>
      rw [hc]
      rfl
    · rfl
  | change pid c =>
    obtain ⟨status, rfl⟩ := change_eq hs
    exact h.of_sameIds ⟨map_pid_setStatus _ _ _, fun _ => rfl, fun _ => rfl, rfl⟩ rfl

/-- At the start there are no children. -/
lemma complete_init : init.Complete where
  listed := fun _ h => absurd h List.not_mem_nil
  logged :=
    { count := by
        intro pid hpid
        rw [if_neg]
        · rfl
        · rintro ⟨i, hi⟩
          have : (init.table.jobs i).pid = 0 := rfl
          omega
      ordered := trivial }

/-- The list names the children, and no child twice. -/
lemma Complete.tracks (h : s.Complete) (hb : s.Books) (hc : s.control.adding = none) :
    s.Tracks where
  named := by
    intro i hi
    exact List.mem_map.1 (hb.named i hi)
  listed := by
    intro c hmem
    have hpid : c.pid ∈ s.pids := List.mem_map_of_mem hmem
    obtain ⟨i, hi⟩ := h.listed c.pid hpid (by rw [hc]; simp)
    have hpos := hb.pos c.pid hpid
    refine ⟨i, ⟨by omega, hi⟩, ?_⟩
    rintro k ⟨hk, hkp⟩
    exact hb.wf.distinct k i hk (hkp.trans hi.symm)

end Shell

/-- In every run in which each `addjob` finds a slot, the job list has exactly the children
that have not been reaped, except between `fork` and `addjob`, and no `deletejob` comes before
the `addjob` of its process. -/
theorem job_list_tracks_children {s : Shell} (h : Reaches step AddjobSucceeds init s) :
    (s.control.adding = none → s.Tracks) ∧ DeletesFollowAdds s.log := by
  have hinv : s.Sound ∧ s.Complete := by
    apply h.invariant ⟨sound_init, complete_init⟩
    intro s e s' hs hok he
    exact ⟨hs.1.step he, hs.2.step hs.1 hok he⟩
  exact ⟨hinv.2.tracks hinv.1.books, hinv.2.logged.ordered⟩

/-- The command `/a`, in the background or not, up to where its job has been added. -/
def launch (pid : ℤ) (bg : Bool) : List Event :=
  [.command (if bg then 1 else 0) ⟨[['/', 'a']], none, none, .BUILTIN_NONE⟩ ['/', 'a'], .next,
    .forked pid, .next]

/-- A job in the background, and one in the foreground that the shell waits for. The one stops
and the other ends, and one run of the handler reports both. -/
def sampleRun : List Event :=
  launch 2 true ++ .next :: launch 3 false ++
    [.next, .next, .change 2 .stop, .change 3 .exit, .sigchld [3, 2], .next]

/-- The state after that run. -/
def sample : Shell := (after step init sampleRun).get (by decide +kernel)

theorem job_list_tracks_children_sample : sample.Tracks ∧ DeletesFollowAdds sample.log := by
  have hrun : Reaches step AddjobSucceeds init sample :=
    reaches_of_after (Option.some_get _).symm (by decide +kernel : Meets _ _ init sampleRun)
  exact ⟨(job_list_tracks_children hrun).1 (by decide +kernel), (job_list_tracks_children hrun).2⟩

end Tshlab
end SystemsLabs
