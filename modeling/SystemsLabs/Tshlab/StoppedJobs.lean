import SystemsLabs.Tshlab.Reaping

/-!
# The jobs of stopped children

When a child has stopped, `sigchld_handler` writes to its job without looking whether there is
one. A child has none when the job list was full at its launch. SIGCHLD stays blocked then, but
the next `sigsuspend` lets the handler run.
-/

namespace SystemsLabs
namespace Tshlab

open Runs Shell

namespace Shell

/-- A child stops only if it has a job, or is about to get one. -/
def StopsListed (s : Shell) : Event → Prop
  | .change pid .stop =>
    s.Lists pid ∨ s.control.adding = some pid ∧ ∃ i, (s.table.jobs i).pid = 0
  | _ => True

instance (s : Shell) (e : Event) : Decidable (StopsListed s e) := by
  unfold StopsListed
  split <;> infer_instance

/-- Of the children whose stop is still to be reported, each has a job, or is about to get one. -/
def StoppedListed (s : Shell) : Prop :=
  ∀ c ∈ s.children, c.status = .stopped false →
    s.Lists c.pid ∨ s.control.adding = some c.pid ∧ ∃ i, (s.table.jobs i).pid = 0

variable {s s' : Shell} {e : Event} {pid : ℤ}

/-! ## One step -/

/-- Steps that keep the list and let no child stop. -/
lemma StoppedListed.of_children (h : s.StoppedListed)
    (hc : ∀ c ∈ s'.children, c.status = .stopped false → c ∈ s.children)
    (ht : s'.table = s.table)
    (hadd : s'.control.adding = s.control.adding ∨ s.control.adding = none) :
    s'.StoppedListed := by
  intro c hmem hstopped
  rw [ht]
  rcases h c (hc c hmem hstopped) hstopped with hlist | ⟨hadding, hfree⟩
  · exact .inl ((lists_congr fun i => by rw [ht]).2 hlist)
  · rcases hadd with hadd | hadd
    · exact .inr ⟨hadd.trans hadding, hfree⟩
    · cases hadd.symm.trans hadding

/-- A child keeps its status, or it is the one whose status is set. -/
lemma mem_setStatus {children : List Child} {status : Status} {c : Child}
    (h : c ∈ setStatus children pid status) :
    c ∈ children ∧ c.pid ≠ pid ∨ c.pid = pid ∧ c.status = status := by
  obtain ⟨d, hd, rfl⟩ := List.mem_map.1 h
  split_ifs with hpid
  · exact .inr ⟨hpid, rfl⟩
  · exact .inl ⟨hd, hpid⟩

/-- A status is that of a child. -/
lemma mem_of_statusOf {children : List Child} {status : Status}
    (h : statusOf children pid = some status) : ∃ c ∈ children, c.pid = pid ∧ c.status = status := by
  obtain ⟨c, hc, rfl⟩ := Option.map_eq_some_iff.1 h
  exact ⟨c, List.mem_of_find?_eq_some hc, by simpa using List.find?_some hc, rfl⟩

/-- The only element that passes a test is found. -/
lemma find?_of_unique {α : Type*} {p : α → Bool} {l : List α} {a : α} (ha : a ∈ l) (hp : p a = true)
    (hu : ∀ b ∈ l, p b = true → b = a) : l.find? p = some a := by
  cases h : l.find? p with
  | none =>
    have hnone := List.find?_eq_none.1 h a ha
    exact absurd hp hnone
  | some b => rw [hu b (List.mem_of_find?_eq_some h) (List.find?_some h)]

/-- With a job for every child that has stopped, the handler comes to its end. -/
lemma sigchldHandler_listed {reports : List ℤ} (hb : s.Books)
    (hlist : ∀ c ∈ s.children, c.status = .stopped false → s.Lists c.pid)
    (h : s.sigchldHandler reports = some s') :
    s'.control = s.control ∧ ∀ c ∈ s'.children, c.status = .stopped false → s'.Lists c.pid := by
  induction reports generalizing s with
  | nil =>
    rw [sigchldHandler] at h
    split_ifs at h
    cases h
    exact ⟨rfl, hlist⟩
  | cons pid reports ih =>
    rw [sigchldHandler] at h
    cases hst : statusOf s.children pid with
    | none =>
      rw [hst] at h
      cases h
    | some status =>
      obtain ⟨d, hd, hdpid, hdstatus⟩ := mem_of_statusOf hst
      have hmem : pid ∈ s.pids := statusOf_eq_some hst
      have hreap : (s.reap pid).sigchldHandler reports = some s' →
          s'.control = s.control ∧
            ∀ c ∈ s'.children, c.status = .stopped false → s'.Lists c.pid := by
        intro hrest
        refine ih (s := s.reap pid) (hb.reap hmem) ?_ hrest
        intro c hc hstopped
        obtain ⟨hc, hne⟩ := List.mem_filter.1 hc
        have hpos : 0 < c.pid := hb.pos _ (List.mem_map_of_mem hc)
        exact (hb.lists_reap (hb.pos pid hmem) hpos).2
          ⟨hlist c hc hstopped, by simpa using hne⟩
      rw [hst] at h
      cases status with
      | running => cases h
      | exited => exact hreap h
      | signaled => exact hreap h
      | stopped reported =>
        cases reported with
        | true => cases h
        | false =>
          dsimp only at h
          cases hjob : getjobpid s.table.jobs pid with
          | none =>
            -- the child has a job
            obtain ⟨i, hi⟩ := hlist d hd hdstatus
            exact absurd (hi.trans hdpid) ((getjobpid_eq_none (hb.pos pid hmem)).1 hjob i)
          | some i =>
            rw [hjob] at h
            have hids := (sameIds_reported s pid).trans (sameIds_setState _ i .ST)
            refine ih (s := (s.reported pid).setState i .ST) (hb.congr hids) ?_ h
            intro c hc hstopped
            rw [lists_congr hids.pid]
            rcases mem_setStatus hc with ⟨hc, -⟩ | ⟨-, hc⟩
            · exact hlist c hc hstopped
            · cases hc.symm.trans hstopped

/-- `perform_job` stops no child. -/
lemma children_perform (s : Shell) (l : Locals) (line : Line) :
    (∀ c ∈ (s.perform l line).children, c.status = .stopped false → c ∈ s.children) ∧
      ∀ i, ((s.perform l line).table.jobs i).pid = (s.table.jobs i).pid := by
  refine ⟨?_, (SameIds.perform s l line).pid⟩
  intro c hc hstopped
  cases line with
  | jidOfId | jobOfJid | pidOfId | jidOfPid | jobOfPid | finish => exact hc
  | testId | pidOfJob | setState =>
    rw [perform] at hc
    split at hc <;> exact hc
  | resume =>
    rw [perform] at hc
    split at hc
    · rcases mem_setStatus hc with ⟨hc, -⟩ | ⟨-, hc⟩
      · exact hc
      · cases hc.symm.trans hstopped
    · exact hc

/-- A change sets the status, and only a stop leads to one that is to be reported as a stop. -/
lemma change_status {c : Change} (h : step s (.change pid c) = some s') :
    ∃ status, (status = .stopped false → c = .stop) ∧ s' = { s with
      children := setStatus s.children pid status, pending := s.pending || c.notifies } := by
  rw [step, change] at h
  obtain ⟨old, -, h⟩ := Option.bind_eq_some_iff.1 h
  obtain ⟨status, hstatus, rfl⟩ := Option.map_eq_some_iff.1 h
  refine ⟨status, ?_, rfl⟩
  rintro rfl
  cases c <;> cases old <;> simp_all [Change.apply]

/-- A statement of the main flow. -/
lemma StoppedListed.next (h : s.StoppedListed) (hsound : s.Sound) (hs : s.next = some s') :
    s'.StoppedListed := by
  cases hc : s.control with
  | addjob pid b cmdline =>
    rw [Shell.next, hc] at hs
    dsimp only at hs
    have hadding : s.control.adding = some pid := by rw [hc]; rfl
    have hpos : 0 < pid := hsound.books.pos pid (hsound.fresh pid hadding).1
    cases hadd : addjob s.table pid (if b then .BG else .FG) cmdline with
    | none =>
      -- the list is full, so the child has not stopped
      rw [hadd] at hs
      cases hs
      intro c hmem hstopped
      rcases h c hmem hstopped with hlist | ⟨-, i, hi⟩
      · exact .inl hlist
      · exact absurd hi (addjob_eq_none hpos hadd i)
    | some t =>
      rw [hadd] at hs
      cases hs
      obtain ⟨-, i, hi, hjobs⟩ := addjob_eq_some hadd
      intro c hmem hstopped
      left
      show ∃ k, (t.jobs k).pid = c.pid
      rw [hjobs]
      rcases h c hmem hstopped with ⟨k, hk⟩ | ⟨hadding', -⟩
      · have hcpos : 0 < c.pid := hsound.books.pos _ (List.mem_map_of_mem hmem)
        refine ⟨k, ?_⟩
        rw [Function.update_of_ne (by rintro rfl; omega), hk]
      · rw [hadding] at hadding'
        exact ⟨i, by rw [Function.update_self, Option.some.inj hadding']⟩
  | perform line l =>
    rw [Shell.next, hc] at hs
    cases hs
    obtain ⟨hchildren, hpids⟩ := children_perform s l line
    intro c hmem hstopped
    rcases h c (hchildren c hmem hstopped) hstopped with hlist | ⟨hadding, -⟩
    · exact .inl ((lists_congr hpids).2 hlist)
    · rw [hc] at hadding
      cases hadding
  | block _ _ | unblock | suspend _ _ | test _ _ =>
    have hadd : s.control.adding = none := by rw [hc]; rfl
    rw [Shell.next, hc] at hs
    cases hs
    exact h.of_children (fun c hmem _ => hmem) rfl (.inr hadd)
  | ready | fork _ _ | suspended _ _ _ | exited | crashed =>
    rw [Shell.next, hc] at hs
    cases hs

/-- SIGCHLD is delivered, and the handler finds the job of every child that has stopped. -/
lemma StoppedListed.sigchld {reports : List ℤ} (h : s.StoppedListed) (hsound : s.Sound)
    (hs : step s (.sigchld reports) = some s') :
    s'.StoppedListed ∧ s'.control ≠ .crashed := by
  obtain ⟨halive, -, hmask, t, ht, rfl⟩ := sigchld_eq hs
  have hadd := hsound.masked.adding hmask
  have hbooks : Books { s with pending := false } := hsound.books.congr (.of_eq rfl rfl rfl)
  have hlist : ∀ c ∈ s.children, c.status = .stopped false → s.Lists c.pid := by
    intro c hmem hstopped
    rcases h c hmem hstopped with hlist | ⟨hadding, -⟩
    · exact hlist
    · cases hadd.symm.trans hadding
  obtain ⟨hcontrol, hlist'⟩ :=
    sigchldHandler_listed (s := { s with pending := false }) hbooks hlist ht
  have hchildren : t.handlerReturns.children = t.children ∧
      t.handlerReturns.table = t.table := by
    unfold Shell.handlerReturns
    split <;> exact ⟨rfl, rfl⟩
  refine ⟨?_, ?_⟩
  · intro c hmem hstopped
    rw [hchildren.1] at hmem
    exact .inl ((lists_congr fun i => by rw [hchildren.2]).2 (hlist' c hmem hstopped))
  · have hcrash : t.control ≠ .crashed := by
      intro hcrash
      have hs : s.control = .crashed := hcontrol.symm.trans hcrash
      rw [alive, hs] at halive
      cases halive
    unfold Shell.handlerReturns
    split
    · simp
    · exact hcrash

/-- A child whose stop is still to be reported has a job, or is being added. -/
lemma StoppedListed.step (h : s.StoppedListed) (hsound : s.Sound) (hok : StopsListed s e)
    (hs : step s e = some s') : s'.StoppedListed := by
  cases e with
  | command bg tok cmdline =>
    obtain ⟨hc, rfl⟩ := command_eq hs
    exact h.of_children (fun c hmem _ => hmem) rfl (.inr (by rw [hc]; rfl))
  | next => exact h.next hsound hs
  | fails =>
    obtain ⟨rfl, hc⟩ := fails_eq hs
    refine h.of_children (fun c hmem _ => hmem) rfl (.inr ?_)
    rcases hc with ⟨_, _, hc⟩ | ⟨_, _, hc⟩ | hc
    all_goals
      rw [hc]
      rfl
  | forked pid =>
    obtain ⟨bg, cmdline, hc, -, -, rfl⟩ := forked_eq hs
    refine h.of_children ?_ rfl (.inr (by rw [hc]; rfl))
    intro c hmem hstopped
    rcases List.mem_cons.1 hmem with rfl | hmem
    · cases hstopped
    · exact hmem
  | sigchld reports => exact (h.sigchld hsound hs).1
  | interrupt sig =>
    rw [interrupt_eq hs]
    unfold Shell.handlerReturns
    split
    · next hc => exact h.of_children (fun c hmem _ => hmem) rfl (.inr (by rw [hc]; rfl))
    · exact h
  | change pid c =>
    obtain ⟨status, hstatus, rfl⟩ := change_status hs
    intro d hmem hstopped
    rcases mem_setStatus hmem with ⟨hmem, -⟩ | ⟨hpid, hd⟩
    · exact h d hmem hstopped
    · -- only `stop` leads to a stop that is not reported
      obtain rfl : c = .stop := hstatus (hd.symm.trans hstopped)
      rw [hpid]
      exact hok

end Shell

/-- Where the handler can run, it follows `NULL` exactly if a child has stopped that has no job. -/
theorem handler_crashes_iff {s : Shell} (h : s.Sound) (halive : s.alive = true)
    (hpending : s.pending = true) (hmask : s.mask .SIGCHLD = false) :
    (∃ reports s', step s (.sigchld reports) = some s' ∧ s'.control = .crashed) ↔
      ∃ c ∈ s.children, c.status = .stopped false ∧ ¬ s.Lists c.pid := by
  constructor
  · rintro ⟨reports, s', hs, hcrash⟩
    by_contra hnone
    have hlisted : s.StoppedListed := by
      intro c hmem hstopped
      by_contra hlist
      exact hnone ⟨c, hmem, hstopped, fun hl => hlist (.inl hl)⟩
    exact (hlisted.sigchld h hs).2 hcrash
  · rintro ⟨c, hmem, hstopped, hlist⟩
    have hpos : 0 < c.pid := h.books.pos _ (List.mem_map_of_mem hmem)
    have hstatus : statusOf s.children c.pid = some (.stopped false) := by
      have hfind : s.children.find? (fun d => d.pid = c.pid) = some c := by
        apply find?_of_unique hmem (by simp)
        intro d hd hdc
        exact List.inj_on_of_nodup_map h.books.nodup hd hmem (by simpa using hdc)
      rw [statusOf, hfind, Option.map_some, hstopped]
    have hjob : getjobpid s.table.jobs c.pid = none := by
      rw [getjobpid_eq_none hpos]
      intro i hi
      exact hlist ⟨i, hi⟩
    -- the child is reported first
    refine ⟨[c.pid],
      ((Shell.reported { s with pending := false } c.pid).goto .crashed).handlerReturns, ?_, rfl⟩
    rw [step, sigchld, if_pos ⟨halive, hpending, hmask⟩, sigchldHandler]
    simp only [hstatus, hjob, if_true]
    rfl

/-- While no child stops without a job, the handler never follows `NULL`. -/
theorem stopped_child_has_job {s s' : Shell} (h : Reaches step StopsListed init s)
    {reports : List ℤ} (hs : step s (.sigchld reports) = some s') : s'.control ≠ .crashed := by
  have hinv : s.Sound ∧ s.StoppedListed := by
    apply h.invariant
    · exact ⟨sound_init, fun c hc => absurd hc List.not_mem_nil⟩
    · intro s e s' hs hok he
      exact ⟨hs.1.step he, hs.2.step hs.1 hok he⟩
  exact (hinv.2.sigchld hinv.1 hs).2

/-- A job in the background stops. -/
def stopRun : List Event := launch 2 true ++ [.next, .change 2 .stop]

theorem stopped_child_has_job_background :
    ∃ s s', after step init stopRun = some s ∧ step s (.sigchld [2]) = some s' ∧
      s'.control ≠ .crashed := by
  have hsome : ((after step init stopRun).bind fun s => step s (.sigchld [2])).isSome := by
    decide +kernel
  obtain ⟨s', hs'⟩ := Option.isSome_iff_exists.1 hsome
  obtain ⟨s, hs, hs'⟩ := Option.bind_eq_some_iff.1 hs'
  have hrun : Reaches step StopsListed init s :=
    reaches_of_after hs (by decide +kernel : Meets _ _ init stopRun)
  exact ⟨s, s', hs, hs', stopped_child_has_job hrun hs'⟩

/-- Sixteen jobs in the background fill the list. A child more is launched and stops, and the
shell waits for the first job. -/
def fullRun : List Event :=
  ((List.range 16).flatMap fun n => launch (n + 2 : ℕ) true ++ [.next]) ++ launch 18 true ++
    [.change 18 .stop, .command 0 ⟨[['f', 'g'], ['%', '1']], none, none, .BUILTIN_FG⟩ []] ++
    List.replicate 10 .next

/-- The shell does not go on. -/
def crashes (s : Shell) : Bool :=
  match s.control with
  | .crashed => true
  | _ => false

/-- The handler finds no job of the child that has stopped. -/
theorem unlisted_child_stops :
    ∃ s s', after step init fullRun = some s ∧ step s (.sigchld [18]) = some s' ∧
      s'.control = .crashed := by
  have hcrash : ((after step init fullRun).bind fun s =>
      (step s (.sigchld [18])).map crashes) = some true := by decide +kernel
  obtain ⟨s, hs, hcrash⟩ := Option.bind_eq_some_iff.1 hcrash
  obtain ⟨s', hs', hcrash⟩ := Option.map_eq_some_iff.1 hcrash
  refine ⟨s, s', hs, hs', ?_⟩
  unfold crashes at hcrash
  split at hcrash
  · assumption
  · cases hcrash

end Tshlab
end SystemsLabs
