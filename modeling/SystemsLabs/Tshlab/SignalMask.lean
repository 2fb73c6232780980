import SystemsLabs.Tshlab.Reaping

/-!
# The signal mask around eval

`eval` blocks three signals before `fork` and unblocks them before it returns, but where `fork`
or `addjob` fails it returns with the signals still blocked. To unblock is also not to restore:
a signal that was blocked before the call is not blocked after it.

The mask that counts is the one of the main flow (`ownMask`). While `sigsuspend` sleeps another
one is in force, and the mask of the main flow is the one that `sigsuspend` will put back.
-/

namespace SystemsLabs
namespace Tshlab

open Runs Shell

/-- `eval` has blocked the signals and not unblocked them yet. -/
def Control.launching : Control → Bool
  | .fork _ _ | .addjob _ _ _ | .unblock | .test _ .eval | .suspend _ .eval
  | .suspended _ .eval _ => true
  | _ => false

/-- `eval` is done, or has to do with a builtin command, or the shell is gone. -/
def Control.aside : Control → Bool
  | .ready | .perform _ _ | .test _ .performJob | .suspend _ .performJob
  | .suspended _ .performJob _ | .exited | .crashed => true
  | _ => false

namespace Control.FollowsPerform

variable {c : Control}

lemma aside (h : c.FollowsPerform) : c.aside = true := by
  cases h <;> rfl

lemma awake (h : c.FollowsPerform) (pid : ℤ) (caller : Caller) (saved : Mask) :
    c ≠ .suspended pid caller saved := by
  cases h <;> simp

end Control.FollowsPerform

namespace Shell

/-- The mask of the main flow. -/
def ownMask (s : Shell) : Mask :=
  match s.control with
  | .suspended _ _ saved => saved
  | _ => s.mask

/-- The step is not a `sigprocmask` that fails. -/
def SigprocmaskSucceeds (s : Shell) (e : Event) : Prop :=
  match s.control, e with
  | .block _ _, .fails | .unblock, .fails => False
  | _, _ => True

/-- The step is neither a `fork` nor an `addjob` that fails. -/
def Launches (s : Shell) (e : Event) : Prop :=
  (∀ bg cmdline, s.control = .fork bg cmdline → e ≠ .fails) ∧ AddjobSucceeds s e

/-- The step does not begin another call of `eval`. -/
def SameCall (_s : Shell) (e : Event) : Prop := ∀ bg tok cmdline, e ≠ .command bg tok cmdline

/-- A step within one call in which `sigprocmask` does not fail. -/
def Regular (s : Shell) (e : Event) : Prop := SameCall s e ∧ SigprocmaskSucceeds s e

/-- A call of `eval`: the command line, and what happens until the call returns. -/
structure Evaluates (s : Shell) (bg : ℤ) (tok : Tok) (cmdline : List Char) (es : List Event)
    (s' : Shell) : Prop where
  run : after step s (.command bg tok cmdline :: es) = some s'
  regular : Meets step Regular (s.goto (evalStart bg tok cmdline)) es
  returns : s'.control = .ready

/-- A launch has unblocked the three signals, and they were not blocked before. A launch that
failed has left them blocked, and they were blocked before. -/
def Restores (s : Shell) (bg : ℤ) (tok : Tok) (cmdline : List Char) (es : List Event) : Prop :=
  ∀ b, evalStart bg tok cmdline = .block b cmdline →
    (Meets step Launches (s.goto (.block b cmdline)) es →
      ∀ sig, Mask.ofEval sig = true → s.mask sig = false) ∧
    (¬ Meets step Launches (s.goto (.block b cmdline)) es →
      ∀ sig, Mask.ofEval sig = true → s.mask sig = true)

variable {s s' : Shell} {e : Event} {es : List Event}

/-! ## One step -/

/-- While the main flow does not sleep, the mask is its own. -/
lemma ownMask_of_control (h : ∀ pid caller saved, s.control ≠ .suspended pid caller saved) :
    s.ownMask = s.mask := by
  unfold ownMask
  split
  · next pid caller saved hc => exact absurd hc (h pid caller saved)
  · rfl

/-- A handler that interrupts `sigsuspend` brings the mask of the main flow back. -/
lemma ownMask_handlerReturns (s : Shell) : s.handlerReturns.ownMask = s.ownMask := by
  unfold Shell.handlerReturns
  split
  · next pid caller saved hc =>
    unfold ownMask
    rw [hc]
  · rfl

/-- What the surroundings do to the main flow: a handler wakes it up, or the shell crashes. -/
lemma surroundings_cases (hcall : SameCall s e) (hnext : e ≠ .next) (hfails : e ≠ .fails)
    (hforked : ∀ pid, e ≠ .forked pid) (hs : step s e = some s') :
    s'.control = .crashed ∨ s'.ownMask = s.ownMask ∧ (s'.control = s.control ∨
      ∃ pid caller saved, s.control = .suspended pid caller saved ∧
        s'.control = .test pid caller) := by
  have hreturns : ∀ t : Shell, t.mask = s.mask → t.control = s.control →
      t.handlerReturns.ownMask = s.ownMask ∧ (t.handlerReturns.control = s.control ∨
        ∃ pid caller saved, s.control = .suspended pid caller saved ∧
          t.handlerReturns.control = .test pid caller) := by
    intro t hmask hcontrol
    refine ⟨?_, ?_⟩
    · rw [ownMask_handlerReturns, ownMask, ownMask, hmask, hcontrol]
    · unfold Shell.handlerReturns
      split
      · next pid caller saved hc =>
        exact .inr ⟨pid, caller, saved, hcontrol ▸ hc, rfl⟩
      · exact .inl hcontrol
  cases e with
  | command bg tok cmdline => exact absurd rfl (hcall bg tok cmdline)
  | next => exact absurd rfl hnext
  | fails => exact absurd rfl hfails
  | forked pid => exact absurd rfl (hforked pid)
  | sigchld reports =>
    obtain ⟨-, -, -, t, ht, rfl⟩ := sigchld_eq hs
    obtain ⟨hmask, hcontrol | hcontrol⟩ := sigchldHandler_control ht
    · exact .inr (hreturns t hmask hcontrol)
    · left
      rw [Shell.handlerReturns, hcontrol]
      exact hcontrol
  | interrupt sig =>
    rw [interrupt_eq hs]
    exact .inr (hreturns s rfl rfl)
  | change pid c =>
    obtain ⟨status, rfl⟩ := change_eq hs
    exact .inr ⟨rfl, .inl rfl⟩

/-- A statement of `perform_job` has nothing to do with a launch. -/
lemma aside_perform (s : Shell) (l : Locals) (line : Line) :
    (s.perform l line).control.aside = true ∧ (s.perform l line).ownMask = s.mask := by
  obtain ⟨hc, hmask⟩ := control_perform s l line
  rw [ownMask_of_control hc.awake]
  exact ⟨hc.aside, hmask⟩

/-- A step that is neither `fork` nor `addjob`. -/
lemma launches_of_control (hfork : ∀ bg cmdline, s.control ≠ .fork bg cmdline)
    (hadd : ∀ pid bg cmdline, s.control ≠ .addjob pid bg cmdline) : Launches s e := by
  refine ⟨fun bg cmdline hc => absurd hc (hfork bg cmdline), ?_⟩
  unfold AddjobSucceeds
  split
  · next hc => exact absurd hc (hadd _ _ _)
  · trivial

/-- Outside a launch no condition is left. -/
lemma launches_of_aside (hc : s.control.aside = true) : Launches s e := by
  apply launches_of_control
  · intro bg cmdline h
    rw [h] at hc
    cases hc
  · intro pid bg cmdline h
    rw [h] at hc
    cases hc

/-- Outside a launch nothing touches the mask of the main flow. -/
lemma aside_step (hc : s.control.aside = true) (hcall : SameCall s e) (hs : step s e = some s') :
    s'.control.aside = true ∧ (s'.control = .crashed ∨ s'.ownMask = s.ownMask) := by
  -- the main flow moves, a system call fails or forks, or the step comes from outside
  by_cases hnext : e = .next
  · subst hnext
    replace hs : s.next = some s' := hs
    cases hctrl : s.control with
    | perform line l =>
      rw [Shell.next, hctrl] at hs
      cases hs
      obtain ⟨haside, hmask⟩ := aside_perform s l line
      exact ⟨haside, .inr (hmask.trans (ownMask_of_control (by simp [hctrl])).symm)⟩
    | test pid caller =>
      have hown := ownMask_of_control (s := s) (by simp [hctrl])
      rw [Shell.next, hctrl] at hs
      cases hs
      rw [hctrl] at hc
      cases caller with
      | eval => cases hc
      | performJob =>
        rw [goto, hown]
        split_ifs <;> exact ⟨rfl, .inr rfl⟩
    | suspend pid caller =>
      have hown := ownMask_of_control (s := s) (by simp [hctrl])
      rw [Shell.next, hctrl] at hs
      cases hs
      rw [hctrl] at hc
      cases caller with
      | eval => cases hc
      | performJob => exact ⟨rfl, .inr hown.symm⟩
    | block _ _ | addjob _ _ _ | unblock =>
      rw [hctrl] at hc
      cases hc
    | ready | fork _ _ | suspended _ _ _ | exited | crashed =>
      rw [Shell.next, hctrl] at hs
      cases hs
  · by_cases hfails : e = .fails
    · subst hfails
      obtain ⟨-, ⟨_, _, hctrl⟩ | ⟨_, _, hctrl⟩ | hctrl⟩ := fails_eq hs
      all_goals
        rw [hctrl] at hc
        cases hc
    · by_cases hforked : ∃ pid, e = .forked pid
      · obtain ⟨pid, rfl⟩ := hforked
        obtain ⟨_, _, hctrl, -⟩ := forked_eq hs
        rw [hctrl] at hc
        cases hc
      · rcases surroundings_cases hcall hnext hfails (fun pid h => hforked ⟨pid, h⟩) hs with
          hcrash | ⟨hown, hctrl | ⟨pid, caller, saved, hctrl, htest⟩⟩
        · exact ⟨by rw [hcrash]; rfl, .inl hcrash⟩
        · exact ⟨by rw [hctrl]; exact hc, .inr hown⟩
        · rw [hctrl] at hc
          cases caller with
          | eval => cases hc
          | performJob => exact ⟨by rw [htest]; rfl, .inr hown⟩

/-- The shell is gone. -/
lemma crashed_step (hc : s.control = .crashed) (hcall : SameCall s e) (hs : step s e = some s') :
    s'.control = .crashed := by
  cases e with
  | command bg tok cmdline => exact absurd rfl (hcall bg tok cmdline)
  | next =>
    rw [step, Shell.next, hc] at hs
    cases hs
  | fails =>
    obtain ⟨-, ⟨_, _, h⟩ | ⟨_, _, h⟩ | h⟩ := fails_eq hs
    all_goals cases hc.symm.trans h
  | forked pid =>
    obtain ⟨_, _, h, -⟩ := forked_eq hs
    cases hc.symm.trans h
  | sigchld reports =>
    obtain ⟨halive, -⟩ := sigchld_eq hs
    rw [alive, hc] at halive
    cases halive
  | interrupt sig =>
    rw [interrupt_eq hs, Shell.handlerReturns, hc]
    exact hc
  | change pid c =>
    obtain ⟨status, rfl⟩ := change_eq hs
    exact hc

/-- The first statement of a launch. -/
lemma block_step {b : Bool} {cmdline : List Char} (hc : s.control = .block b cmdline)
    (hcall : SameCall s e) (hsig : SigprocmaskSucceeds s e) (hs : step s e = some s') :
    s'.control = .crashed ∨ (s'.control = .block b cmdline ∧ s'.mask = s.mask) ∨
      s'.control = .fork b cmdline ∧ s'.mask = s.mask.block .ofEval := by
  by_cases hnext : e = .next
  · subst hnext
    replace hs : s.next = some s' := hs
    rw [Shell.next, hc] at hs
    cases hs
    exact .inr (.inr ⟨rfl, rfl⟩)
  · have hfails : e ≠ .fails := by
      rintro rfl
      simp only [SigprocmaskSucceeds, hc] at hsig
    have hforked : ∀ pid, e ≠ .forked pid := by
      rintro pid rfl
      obtain ⟨_, _, h, -⟩ := forked_eq hs
      cases hc.symm.trans h
    rcases surroundings_cases hcall hnext hfails hforked hs with
      hcrash | ⟨hown, hctrl | ⟨pid, caller, saved, hctrl, -⟩⟩
    · exact .inl hcrash
    · rw [hc] at hctrl
      rw [ownMask_of_control (by simp [hctrl]), ownMask_of_control (by simp [hc])] at hown
      exact .inr (.inl ⟨hctrl, hown⟩)
    · cases hc.symm.trans hctrl

/-- A launch goes on with the signals blocked, or it is done and unblocks them, or it fails. -/
def LaunchStep (s : Shell) (e : Event) (s' : Shell) : Prop :=
  s'.control = .crashed ∨
    (s'.control.launching = true ∧ s'.ownMask = s.ownMask ∧ Launches s e) ∨
    (s'.control = .ready ∧ s'.mask = s.ownMask.unblock .ofEval ∧ Launches s e) ∨
    s'.control = .ready ∧ s'.mask = s.ownMask ∧ ¬ Launches s e

/-- `addjob` leads to the end of the launch, with the mask as it was. -/
lemma launching_addjob {pid : ℤ} {b : Bool} {cmdline : List Char}
    (hctrl : s.control = .addjob pid b cmdline) (hs : s.next = some s') :
    LaunchStep s .next s' := by
  have hown := ownMask_of_control (s := s) (by simp [hctrl])
  rw [Shell.next, hctrl] at hs
  dsimp only at hs
  cases hadd : addjob s.table pid (if b then .BG else .FG) cmdline with
  | none =>
    rw [hadd] at hs
    cases hs
    refine .inr (.inr (.inr ⟨rfl, hown.symm, fun hok => ?_⟩))
    have hsome := hok.2
    simp only [AddjobSucceeds, hctrl, hadd] at hsome
    cases hsome
  | some t =>
    rw [hadd] at hs
    cases hs
    refine .inr (.inl ⟨?_, ?_, ⟨by simp, ?_⟩⟩)
    · cases b <;> rfl
    · rw [hown]
      cases b <;> rfl
    · simp only [AddjobSucceeds, hctrl, hadd, Option.isSome_some]

/-- The main flow of a launch executes its next statement. -/
lemma launching_next (hc : s.control.launching = true) (hs : s.next = some s') :
    LaunchStep s .next s' := by
  cases hctrl : s.control with
  | addjob pid b cmdline => exact launching_addjob hctrl hs
  | unblock =>
    have hown := ownMask_of_control (s := s) (by simp [hctrl])
    have hok : Launches s .next := launches_of_control (by simp [hctrl]) (by simp [hctrl])
    rw [Shell.next, hctrl] at hs
    cases hs
    exact .inr (.inr (.inl ⟨rfl, by rw [hown], hok⟩))
  | test pid caller =>
    have hown := ownMask_of_control (s := s) (by simp [hctrl])
    have hok : Launches s .next := launches_of_control (by simp [hctrl]) (by simp [hctrl])
    rw [hctrl] at hc
    rw [Shell.next, hctrl] at hs
    cases hs
    cases caller with
    | performJob => cases hc
    | eval =>
      refine .inr (.inl ⟨?_, ?_, hok⟩)
      · rw [goto]
        split_ifs <;> rfl
      · rw [goto, hown]
        split_ifs <;> rfl
  | suspend pid caller =>
    have hown := ownMask_of_control (s := s) (by simp [hctrl])
    have hok : Launches s .next := launches_of_control (by simp [hctrl]) (by simp [hctrl])
    rw [hctrl] at hc
    rw [Shell.next, hctrl] at hs
    cases hs
    cases caller with
    | performJob => cases hc
    | eval => exact .inr (.inl ⟨rfl, hown.symm, hok⟩)
  | block _ _ | perform _ _ =>
    rw [hctrl] at hc
    cases hc
  | ready | fork _ _ | suspended _ _ _ | exited | crashed =>
    rw [Shell.next, hctrl] at hs
    cases hs

/-- A system call of a launch fails, which is `fork`. -/
lemma launching_fails (hc : s.control.launching = true) (hsig : SigprocmaskSucceeds s .fails)
    (hs : step s .fails = some s') : LaunchStep s .fails s' := by
  obtain ⟨rfl, ⟨_, _, hctrl⟩ | ⟨b, cmdline, hctrl⟩ | hctrl⟩ := fails_eq hs
  · rw [hctrl] at hc
    cases hc
  · refine .inr (.inr (.inr ⟨rfl, ?_, fun hok => hok.1 b cmdline hctrl rfl⟩))
    exact (ownMask_of_control (s := s) (by simp [hctrl])).symm
  · simp only [SigprocmaskSucceeds, hctrl] at hsig

/-- A step within a launch. -/
lemma launching_step (hc : s.control.launching = true) (hcall : SameCall s e)
    (hsig : SigprocmaskSucceeds s e) (hs : step s e = some s') : LaunchStep s e s' := by
  by_cases hnext : e = .next
  · subst hnext
    exact launching_next hc hs
  by_cases hfails : e = .fails
  · subst hfails
    exact launching_fails hc hsig hs
  by_cases hforked : ∃ pid, e = .forked pid
  · obtain ⟨pid, rfl⟩ := hforked
    obtain ⟨_, _, hctrl, -, -, rfl⟩ := forked_eq hs
    refine .inr (.inl ⟨rfl, (ownMask_of_control (s := s) (by simp [hctrl])).symm, by simp, ?_⟩)
    simp only [AddjobSucceeds, hctrl]
  · have hok : Launches s e := by
      refine ⟨fun _ _ _ => hfails, ?_⟩
      unfold AddjobSucceeds
      split
      · exact absurd rfl hnext
      · trivial
    rcases surroundings_cases hcall hnext hfails (fun pid h => hforked ⟨pid, h⟩) hs with
      hcrash | ⟨hown, hctrl | ⟨pid, caller, saved, hctrl, htest⟩⟩
    · exact .inl hcrash
    · exact .inr (.inl ⟨by rw [hctrl]; exact hc, hown, hok⟩)
    · rw [hctrl] at hc
      cases caller with
      | performJob => cases hc
      | eval => exact .inr (.inl ⟨by rw [htest]; rfl, hown, hok⟩)

/-! ## A call -/

/-- A crashed shell stays where it is. -/
lemma crashed_run (hc : s.control = .crashed) (hreg : Meets step Regular s es)
    (hs : after step s es = some s') : s'.control = .crashed := by
  apply (reaches_of_after hs hreg).invariant (I := fun t => t.control = .crashed) hc
  intro t e t' ht hreg he
  exact crashed_step ht hreg.1 he

/-- Outside a launch the mask of the main flow stays, and nothing is launched. -/
lemma aside_run (hc : s.control.aside = true) (hreg : Meets step Regular s es)
    (hs : after step s es = some s') (hret : s'.control = .ready) :
    s'.mask = s.ownMask ∧ Meets step Launches s es := by
  induction es generalizing s with
  | nil =>
    cases hs
    exact ⟨(ownMask_of_control (by simp [hret])).symm, trivial⟩
  | cons e es ih =>
    obtain ⟨t, he, ht⟩ := after_cons_eq_some.1 hs
    obtain ⟨hregular, hrest⟩ := (meets_cons he).1 hreg
    obtain ⟨haside, hcrash | hown⟩ := aside_step hc hregular.1 he
    · cases hret.symm.trans (crashed_run hcrash hrest ht)
    · obtain ⟨hmask, hmeets⟩ := ih haside hrest ht
      exact ⟨hmask.trans hown, (meets_cons he).2 ⟨launches_of_aside hc, hmeets⟩⟩

/-- A launch that is under way unblocks the signals, or leaves them as they are where it fails. -/
lemma launching_run (hc : s.control.launching = true) (hreg : Meets step Regular s es)
    (hs : after step s es = some s') (hret : s'.control = .ready) :
    Meets step Launches s es ∧ s'.mask = s.ownMask.unblock .ofEval ∨
      ¬ Meets step Launches s es ∧ s'.mask = s.ownMask := by
  induction es generalizing s with
  | nil =>
    cases hs
    rw [hret] at hc
    cases hc
  | cons e es ih =>
    obtain ⟨t, he, ht⟩ := after_cons_eq_some.1 hs
    obtain ⟨⟨hcall, hsig⟩, hrest⟩ := (meets_cons he).1 hreg
    rw [meets_cons he]
    rcases launching_step hc hcall hsig he with
      hcrash | ⟨hlaunching, hown, hok⟩ | ⟨hready, hmask, hok⟩ | ⟨hready, hmask, hok⟩
    · cases hret.symm.trans (crashed_run hcrash hrest ht)
    · rw [← hown]
      rcases ih hlaunching hrest ht with ⟨hmeets, hmask⟩ | ⟨hmeets, hmask⟩
      · exact .inl ⟨⟨hok, hmeets⟩, hmask⟩
      · exact .inr ⟨fun h => hmeets h.2, hmask⟩
    -- the call has returned
    · obtain ⟨hmask', hmeets⟩ := aside_run (by rw [hready]; rfl) hrest ht hret
      rw [ownMask_of_control (s := t) (by simp [hready])] at hmask'
      exact .inl ⟨⟨hok, hmeets⟩, hmask'.trans hmask⟩
    · obtain ⟨hmask', -⟩ := aside_run (by rw [hready]; rfl) hrest ht hret
      rw [ownMask_of_control (s := t) (by simp [hready])] at hmask'
      exact .inr ⟨fun h => hok h.1, hmask'.trans hmask⟩

/-- The same, from the start of a launch on. -/
lemma block_run {b : Bool} {cmdline : List Char} (hc : s.control = .block b cmdline)
    (hreg : Meets step Regular s es) (hs : after step s es = some s')
    (hret : s'.control = .ready) :
    Meets step Launches s es ∧ s'.mask = (s.mask.block .ofEval).unblock .ofEval ∨
      ¬ Meets step Launches s es ∧ s'.mask = s.mask.block .ofEval := by
  induction es generalizing s with
  | nil =>
    cases hs
    cases hret.symm.trans hc
  | cons e es ih =>
    obtain ⟨t, he, ht⟩ := after_cons_eq_some.1 hs
    obtain ⟨⟨hcall, hsig⟩, hrest⟩ := (meets_cons he).1 hreg
    have hok : Launches s e := launches_of_control (by simp [hc]) (by simp [hc])
    rw [meets_cons he]
    simp only [hok, true_and]
    rcases block_step hc hcall hsig he with hcrash | ⟨hblock, hmask⟩ | ⟨hfork, hmask⟩
    · cases hret.symm.trans (crashed_run hcrash hrest ht)
    · rw [← hmask]
      exact ih hblock hrest ht
    · rw [← hmask, ← ownMask_of_control (s := t) (by simp [hfork])]
      exact launching_run (by rw [hfork]; rfl) hrest ht hret

end Shell

namespace Mask

/-- Blocking changes nothing where all is blocked. -/
lemma block_eq_iff (m : Mask) : m.block ofEval = m ↔ ∀ sig, ofEval sig = true → m sig = true := by
  constructor
  · intro h sig hsig
    rw [← congrFun h sig, block, hsig, Bool.or_true]
  · intro h
    funext sig
    cases hsig : ofEval sig with
    | true => rw [block, hsig, h sig hsig, Bool.or_true]
    | false => rw [block, hsig, Bool.or_false]

/-- Unblocking gives the mask back where nothing was blocked before. -/
lemma unblock_block_eq_iff (m : Mask) :
    (m.block ofEval).unblock ofEval = m ↔ ∀ sig, ofEval sig = true → m sig = false := by
  constructor
  · intro h sig hsig
    rw [← congrFun h sig, unblock, hsig, Bool.not_true, Bool.and_false]
  · intro h
    funext sig
    cases hsig : ofEval sig with
    | true => rw [unblock, hsig, h sig hsig, Bool.not_true, Bool.and_false]
    | false => rw [unblock, block, hsig, Bool.or_false, Bool.not_false, Bool.and_true]

end Mask

/-- A call of `eval` that gives up or runs a builtin keeps the mask. -/
lemma aside_restores {s s' : Shell} {bg : ℤ} {tok : Tok} {cmdline : List Char} {es : List Event}
    (hc : (evalStart bg tok cmdline).aside = true) (h : Evaluates s bg tok cmdline es s')
    (ht : after step (s.goto (evalStart bg tok cmdline)) es = some s') :
    s'.mask = s.mask ↔ Restores s bg tok cmdline es := by
  have hown : (s.goto (evalStart bg tok cmdline)).ownMask = s.mask := by
    rcases evalStart_cases bg tok cmdline with hc | hc | ⟨_, -, hc⟩ | ⟨_, hc⟩
    all_goals
      rw [hc]
      rfl
  have hmask : s'.mask = s.mask := (aside_run hc h.regular ht h.returns).1.trans hown
  refine ⟨fun _ b hb => ?_, fun _ => hmask⟩
  rw [hb] at hc
  cases hc

/-- For a line that is to be launched, `Restores` is about the run from the first
`sigprocmask` on. -/
lemma restores_block {s : Shell} {bg : ℤ} {tok : Tok} {cmdline : List Char} {es : List Event}
    {b : Bool} (hc : evalStart bg tok cmdline = .block b cmdline) :
    Restores s bg tok cmdline es ↔
      (Meets step Launches (s.goto (.block b cmdline)) es →
        ∀ sig, Mask.ofEval sig = true → s.mask sig = false) ∧
      (¬ Meets step Launches (s.goto (.block b cmdline)) es →
        ∀ sig, Mask.ofEval sig = true → s.mask sig = true) := by
  constructor
  · intro hr
    exact hr b hc
  · intro hr b' hb'
    cases hc.symm.trans hb'
    exact hr

/-- `eval` returns with the mask that it was called with exactly if it launches no job, or
launches one while the three signals are not blocked, or fails to while they are. -/
theorem mask_restored_iff {s s' : Shell} {bg : ℤ} {tok : Tok} {cmdline : List Char}
    {es : List Event} (h : Evaluates s bg tok cmdline es s') :
    s'.mask = s.mask ↔ Restores s bg tok cmdline es := by
  obtain ⟨t, he, ht⟩ := after_cons_eq_some.1 h.run
  obtain ⟨hready, rfl⟩ := command_eq he
  rcases evalStart_cases bg tok cmdline with hc | hc | ⟨_, -, hc⟩ | ⟨b, hc⟩
  · exact aside_restores (by rw [hc]; rfl) h ht
  · exact aside_restores (by rw [hc]; rfl) h ht
  · exact aside_restores (by rw [hc]; rfl) h ht
  · have hregular := h.regular
    rw [hc] at hregular ht
    rw [restores_block hc]
    rcases block_run (s := s.goto (.block b cmdline)) rfl hregular ht h.returns with
      ⟨hmeets, hmask⟩ | ⟨hmeets, hmask⟩
    · rw [hmask]
      simp only [hmeets, not_true_eq_false, false_imp_iff, true_imp_iff, and_true]
      exact Mask.unblock_block_eq_iff s.mask
    · rw [hmask]
      simp only [hmeets, not_false_eq_true, false_imp_iff, true_imp_iff, true_and]
      exact Mask.block_eq_iff s.mask

namespace Shell

variable {s s' : Shell} {e : Event}

/-- Events other than command lines and failures belong to one call. -/
lemma meets_regular {es : List Event}
    (h : ∀ e ∈ es, e ≠ .fails ∧ ∀ bg tok cmdline, e ≠ .command bg tok cmdline) :
    Meets step Regular s es := by
  induction es generalizing s with
  | nil => trivial
  | cons e es ih =>
    intro s' _
    obtain ⟨hfails, hcall⟩ := h e List.mem_cons_self
    refine ⟨⟨hcall, ?_⟩, ih fun e' he' => h e' (List.mem_cons_of_mem e he')⟩
    unfold SigprocmaskSucceeds
    split
    · exact hfails rfl
    · exact hfails rfl
    · trivial

end Shell

/-! ## Runs -/

namespace Shell

/-- What the mask of the main flow is while no launch has failed. -/
structure Clear (s : Shell) : Prop where
  aside : s.control.aside = true → s.control = .crashed ∨ s.ownMask = fun _ => false
  block : ∀ b cmdline, s.control = .block b cmdline → s.mask = fun _ => false
  launching : s.control.launching = true → s.ownMask = .ofEval

variable {s s' : Shell} {e : Event}

/-- Outside a launch the mask has to be empty. -/
lemma Clear.of_aside (hc : s.control.aside = true)
    (h : s.control = .crashed ∨ s.ownMask = fun _ => false) : s.Clear where
  aside := fun _ => h
  block := by
    intro b cmdline hb
    rw [hb] at hc
    cases hc
  launching := by
    intro hl
    revert hc hl
    unfold Control.aside Control.launching
    split <;> split <;> simp_all

/-- Within a launch the three signals are blocked. -/
lemma Clear.of_launching (hc : s.control.launching = true) (h : s.ownMask = .ofEval) :
    s.Clear where
  aside := by
    intro ha
    revert hc ha
    unfold Control.aside Control.launching
    split <;> split <;> simp_all
  block := by
    intro b cmdline hb
    rw [hb] at hc
    cases hc
  launching := fun _ => h

lemma Clear.of_block {b : Bool} {cmdline : List Char} (hc : s.control = .block b cmdline)
    (h : s.mask = fun _ => false) : s.Clear where
  aside := by
    intro ha
    rw [hc] at ha
    cases ha
  block := fun _ _ _ => h
  launching := by
    intro hl
    rw [hc] at hl
    cases hl

/-- Where the main flow may be, as far as the mask goes. -/
lemma control_cases (s : Shell) :
    s.control.aside = true ∨ (∃ b cmdline, s.control = .block b cmdline) ∨
      s.control.launching = true := by
  cases hc : s.control with
  | block b cmdline => exact .inr (.inl ⟨b, cmdline, rfl⟩)
  | test pid caller | suspend pid caller | suspended pid caller saved =>
    cases caller with
    | eval => exact .inr (.inr rfl)
    | performJob => exact .inl rfl
  | fork _ _ | addjob _ _ _ | unblock => exact .inr (.inr rfl)
  | ready | perform _ _ | exited | crashed => exact .inl rfl

/-- With every call succeeding, the mask is empty again behind each command. -/
lemma Clear.step (h : s.Clear) (hsig : SigprocmaskSucceeds s e) (hok : Launches s e)
    (hs : step s e = some s') : s'.Clear := by
  by_cases hcall : SameCall s e
  · rcases s.control_cases with hc | ⟨b, cmdline, hc⟩ | hc
    · obtain ⟨haside, hmask⟩ := aside_step hc hcall hs
      apply Clear.of_aside haside
      rcases h.aside hc with hcrash | hown
      · exact .inl (crashed_step hcrash hcall hs)
      · exact hmask.imp_right fun hmask => hmask.trans hown
    · have hmask := h.block b cmdline hc
      rcases block_step hc hcall hsig hs with hcrash | ⟨hblock, hsame⟩ | ⟨hfork, hblocked⟩
      · exact .of_aside (by rw [hcrash]; rfl) (.inl hcrash)
      · exact .of_block hblock (hsame.trans hmask)
      · apply Clear.of_launching (by rw [hfork]; rfl)
        rw [ownMask_of_control (by simp [hfork]), hblocked, hmask]
        funext sig
        exact Bool.false_or _
    · have hown := h.launching hc
      rcases launching_step hc hcall hsig hs with
        hcrash | ⟨hlaunching, hsame, -⟩ | ⟨hready, hmask, -⟩ | ⟨-, -, hfail⟩
      · exact .of_aside (by rw [hcrash]; rfl) (.inl hcrash)
      · exact .of_launching hlaunching (hsame.trans hown)
      · apply Clear.of_aside (by rw [hready]; rfl)
        right
        rw [ownMask_of_control (by simp [hready]), hmask, hown]
        funext sig
        exact Bool.and_not_self _
      · exact absurd hok hfail
  · -- the next command line
    simp only [SameCall, not_forall, not_not] at hcall
    obtain ⟨bg, tok, cmdline, rfl⟩ := hcall
    obtain ⟨hready, rfl⟩ := command_eq hs
    have hmask : s.mask = fun _ => false := by
      rcases h.aside (by rw [hready]; rfl) with hcrash | hown
      · cases hready.symm.trans hcrash
      · rwa [ownMask_of_control (by simp [hready])] at hown
    rcases evalStart_cases bg tok cmdline with hc | hc | ⟨_, -, hc⟩ | ⟨b, hc⟩
    · rw [hc]
      exact .of_aside rfl (.inr hmask)
    · rw [hc]
      exact .of_aside rfl (.inr hmask)
    · rw [hc]
      exact .of_aside rfl (.inr hmask)
    · rw [hc]
      exact .of_block rfl hmask

end Shell

/-- Until a launch fails, no signal is blocked between two calls of `eval`. -/
theorem mask_clear_between_calls {s : Shell}
    (h : Reaches step (fun s e => SigprocmaskSucceeds s e ∧ Launches s e) init s)
    (hready : s.control = .ready) : s.mask = fun _ => false := by
  have hclear : s.Clear := by
    apply h.invariant (Clear.of_aside rfl (.inr rfl))
    intro s e s' hs hok he
    exact hs.step hok.1 hok.2 he
  rcases hclear.aside (by rw [hready]; rfl) with hcrash | hown
  · cases hready.symm.trans hcrash
  · rwa [ownMask_of_control (by simp [hready])] at hown

/-- The job `/a` in the background. -/
theorem mask_restored_background :
    ∃ s', Evaluates init 1 ⟨[['/', 'a']], none, none, .BUILTIN_NONE⟩ ['/', 'a']
      [.next, .forked 2, .next, .next] s' ∧
        (s'.mask = init.mask ↔ Restores init 1 ⟨[['/', 'a']], none, none, .BUILTIN_NONE⟩ ['/', 'a']
          [.next, .forked 2, .next, .next]) := by
  have hsome : (after step init [.command 1 ⟨[['/', 'a']], none, none, .BUILTIN_NONE⟩ ['/', 'a'],
      .next, .forked 2, .next, .next]).isSome := by decide +kernel
  have heval : Evaluates init 1 ⟨[['/', 'a']], none, none, .BUILTIN_NONE⟩ ['/', 'a']
      [.next, .forked 2, .next, .next] ((after step init _).get hsome) :=
    ⟨(Option.some_get hsome).symm, meets_regular (by simp), rfl⟩
  exact ⟨_, heval, mask_restored_iff heval⟩

/-- The job `/a` where `fork` fails. -/
theorem mask_left_blocked :
    ∃ s', Evaluates init 0 ⟨[['/', 'a']], none, none, .BUILTIN_NONE⟩ ['/', 'a'] [.next, .fails] s' ∧
      s'.mask ≠ init.mask := by
  refine ⟨_, ⟨rfl, ?_, rfl⟩, ?_⟩
  · refine (meets_cons rfl).2 ⟨⟨by simp [SameCall], trivial⟩, ?_⟩
    exact (meets_cons rfl).2 ⟨⟨by simp [SameCall], trivial⟩, trivial⟩
  · intro h
    exact Bool.false_ne_true (congrFun h .SIGCHLD).symm

end Tshlab
end SystemsLabs
