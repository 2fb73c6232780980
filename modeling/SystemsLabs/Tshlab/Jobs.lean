import SystemsLabs.Runs.Machine

/-!
# The job list of tsh.c

`job_list` has `MAXJOBS` slots, and a slot whose pid is 0 is empty. A job keeps its slot, so
the slot stands for the `struct job_t *` that the lookups return. The loops over the list all
look for the first slot that passes a test (`firstSlot`).

`nextjid` is kept by two rules that do not agree. `deletejob` sets it to one more than the
largest job ID. `addjob` counts it up and wraps it at `MAXJOBS`, and from then on it may meet
the ID of a job that is still there: `jids_distinct_iff` says when.
-/

namespace SystemsLabs
namespace Tshlab

/-- Most jobs at any point in time. -/
def MAXJOBS : ℕ := 16

instance : NeZero MAXJOBS := ⟨by decide⟩

/-- Job states. -/
inductive JobState
  | UNDEF
  | FG
  | BG
  | ST
deriving DecidableEq

/-- `struct job_t`. -/
structure Job where
  pid : ℤ
  jid : ℤ
  state : JobState
  cmdline : List Char
deriving DecidableEq

/-- An index into `job_list`, or a pointer to that element. -/
abbrev Slot := Fin MAXJOBS

/-- `job_list`. -/
abbrev JobList := Slot → Job

/-- What `clearjob(job)` makes of a slot. -/
def clearjob : Job := ⟨0, 0, .UNDEF, []⟩

/-- What `initjobs(job_list)` makes of the list. -/
def initjobs : JobList := fun _ => clearjob

/-- The first slot whose job passes a test. -/
def firstSlot (p : Job → Bool) (jobs : JobList) : Option Slot :=
  (List.finRange MAXJOBS).find? fun i => p (jobs i)

/-- `maxjid(job_list)`. -/
def maxjid (jobs : JobList) : ℤ :=
  (List.finRange MAXJOBS).foldl (fun max i => if (jobs i).jid > max then (jobs i).jid else max) 0

/-- `fgpid(job_list)`. -/
def fgpid (jobs : JobList) : ℤ :=
  match firstSlot (fun job => job.state = .FG) jobs with
  | some i => (jobs i).pid
  | none => 0

/-- `getjobpid(job_list, pid)`. -/
def getjobpid (jobs : JobList) (pid : ℤ) : Option Slot :=
  if pid < 1 then none else firstSlot (fun job => job.pid = pid) jobs

/-- `getjobjid(job_list, jid)`. -/
def getjobjid (jobs : JobList) (jid : ℤ) : Option Slot :=
  if jid < 1 then none else firstSlot (fun job => job.jid = jid) jobs

/-- `pid2jid(pid)`. -/
def pid2jid (jobs : JobList) (pid : ℤ) : ℤ :=
  if pid < 1 then 0
  else
    match firstSlot (fun job => job.pid = pid) jobs with
    | some i => (jobs i).jid
    | none => 0

/-- The globals `job_list` and `nextjid`. -/
structure Table where
  jobs : JobList
  nextjid : ℤ

/-- The globals when the shell starts, after `initjobs`. -/
def Table.init : Table := ⟨initjobs, 1⟩

/-- One more, as an `int`. -/
def increment (x : ℤ) : ℤ := (x + 1).bmod (2 ^ 32)

/-- `addjob(job_list, pid, state, cmdline)`, or `none` where it returns 0 and changes nothing. -/
def addjob (t : Table) (pid : ℤ) (state : JobState) (cmdline : List Char) : Option Table :=
  if pid < 1 then none
  else
    match firstSlot (fun job => job.pid = 0) t.jobs with
    | none => none
    | some i =>
      some
        { jobs := Function.update t.jobs i ⟨pid, t.nextjid, state, cmdline⟩
          nextjid := if increment t.nextjid > MAXJOBS then 1 else increment t.nextjid }

/-- `deletejob(job_list, pid)`, or `none` where it returns 0 and changes nothing. -/
def deletejob (t : Table) (pid : ℤ) : Option Table :=
  if pid < 1 then none
  else
    match firstSlot (fun job => job.pid = pid) t.jobs with
    | none => none
    | some i =>
      let jobs := Function.update t.jobs i clearjob
      some { jobs := jobs, nextjid := increment (maxjid jobs) }

/-! ## Searching the list -/

/-- The slot that is found passes the test. -/
lemma firstSlot_eq_some {p : Job → Bool} {jobs : JobList} {i : Slot}
    (h : firstSlot p jobs = some i) : p (jobs i) := by
  have hi := List.find?_some h
  exact hi

/-- Nothing is found where no slot passes the test. -/
lemma firstSlot_eq_none {p : Job → Bool} {jobs : JobList} :
    firstSlot p jobs = none ↔ ∀ i, ¬ p (jobs i) := by
  simp [firstSlot]

/-- A test that only one slot passes finds it. -/
lemma firstSlot_unique {p : Job → Bool} {jobs : JobList} {i : Slot} (hi : p (jobs i))
    (hu : ∀ k, p (jobs k) → k = i) : firstSlot p jobs = some i := by
  cases h : firstSlot p jobs with
  | none => exact absurd hi (firstSlot_eq_none.1 h i)
  | some k => rw [hu k (firstSlot_eq_some h)]

/-- The job that is found has the pid. -/
lemma getjobpid_eq_some {jobs : JobList} {pid : ℤ} {i : Slot} (h : getjobpid jobs pid = some i) :
    0 < pid ∧ (jobs i).pid = pid := by
  unfold getjobpid at h
  split_ifs at h with hpid
  exact ⟨by omega, by simpa using firstSlot_eq_some h⟩

/-- No job is found where none has the pid. -/
lemma getjobpid_eq_none {jobs : JobList} {pid : ℤ} (hpid : 0 < pid) :
    getjobpid jobs pid = none ↔ ∀ i, (jobs i).pid ≠ pid := by
  rw [getjobpid, if_neg (by omega), firstSlot_eq_none]
  simp

/-- The job that is found has the ID. -/
lemma getjobjid_eq_some {jobs : JobList} {jid : ℤ} {i : Slot} (h : getjobjid jobs jid = some i) :
    0 < jid ∧ (jobs i).jid = jid := by
  unfold getjobjid at h
  split_ifs at h with hjid
  exact ⟨by omega, by simpa using firstSlot_eq_some h⟩

/-- No job is found where none has the ID. -/
lemma getjobjid_eq_none {jobs : JobList} {jid : ℤ} (hjid : 0 < jid) :
    getjobjid jobs jid = none ↔ ∀ i, (jobs i).jid ≠ jid := by
  rw [getjobjid, if_neg (by omega), firstSlot_eq_none]
  simp

/-- No job in the foreground, or the process that `fgpid` returns has one. -/
lemma fgpid_spec (jobs : JobList) :
    (fgpid jobs = 0 ∧ ∀ i, (jobs i).state ≠ .FG) ∨
      ∃ i, (jobs i).state = .FG ∧ (jobs i).pid = fgpid jobs := by
  unfold fgpid
  cases h : firstSlot (fun job => job.state = .FG) jobs with
  | none =>
    left
    exact ⟨rfl, fun i => by simpa using firstSlot_eq_none.1 h i⟩
  | some i =>
    right
    exact ⟨i, by simpa using firstSlot_eq_some h, rfl⟩

/-! ## Adding and deleting -/

/-- `addjob` takes an empty slot. -/
lemma addjob_eq_some {t t' : Table} {pid : ℤ} {state : JobState} {cmdline : List Char}
    (h : addjob t pid state cmdline = some t') :
    0 < pid ∧ ∃ i, (t.jobs i).pid = 0 ∧
      t'.jobs = Function.update t.jobs i ⟨pid, t.nextjid, state, cmdline⟩ := by
  by_cases hpid : pid < 1
  · rw [addjob, if_pos hpid] at h
    cases h
  rw [addjob, if_neg hpid] at h
  cases hi : firstSlot (fun job => job.pid = 0) t.jobs with
  | none =>
    rw [hi] at h
    cases h
  | some i =>
    rw [hi] at h
    cases h
    exact ⟨by omega, i, by simpa using firstSlot_eq_some hi, rfl⟩

/-- `addjob` fails only when every slot is taken. -/
lemma addjob_eq_none {t : Table} {pid : ℤ} {state : JobState} {cmdline : List Char} (hpid : 0 < pid)
    (h : addjob t pid state cmdline = none) : ∀ i, (t.jobs i).pid ≠ 0 := by
  rw [addjob, if_neg (by omega)] at h
  cases hi : firstSlot (fun job => job.pid = 0) t.jobs with
  | none => simpa using firstSlot_eq_none.1 hi
  | some i =>
    rw [hi] at h
    cases h

/-- `deletejob` clears a slot of the process. -/
lemma deletejob_eq_some {t t' : Table} {pid : ℤ} (h : deletejob t pid = some t') :
    0 < pid ∧ ∃ i, (t.jobs i).pid = pid ∧ t'.jobs = Function.update t.jobs i clearjob := by
  by_cases hpid : pid < 1
  · rw [deletejob, if_pos hpid] at h
    cases h
  rw [deletejob, if_neg hpid] at h
  cases hi : firstSlot (fun job => job.pid = pid) t.jobs with
  | none =>
    rw [hi] at h
    cases h
  | some i =>
    rw [hi] at h
    cases h
    exact ⟨by omega, i, by simpa using firstSlot_eq_some hi, rfl⟩

/-- `deletejob` fails only when no slot has the process. -/
lemma deletejob_eq_none {t : Table} {pid : ℤ} (hpid : 0 < pid) (h : deletejob t pid = none) :
    ∀ i, (t.jobs i).pid ≠ pid := by
  rw [deletejob, if_neg (by omega)] at h
  cases hi : firstSlot (fun job => job.pid = pid) t.jobs with
  | none => simpa using firstSlot_eq_none.1 hi
  | some i =>
    rw [hi] at h
    cases h

/-! ## Job IDs -/

/-- The calls that change the table. -/
inductive Call
  | addjob (pid : ℤ) (state : JobState) (cmdline : List Char)
  | deletejob (pid : ℤ)
deriving DecidableEq

namespace Table

/-- The jobs of the list, each under its own pid, and nothing in the empty slots. -/
structure WellFormed (t : Table) : Prop where
  distinct : ∀ i k, (t.jobs i).pid ≠ 0 → (t.jobs i).pid = (t.jobs k).pid → i = k
  nonneg : ∀ i, 0 ≤ (t.jobs i).pid
  empty : ∀ i, (t.jobs i).pid = 0 → (t.jobs i).jid = 0

/-- A caller adds positive pids only, and none that is in the list. -/
def Legal (t : Table) : Call → Prop
  | .addjob pid _ _ => 0 < pid ∧ ∀ i, (t.jobs i).pid ≠ pid
  | .deletejob _ => True

instance (t : Table) (c : Call) : Decidable (t.Legal c) := by
  cases c <;> unfold Legal <;> infer_instance

/-- A call, with the table as it is where the call returns 0. -/
def call (t : Table) : Call → Table
  | .addjob pid state cmdline => (addjob t pid state cmdline).getD t
  | .deletejob pid => (deletejob t pid).getD t

/-- A legal call. -/
def step (t : Table) (c : Call) : Option Table := if t.Legal c then some (t.call c) else none

/-- The IDs of the jobs are positive and pairwise distinct, so a job is found by its ID. -/
structure JidsDistinct (t : Table) : Prop where
  pos : ∀ i, (t.jobs i).pid ≠ 0 → 0 < (t.jobs i).jid
  distinct : ∀ i k, (t.jobs i).pid ≠ 0 → (t.jobs k).pid ≠ 0 → (t.jobs i).jid = (t.jobs k).jid → i = k
  found : ∀ i, (t.jobs i).pid ≠ 0 → getjobjid t.jobs (pid2jid t.jobs (t.jobs i).pid) = some i

/-- `addjob` is called with a free slot only while `nextjid` is positive and no job has it. -/
def FreshJid (t : Table) : Call → Prop
  | .addjob _ _ _ => (∃ i, (t.jobs i).pid = 0) → 0 < t.nextjid ∧ getjobjid t.jobs t.nextjid = none
  | .deletejob _ => True

instance (t : Table) (c : Call) : Decidable (t.FreshJid c) := by
  cases c <;> unfold FreshJid <;> infer_instance

variable {t t' : Table} {pid : ℤ} {i : Slot} {job : Job} {n : ℤ}

/-- A slot is filled with a job of a new pid. -/
lemma WellFormed.fill (h : t.WellFormed) (hnew : ∀ k, (t.jobs k).pid ≠ job.pid) (hpos : 0 < job.pid)
    (ht : t'.jobs = Function.update t.jobs i job) : t'.WellFormed where
  distinct := by
    intro a b ha hab
    rw [ht, Function.update_apply] at ha
    rw [ht, Function.update_apply, Function.update_apply] at hab
    split_ifs at ha hab with h₁ h₂ h₂
    · rw [h₁, h₂]
    · exact absurd hab.symm (hnew b)
    · exact absurd hab (hnew a)
    · exact h.distinct a b ha hab
  nonneg := by
    intro a
    rw [ht, Function.update_apply]
    split_ifs
    · exact hpos.le
    · exact h.nonneg a
  empty := by
    intro a ha
    rw [ht, Function.update_apply] at ha ⊢
    split_ifs at ha ⊢ with h₁
    · omega
    · exact h.empty a ha

/-- A slot is cleared. -/
lemma WellFormed.clear (h : t.WellFormed) (ht : t'.jobs = Function.update t.jobs i clearjob) :
    t'.WellFormed where
  distinct := by
    intro a b ha hab
    rw [ht, Function.update_apply] at ha
    rw [ht, Function.update_apply, Function.update_apply] at hab
    split_ifs at ha hab with h₁ h₂ h₂
    · exact absurd rfl ha
    · exact absurd rfl ha
    · exact absurd hab ha
    · exact h.distinct a b ha hab
  nonneg := by
    intro a
    rw [ht, Function.update_apply]
    split_ifs
    · exact le_rfl
    · exact h.nonneg a
  empty := by
    intro a ha
    rw [ht, Function.update_apply] at ha ⊢
    split_ifs at ha ⊢ with h₁
    · rfl
    · exact h.empty a ha

/-- The list is empty at first. -/
lemma wellFormed_init : init.WellFormed where
  distinct := fun _ _ h _ => absurd rfl h
  nonneg := fun _ => le_rfl
  empty := fun _ _ => rfl

/-- With distinct IDs the search for a job's ID finds that job. -/
lemma WellFormed.found (h : t.WellFormed) (hpos : ∀ i, (t.jobs i).pid ≠ 0 → 0 < (t.jobs i).jid)
    (hd : ∀ i k, (t.jobs i).pid ≠ 0 → (t.jobs k).pid ≠ 0 → (t.jobs i).jid = (t.jobs k).jid → i = k)
    (i : Slot) (hi : (t.jobs i).pid ≠ 0) :
    getjobjid t.jobs (pid2jid t.jobs (t.jobs i).pid) = some i := by
  have hpid : ¬ (t.jobs i).pid < 1 := by
    have := h.nonneg i
    omega
  have hslot : firstSlot (fun job => job.pid = (t.jobs i).pid) t.jobs = some i := by
    apply firstSlot_unique
    · simp
    · intro k hk
      exact (h.distinct i k hi (by simpa using hk : (t.jobs k).pid = _).symm).symm
  have hjid : pid2jid t.jobs (t.jobs i).pid = (t.jobs i).jid := by
    rw [pid2jid, if_neg hpid, hslot]
  rw [hjid, getjobjid, if_neg (by have := hpos i hi; omega)]
  apply firstSlot_unique
  · simp
  · intro k hk
    have hk' : (t.jobs k).jid = (t.jobs i).jid := by simpa using hk
    -- a slot with a positive ID is not empty
    have hne : (t.jobs k).pid ≠ 0 := by
      intro h0
      have := h.empty k h0
      have := hpos i hi
      omega
    exact hd k i hne hi hk'

/-- A slot is written with nothing, or with a job under a positive ID that no job has. -/
lemma JidsDistinct.update (h : t.JidsDistinct) (hw : t'.WellFormed)
    (hjob : job.pid ≠ 0 → 0 < job.jid ∧ ∀ k, (t.jobs k).jid ≠ job.jid)
    (ht : t'.jobs = Function.update t.jobs i job) : t'.JidsDistinct := by
  have hp : ∀ a, (t'.jobs a).pid ≠ 0 → 0 < (t'.jobs a).jid := by
    intro a ha
    rw [ht, Function.update_apply] at ha ⊢
    split_ifs at ha ⊢
    · exact (hjob ha).1
    · exact h.pos a ha
  have hd : ∀ a b, (t'.jobs a).pid ≠ 0 → (t'.jobs b).pid ≠ 0 →
      (t'.jobs a).jid = (t'.jobs b).jid → a = b := by
    intro a b ha hb hab
    rw [ht, Function.update_apply] at ha hb
    rw [ht, Function.update_apply, Function.update_apply] at hab
    split_ifs at ha hb hab with h₁ h₂ h₂
    · rw [h₁, h₂]
    · exact absurd hab.symm ((hjob ha).2 b)
    · exact absurd hab ((hjob hb).2 a)
    · exact h.distinct a b ha hb hab
  exact ⟨hp, hd, hw.found hp hd⟩

/-- A job with a new ID keeps the IDs distinct. -/
lemma JidsDistinct.fill (h : t.JidsDistinct) (hw : t'.WellFormed) (hpos : 0 < job.jid)
    (hnew : ∀ k, (t.jobs k).jid ≠ job.jid) (ht : t'.jobs = Function.update t.jobs i job) :
    t'.JidsDistinct :=
  h.update hw (fun _ => ⟨hpos, hnew⟩) ht

/-- Clearing a slot keeps the IDs distinct. -/
lemma JidsDistinct.clear (h : t.JidsDistinct) (hw : t'.WellFormed)
    (ht : t'.jobs = Function.update t.jobs i clearjob) : t'.JidsDistinct :=
  h.update hw (fun hpid => absurd rfl hpid) ht

/-- What a legal call does: a new job in an empty slot, a slot cleared, or nothing. -/
lemma step_cases {c : Call} (h : step t c = some t') :
    (∃ pid state cmdline i, c = .addjob pid state cmdline ∧ (0 < pid ∧ ∀ k, (t.jobs k).pid ≠ pid) ∧
      (t.jobs i).pid = 0 ∧ t'.jobs = Function.update t.jobs i ⟨pid, t.nextjid, state, cmdline⟩) ∨
    (∃ pid i, c = .deletejob pid ∧ t'.jobs = Function.update t.jobs i clearjob) ∨
    (t' = t ∧ ∀ pid state cmdline, c = .addjob pid state cmdline → ∀ i, (t.jobs i).pid ≠ 0) := by
  unfold step at h
  split_ifs at h with hlegal
  cases h
  cases c with
  | addjob pid state cmdline =>
    cases hadd : addjob t pid state cmdline with
    | none =>
      right; right
      refine ⟨by rw [call, hadd, Option.getD_none], ?_⟩
      intro _ _ _ _
      exact addjob_eq_none hlegal.1 hadd
    | some t' =>
      left
      obtain ⟨hpid, i, hi, ht⟩ := addjob_eq_some hadd
      refine ⟨pid, state, cmdline, i, rfl, hlegal, hi, ?_⟩
      rw [call, hadd, Option.getD_some, ht]
  | deletejob pid =>
    right
    cases hdel : deletejob t pid with
    | none =>
      right
      exact ⟨by rw [call, hdel, Option.getD_none], fun _ _ _ hc => by cases hc⟩
    | some t' =>
      left
      obtain ⟨-, i, -, ht⟩ := deletejob_eq_some hdel
      exact ⟨pid, i, rfl, by rw [call, hdel, Option.getD_some, ht]⟩

/-- Legal calls keep the list well formed. -/
lemma WellFormed.step {c : Call} (h : t.WellFormed) (hs : step t c = some t') : t'.WellFormed := by
  obtain ⟨pid, state, cmdline, i, -, hlegal, -, ht⟩ | ⟨pid, i, -, ht⟩ | ⟨rfl, -⟩ := step_cases hs
  · exact h.fill hlegal.2 hlegal.1 ht
  · exact h.clear ht
  · exact h

/-- A call that meets the condition keeps the IDs distinct. -/
lemma JidsDistinct.step {c : Call} (h : t.JidsDistinct) (hw : t'.WellFormed) (hc : t.FreshJid c)
    (hs : step t c = some t') : t'.JidsDistinct := by
  obtain ⟨pid, state, cmdline, i, rfl, -, hi, ht⟩ | ⟨pid, i, -, ht⟩ | ⟨rfl, -⟩ := step_cases hs
  · obtain ⟨hpos, hnone⟩ := hc ⟨i, hi⟩
    exact h.fill hw hpos ((getjobjid_eq_none hpos).1 hnone) ht
  · exact h.clear hw ht
  · exact h

/-- Any other call gives a job an ID that is not positive or that another job has. -/
lemma not_jidsDistinct_step {c : Call} (h : t.WellFormed) (hc : ¬ t.FreshJid c)
    (hs : step t c = some t') : ¬ t'.JidsDistinct := by
  intro hd
  cases c with
  | deletejob pid => exact hc trivial
  | addjob pid state cmdline =>
    have hfree : ∃ i, (t.jobs i).pid = 0 := by
      by_contra hfull
      exact hc fun hi => absurd hi hfull
    obtain ⟨_, _, _, i, hcall, hlegal, hi, ht⟩ | ⟨_, _, hcall, -⟩ | ⟨-, hfull⟩ := step_cases hs
    · cases hcall
      have hnew : t'.jobs i = ⟨pid, t.nextjid, state, cmdline⟩ := by rw [ht, Function.update_self]
      have hpos : 0 < t.nextjid := by
        have := hd.pos i (by rw [hnew]; exact hlegal.1.ne')
        rwa [hnew] at this
      -- the ID is positive, so it is one that a job has already
      cases hk : getjobjid t.jobs t.nextjid with
      | none => exact hc fun _ => ⟨hpos, hk⟩
      | some k =>
        have hjid := (getjobjid_eq_some hk).2
        have hkpid : (t.jobs k).pid ≠ 0 := by
          intro h0
          have := h.empty k h0
          omega
        have hki : k ≠ i := by
          intro he
          exact hkpid (he ▸ hi)
        have hold : t'.jobs k = t.jobs k := by rw [ht, Function.update_of_ne hki]
        exact hki (hd.distinct k i (by rwa [hold]) (by rw [hnew]; exact hlegal.1.ne')
          (by rw [hold, hnew, hjid]))
    · cases hcall
    · obtain ⟨i, hi⟩ := hfree
      exact hfull _ _ _ rfl i hi

/-- There are no IDs at first. -/
lemma jidsDistinct_init : init.JidsDistinct where
  pos := fun _ h => absurd rfl h
  distinct := fun _ _ h _ _ => absurd rfl h
  found := fun _ h => absurd rfl h

end Table

open Runs in
/-- In a run of legal calls the IDs of the jobs are positive and distinct throughout, exactly
if every `addjob` that takes a slot finds `nextjid` positive and the ID of no job. -/
theorem jids_distinct_iff (calls : List Call) :
    Passes Table.step Table.JidsDistinct Table.init calls ↔
      Meets Table.step Table.FreshJid Table.init calls := by
  apply passes_iff_meets (I := fun t => t.WellFormed ∧ t.JidsDistinct)
  · intro t ht
    exact ht.2
  · intro t c t' ht hc hs
    have hw := ht.1.step hs
    exact ⟨hw, ht.2.step hw hc hs⟩
  · intro t c t' ht hc hs
    exact Table.not_jidsDistinct_step ht.1 hc hs
  · exact ⟨Table.wellFormed_init, Table.jidsDistinct_init⟩

/-- Sixteen jobs, of which the second and the third end. The next two get the IDs 17 and 1, and
the first job still has ID 1. -/
def wrapped : List Call :=
  (List.range 16).map (fun k => .addjob (100 + k) .BG []) ++
    [.deletejob 101, .deletejob 102, .addjob 116 .BG [], .addjob 117 .BG []]

open Runs in
theorem jids_collide : ¬ ∀ calls t, after Table.step Table.init calls = some t →
    t.JidsDistinct := by
  intro h
  have hrun : (after Table.step Table.init wrapped).map (fun t => (t.jobs 0, t.jobs 2)) =
      some (⟨100, 1, .BG, []⟩, ⟨117, 1, .BG, []⟩) := by decide +kernel
  obtain ⟨t, ht, hjobs⟩ := Option.map_eq_some_iff.1 hrun
  obtain ⟨h0, h2⟩ := Prod.mk.inj hjobs
  have h02 : (0 : Slot) = 2 := by
    apply (h wrapped t ht).distinct
    · rw [h0]
      decide
    · rw [h2]
      decide
    · rw [h0, h2]
  exact absurd h02 (by decide)

end Tshlab
end SystemsLabs
