import SystemsLabs.Runs.Machine

/-!
# How a connection is handed to its thread

`main` stores each accepted descriptor in `*connfd` and then creates a thread that reads it
there. The semaphore is taken after the store and given back before the read, so the next
store may come first. Every statement is one step, and `main` and the threads take turns in
any order. Descriptors are named by the order in which they are accepted.
-/

namespace SystemsLabs
namespace Proxylab

open Runs

/-- The statement of the loop of `main` that comes next. -/
inductive MainPc
  | accept
  | wait
  | create
deriving DecidableEq

/-- The statement of `execute_job` that comes next, with its local `connfd`. -/
inductive Worker
  | post
  | read
  | process (connfd : ℕ)
  | closed (connfd : ℕ)
deriving DecidableEq

/-- What the thread has read. -/
def Worker.connfd : Worker → Option ℕ
  | post => none
  | read => none
  | process connfd => some connfd
  | closed connfd => some connfd

/-- `*connfd`, the semaphore, `main` and its threads in the order of their creation. -/
structure HandOff where
  connfd : Option ℕ
  mutex : ℕ
  pc : MainPc
  accepted : ℕ
  workers : List Worker

/-- Who takes a step. -/
inductive Turn
  | main
  | worker (i : ℕ)

namespace HandOff

/-- Nothing is accepted yet, and the semaphore is 1. -/
def start : HandOff := ⟨none, 1, .accept, 0, []⟩

def stepMain (s : HandOff) : Option HandOff :=
  match s.pc with
  | .accept =>
    some { s with connfd := some s.accepted, accepted := s.accepted + 1, pc := .wait }
  | .wait => if 0 < s.mutex then some { s with mutex := s.mutex - 1, pc := .create } else none
  | .create => some { s with workers := s.workers ++ [.post], pc := .accept }

def stepWorker (s : HandOff) (i : ℕ) : Option HandOff :=
  match s.workers[i]? with
  | some .post => some { s with mutex := s.mutex + 1, workers := s.workers.set i .read }
  | some .read => s.connfd.map fun fd => { s with workers := s.workers.set i (.process fd) }
  | some (.process fd) => some { s with workers := s.workers.set i (.closed fd) }
  | some (.closed _) => none
  | none => none

def step (s : HandOff) : Turn → Option HandOff
  | .main => s.stepMain
  | .worker i => s.stepWorker i

/-- What thread `i` has read from `*connfd`. -/
def got (s : HandOff) (i : ℕ) : Option ℕ := s.workers[i]?.bind Worker.connfd

/-- No descriptor is read by two threads, and every descriptor but the last was read by its
thread before the next one took its place. -/
def Delivers (s : HandOff) : Prop :=
  (∀ i j fd, s.got i = some fd → s.got j = some fd → i = j) ∧
    ∀ i, i + 1 < s.accepted → s.got i = some i

/-- The step is no store to `*connfd` while a thread still has to read it. -/
def Read (s : HandOff) (t : Turn) : Prop :=
  t = .main → s.pc = .accept → ∀ i, i < s.workers.length → s.got i ≠ none

/-- As long as no store comes too early, thread `i` reads descriptor `i`. -/
structure InStep (s : HandOff) : Prop where
  created : s.accepted = s.workers.length + if s.pc = .accept then 0 else 1
  cell : ∀ i, s.accepted = i + 1 → s.connfd = some i
  own : ∀ i fd, s.got i = some fd → fd = i
  delivered : ∀ i, i + 1 < s.accepted → s.got i = some i

variable {s s' : HandOff} {t : Turn} {i j : ℕ} {w : Worker}

/-- With the threads in step, each has got its own connection. -/
lemma InStep.delivers (h : s.InStep) : s.Delivers := by
  refine ⟨?_, h.delivered⟩
  intro i j fd hi hj
  rw [← h.own i fd hi, ← h.own j fd hj]

/-- A thread that reads gets what `connfd` holds then. -/
lemma got_set (hi : i < s.workers.length) :
    got { s with workers := s.workers.set i w } j = if j = i then w.connfd else s.got j := by
  simp only [got, List.getElem?_set]
  by_cases hij : i = j
  · rw [if_pos hij, if_pos hij.symm, if_pos hi, Option.bind_some]
  · rw [if_neg hij, if_neg (Ne.symm hij)]

/-- A new thread has got nothing yet. -/
lemma got_create : got { s with workers := s.workers ++ [.post], pc := .accept } j = s.got j := by
  simp only [got]
  rcases lt_or_ge j s.workers.length with hj | hj
  · rw [List.getElem?_append_left hj]
  · rw [List.getElem?_eq_none hj, List.getElem?_append_right hj]
    cases hd : j - s.workers.length with
    | zero => rfl
    | succ n => rfl

/-- A thread that changes nothing about what it has read. -/
lemma InStep.set (h : s.InStep) (mutex : ℕ) (hi : s.workers[i]? = some w) {w' : Worker}
    (hw : w'.connfd = w.connfd) :
    InStep { s with mutex := mutex, workers := s.workers.set i w' } := by
  obtain ⟨hlt, -⟩ := List.getElem?_eq_some_iff.1 hi
  have hgot : ∀ j, got { s with mutex := mutex, workers := s.workers.set i w' } j = s.got j := by
    intro j
    show got { s with workers := s.workers.set i w' } j = s.got j
    rw [got_set hlt]
    split_ifs with hj
    · rw [hw, hj, got, hi, Option.bind_some]
    · rfl
  refine ⟨?_, h.cell, ?_, ?_⟩
  · rw [List.length_set]
    exact h.created
  · intro j fd hj
    rw [hgot] at hj
    exact h.own j fd hj
  · intro j hj
    rw [hgot]
    exact h.delivered j hj

/-- The thread that still has to read is the last one, and finds its own descriptor. -/
lemma InStep.read (h : s.InStep) (hi : s.workers[i]? = some .read) {fd : ℕ}
    (hfd : s.connfd = some fd) :
    InStep { s with workers := s.workers.set i (.process fd) } := by
  obtain ⟨hlt, -⟩ := List.getElem?_eq_some_iff.1 hi
  have hnone : s.got i = none := by
    rw [got, hi]
    rfl
  have hlast : s.accepted = i + 1 := by
    have hcreated := h.created
    have hdelivered := h.delivered i
    by_contra hne
    rw [hdelivered (by omega)] at hnone
    cases hnone
  have hown : fd = i := Option.some.inj (hfd.symm.trans (h.cell i hlast))
  refine ⟨?_, h.cell, ?_, ?_⟩
  · rw [List.length_set]
    exact h.created
  · intro j fd' hj
    rw [got_set hlt] at hj
    split_ifs at hj with hji
    · cases hj
      rw [hown, hji]
    · exact h.own j fd' hj
  · intro j hj
    rw [got_set hlt]
    split_ifs with hji
    · rw [hji, hown]
      rfl
    · exact h.delivered j hj

/-- As long as each `accept` comes after the reads before it, the threads stay in step. -/
lemma InStep.keep (h : s.InStep) (hok : Read s t) (he : step s t = some s') : s'.InStep := by
  have hcreated := h.created
  cases t with
  | main =>
    rw [HandOff.step, stepMain] at he
    cases hpc : s.pc with
    | accept =>
      rw [hpc] at he hcreated
      cases he
      refine ⟨?_, ?_, h.own, ?_⟩
      · show s.accepted + 1 = _
        rw [hcreated]
        rfl
      · intro i hi
        rw [Nat.succ.inj hi]
      · -- every thread has read, and each of them its own
        intro i hi
        have hread := hok rfl hpc i (by simp only [if_true] at hcreated hi; omega)
        obtain ⟨fd, hfd⟩ := Option.ne_none_iff_exists'.1 hread
        have hi' : s.got i = some i := by rw [hfd, h.own i fd hfd]
        exact hi'
    | wait =>
      rw [hpc] at he hcreated
      simp only at he
      split_ifs at he
      cases he
      exact ⟨hcreated, h.cell, h.own, h.delivered⟩
    | create =>
      rw [hpc] at he hcreated
      cases he
      refine ⟨?_, h.cell, ?_, ?_⟩
      · rw [hcreated, List.length_append]
        rfl
      · intro i fd hi
        rw [got_create] at hi
        exact h.own i fd hi
      · intro i hi
        rw [got_create]
        exact h.delivered i hi
  | worker i =>
    rw [HandOff.step, stepWorker] at he
    cases hi : s.workers[i]? with
    | none =>
      rw [hi] at he
      cases he
    | some w =>
      rw [hi] at he
      cases w with
      | post =>
        cases he
        exact h.set (s.mutex + 1) hi rfl
      | read =>
        obtain ⟨fd, hfd, rfl⟩ := Option.map_eq_some_iff.1 he
        exact h.read hi hfd
      | process fd =>
        cases he
        exact h.set s.mutex hi rfl
      | closed fd => cases he

/-- A store that comes too early replaces a descriptor that its thread has not read. -/
lemma InStep.spoil (h : s.InStep) (hok : ¬ Read s t) (he : step s t = some s') :
    ¬ s'.Delivers := by
  simp only [Read, not_forall, not_not] at hok
  obtain ⟨rfl, hpc, i, hi, hnone⟩ := hok
  have hcreated := h.created
  rw [HandOff.step, stepMain, hpc] at he
  cases he
  rw [hpc, if_pos rfl] at hcreated
  intro hdelivers
  have hgot : s.got i = some i := hdelivers.2 i (by show i + 1 < s.accepted + 1; omega)
  rw [hnone] at hgot
  cases hgot

/-- Every descriptor is read by its own thread, and by no other, exactly in those runs where
`main` stores the next one only when all its threads have read. -/
theorem delivers_iff (ts : List Turn) :
    Passes step Delivers start ts ↔ Meets step Read start ts := by
  apply passes_iff_meets (I := InStep)
  · intro s hs
    exact hs.delivers
  · intro s t s' hs hok he
    exact hs.keep hok he
  · intro s t s' hs hok he
    exact hs.spoil hok he
  · refine ⟨rfl, ?_, ?_, ?_⟩
    · intro i hi
      cases hi
    · intro i fd hi
      cases hi
    · intro i hi
      exact absurd hi (Nat.not_lt_zero _)

/-- The second connection is accepted before the first thread runs. Both threads read it. -/
theorem second_overwrites_first :
    ∃ s, after step start [.main, .main, .main, .main, .worker 0, .worker 0, .main, .main,
        .worker 1, .worker 1] = some s ∧
      s.got 0 = some 1 ∧ s.got 1 = some 1 ∧ ¬ s.Delivers := by
  refine ⟨_, rfl, rfl, rfl, ?_⟩
  intro hdelivers
  exact absurd (hdelivers.1 0 1 1 rfl rfl) zero_ne_one

end HandOff

end Proxylab
end SystemsLabs
