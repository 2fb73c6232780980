import SystemsLabs.Memory.Program

/-!
# Loops

Counting loops over programs. The body gets the counter and the local variables that it carries
from one round to the next, and returns them. A loop is verified with an invariant of the
counter, the locals and the state that each round moves on by one increment (`wp_forLoop`), and
a round that goes wrong makes the loop go wrong (`not_wp_forLoop`).
-/

namespace SystemsLabs
namespace Memory

section Statements
variable {σ α : Type}

/-- `if (p) x;` -/
def runIf (p : Prop) [Decidable p] (x : Prog σ Unit) : Prog σ Unit := if p then x else pure ()

@[simp] lemma wp_runIf (p : Prop) [Decidable p] (x : Prog σ Unit) (Q : Unit → σ → Prop) (s : σ) :
    wp (runIf p x) Q s ↔ if p then wp x Q s else Q () s := by
  rw [runIf, wp_ite, wp_pure]

/-- A condition that is checked where it stands. -/
def check (p : Prop) [Decidable p] : Prog σ Unit := if p then pure () else stuck

@[simp] lemma wp_check (p : Prop) [Decidable p] (Q : Unit → σ → Prop) (s : σ) :
    wp (check p) Q s ↔ p ∧ Q () s := by
  rw [check, wp_ite, wp_pure]
  split_ifs with hp
  · exact (and_iff_right hp).symm
  · exact iff_of_false (wp_stuck Q s) fun h => hp h.1

/-- The value of a local variable, which has to be initialised. -/
def value (x : Option α) : Prog σ α := fun s => x.map fun a => (a, s)

@[simp] lemma wp_value (x : Option α) (Q : α → σ → Prop) (s : σ) :
    wp (value x) Q s ↔ ∃ a, x = some a ∧ Q a s := by
  cases x with
  | none =>
    constructor
    · rintro ⟨_, _, hrun, _⟩
      cases hrun
    · rintro ⟨_, hsome, _⟩
      cases hsome
  | some a =>
    have hrun : (value (some a) : Prog σ α).run s = some (a, s) := rfl
    rw [wp_of_run hrun]
    constructor
    · exact fun hq => ⟨a, rfl, hq⟩
    · rintro ⟨_, ⟨⟩, hq⟩
      exact hq

/-- An access that goes wrong unless its condition holds. -/
lemma wp_access {x : Prog σ α} {s : σ} {p : Prop} {a : p → α} {t : p → σ}
    (hright : ∀ h, x.run s = some (a h, t h)) (hwrong : ¬ p → x.run s = none)
    {Q : α → σ → Prop} : wp x Q s ↔ ∃ h, Q (a h) (t h) := by
  by_cases h : p
  · rw [wp_of_run (hright h)]
    exact ⟨fun hq => ⟨h, hq⟩, fun ⟨_, hq⟩ => hq⟩
  · refine iff_of_false ?_ fun ⟨hp, _⟩ => h hp
    rintro ⟨_, _, hsome, _⟩
    cases (hwrong h).symm.trans hsome

end Statements

section Loops
variable {σ τ ρ : Type}

/-- `for (; i < hi; i += inc)`. A loop that does not get on does not return. -/
def forLoop (hi inc : ℕ) (body : ℕ → τ → Prog σ τ) (i : ℕ) (t : τ) : Prog σ τ :=
  if i < hi then
    if 0 < inc then body i t >>= forLoop hi inc body (i + inc) else stuck
  else pure t
termination_by hi - i

variable {hi inc : ℕ} {body : ℕ → τ → Prog σ τ}

/-- What each round keeps and moves on by one increment holds where the loop ends. -/
theorem wp_forLoop {I : ℕ → τ → σ → Prop} (hinc : 0 < inc)
    (hbody : ∀ i t s, i < hi → I i t s → wp (body i t) (I (i + inc)) s) {i : ℕ} {t : τ} {s : σ}
    (h : I i t s) : wp (forLoop hi inc body i t) (fun t s => ∃ i, hi ≤ i ∧ I i t s) s := by
  rw [forLoop]
  split_ifs with hlt
  · refine wp_call (hbody i t s hlt h) ?_
    intro t' s' h'
    exact wp_forLoop hinc hbody h'
  · exact (wp_pure _ _ _).2 ⟨i, not_lt.1 hlt, h⟩
termination_by hi - i

/-- A loop goes wrong in a round that does. -/
theorem not_wp_forLoop {n i : ℕ} {t : τ} {s : σ} {Q : τ → σ → Prop} (hn : i + n * inc < hi)
    (hround : ∀ t s, ¬ wp (body (i + n * inc) t) (fun _ _ => True) s) :
    ¬ wp (forLoop hi inc body i t) Q s := by
  induction n generalizing i t s with
  | zero =>
    rw [Nat.zero_mul, Nat.add_zero] at hn hround
    rw [forLoop, if_pos hn, wp_ite]
    split_ifs with hinc
    · intro hwp
      exact hround t s (wp_mono ((wp_bind _ _ _ _).1 hwp) fun _ _ _ => trivial)
    · exact wp_stuck Q s
  | succ n ih =>
    have hnext : i + (n + 1) * inc = i + inc + n * inc := by ring
    rw [hnext] at hn hround
    rw [forLoop, if_pos (by omega), wp_ite]
    split_ifs with hinc
    · intro hwp
      obtain ⟨t', s', -, hrest⟩ := (wp_bind _ _ _ _).1 hwp
      exact ih hn hround hrest
    · exact wp_stuck Q s

/-- `for (; i < hi; i++)` whose body may return from the function. -/
def searchLoop (hi : ℕ) (body : ℕ → Prog σ (Option ρ)) (i : ℕ) : Prog σ (Option ρ) :=
  if i < hi then
    body i >>= fun r => if r.isSome then pure r else searchLoop hi body (i + 1)
  else pure none
termination_by hi - i

/-- A loop none of whose rounds returns runs to its end. -/
theorem wp_searchLoop {hi : ℕ} {body : ℕ → Prog σ (Option ρ)} {s : σ}
    (hbody : ∀ i < hi, wp (body i) (fun r s' => r = none ∧ s' = s) s) (i : ℕ) :
    wp (searchLoop hi body i) (fun r s' => r = none ∧ s' = s) s := by
  rw [searchLoop]
  split_ifs with hlt
  · refine wp_call (hbody i hlt) ?_
    rintro _ _ ⟨rfl, rfl⟩
    exact wp_searchLoop hbody (i + 1)
  · exact (wp_pure _ _ _).2 ⟨rfl, rfl⟩
termination_by hi - i

end Loops

end Memory
end SystemsLabs
