import Mathlib.Logic.Relation
import Mathlib.Tactic

/-!
# Machines and their runs

A machine is a step function: an event takes a state to the next one, or cannot occur in it
(`none`). The events carry every choice that the machine does not make itself, so a list of
events is a run, and to speak about all lists is to speak about all interleavings.

`Reaches` says which states a run can lead to when each of its steps meets a condition, and
`Reaches.invariant` is the induction over such a run. `Passes` and `Meets` speak about one
given run, about its states and about its steps. `passes_iff_meets` compares them: where a
step that meets the condition keeps an invariant and any other step spoils the property at
once, the property holds throughout a run exactly if all its steps meet the condition.
-/

namespace SystemsLabs
namespace Runs

section Machine
variable {σ ε : Type*} (step : σ → ε → Option σ) (ok : σ → ε → Prop) (P : σ → Prop)

/-- A run all whose steps meet `ok` leads from the one state to the other. -/
def Reaches : σ → σ → Prop :=
  Relation.ReflTransGen fun s s' => ∃ e, ok s e ∧ step s e = some s'

/-- The state after a list of events, if they can occur one after the other. -/
def after (s : σ) (es : List ε) : Option σ := es.foldlM step s

/-- The property holds in every state that the run passes through. -/
def Passes : σ → List ε → Prop
  | s, [] => P s
  | s, e :: es => P s ∧ ∀ s' ∈ step s e, Passes s' es

/-- Every step of the run meets the condition. -/
def Meets : σ → List ε → Prop
  | _, [] => True
  | s, e :: es => ∀ s' ∈ step s e, ok s e ∧ Meets s' es

instance [∀ s e, Decidable (ok s e)] : ∀ (s : σ) (es : List ε), Decidable (Meets step ok s es)
  | _, [] => inferInstanceAs (Decidable True)
  | s, e :: es =>
    have : ∀ s', Decidable (Meets step ok s' es) := fun s' => instDecidableMeets s' es
    inferInstanceAs (Decidable (∀ s' ∈ step s e, ok s e ∧ Meets step ok s' es))

variable {step ok P} {s s' t : σ} {e : ε} {es : List ε}

lemma Reaches.refl (s : σ) : Reaches step ok s s := Relation.ReflTransGen.refl

lemma Reaches.tail (h : Reaches step ok s t) (hok : ok t e) (he : step t e = some s') :
    Reaches step ok s s' := Relation.ReflTransGen.tail h ⟨e, hok, he⟩

lemma Reaches.head (hok : ok s e) (he : step s e = some t) (h : Reaches step ok t s') :
    Reaches step ok s s' := Relation.ReflTransGen.head ⟨e, hok, he⟩ h

/-- What one step keeps, a run keeps. -/
theorem Reaches.invariant {I : σ → Prop} (h : Reaches step ok s t) (hs : I s)
    (hstep : ∀ s e s', I s → ok s e → step s e = some s' → I s') : I t := by
  induction h with
  | refl => exact hs
  | tail _ he ih =>
    obtain ⟨e, hok, he⟩ := he
    exact hstep _ e _ ih hok he

lemma after_cons : after step s (e :: es) = (step s e).bind fun s' => after step s' es := rfl

/-- A run is its first step and the rest. -/
lemma after_cons_eq_some :
    after step s (e :: es) = some t ↔ ∃ s', step s e = some s' ∧ after step s' es = some t :=
  Option.bind_eq_some_iff

/-- The condition is met step by step. -/
lemma meets_cons (he : step s e = some s') :
    Meets step ok s (e :: es) ↔ ok s e ∧ Meets step ok s' es := by
  constructor
  · intro h
    exact h s' he
  · intro h t ht
    obtain rfl := Option.some.inj (he.symm.trans ht)
    exact h

/-- A list of events whose steps meet the condition is a run. -/
lemma reaches_of_after (h : after step s es = some t) (hok : Meets step ok s es) :
    Reaches step ok s t := by
  induction es generalizing s with
  | nil =>
    cases h
    exact Reaches.refl t
  | cons e es ih =>
    rw [after_cons] at h
    cases he : step s e with
    | none =>
      rw [he] at h
      cases h
    | some s' =>
      rw [he] at h
      obtain ⟨hmeets, hrest⟩ := hok s' he
      exact Reaches.head hmeets he (ih h hrest)

/-- The property holds in the first state. -/
lemma Passes.start (h : Passes step P s es) : P s := by
  cases es with
  | nil => exact h
  | cons e es => exact h.1

/-- The property holds in the last state of a run. -/
lemma Passes.last (h : Passes step P s es) (ht : after step s es = some t) : P t := by
  induction es generalizing s with
  | nil =>
    cases ht
    exact h
  | cons e es ih =>
    rw [after_cons] at ht
    cases he : step s e with
    | none =>
      rw [he] at ht
      cases ht
    | some s' =>
      rw [he] at ht
      exact ih (h.2 s' he) ht

/-- A condition is exact if steps that meet it keep an invariant, from which the property
follows, and every other step leads to a state without the property. -/
theorem passes_iff_meets {I : σ → Prop} (hP : ∀ s, I s → P s)
    (keep : ∀ s e s', I s → ok s e → step s e = some s' → I s')
    (spoil : ∀ s e s', I s → ¬ ok s e → step s e = some s' → ¬ P s') (hs : I s) :
    Passes step P s es ↔ Meets step ok s es := by
  induction es generalizing s with
  | nil => exact ⟨fun _ => trivial, fun _ => hP s hs⟩
  | cons e es ih =>
    constructor
    · intro h s' he
      -- a step without the condition would already have spoiled the property
      have hok : ok s e := by
        by_contra hok
        exact spoil s e s' hs hok he (h.2 s' he).start
      exact ⟨hok, (ih (keep s e s' hs hok he)).1 (h.2 s' he)⟩
    · intro h
      refine ⟨hP s hs, ?_⟩
      intro s' he
      obtain ⟨hok, hrest⟩ := h s' he
      exact (ih (keep s e s' hs hok he)).2 hrest

end Machine

end Runs
end SystemsLabs
