import SystemsLabs.Runs.Machine

/-!
# Reordering independent steps

Every event has a key, and two events of different keys may be taken in either order. So the
order of the events of different keys in a run does not matter: where a run leads is decided
by the subsequences of its events that share a key.
-/

namespace SystemsLabs
namespace Runs

section Reordering
variable {σ ε κ : Type*} {step : σ → ε → Option σ} {key : ε → κ}

/-- Two steps of different keys lead to the same state in either order, or in neither. -/
def Independent (step : σ → ε → Option σ) (key : ε → κ) : Prop :=
  ∀ s e e', key e ≠ key e' →
    ((step s e).bind fun t => step t e') = (step s e').bind fun t => step t e

/-- An event moves to the front past events of other keys. -/
lemma Independent.after_middle (hind : Independent step key) {e : ε} {pre : List ε}
    (hpre : ∀ e' ∈ pre, key e' ≠ key e) (post : List ε) (s : σ) :
    after step s (pre ++ e :: post) = after step s (e :: (pre ++ post)) := by
  induction pre generalizing s with
  | nil => rfl
  | cons y pre ih =>
    have hy : key y ≠ key e := hpre y List.mem_cons_self
    have hrest : ∀ t, after step t (pre ++ e :: post) = after step t (e :: (pre ++ post)) :=
      ih fun z hz => hpre z (List.mem_cons_of_mem y hz)
    calc after step s (y :: pre ++ e :: post)
        = (step s y).bind fun t => after step t (pre ++ e :: post) := rfl
      _ = (step s y).bind fun t => (step t e).bind fun u => after step u (pre ++ post) := by
          simp only [hrest, after_cons]
      _ = ((step s e).bind fun t => step t y).bind fun u => after step u (pre ++ post) := by
          rw [← Option.bind_assoc, hind s y e hy]
      _ = after step s (e :: (y :: pre ++ post)) := by
          rw [Option.bind_assoc]
          rfl

/-- Runs that agree on the events of every key lead to the same state. -/
theorem Independent.after_eq [DecidableEq κ] (hind : Independent step key) {es es' : List ε}
    (h : ∀ k, (es.filter fun e => key e = k) = es'.filter fun e => key e = k) (s : σ) :
    after step s es = after step s es' := by
  induction es generalizing es' s with
  | nil =>
    cases es' with
    | nil => rfl
    | cons e es' =>
      have he := h (key e)
      rw [List.filter_nil, List.filter_cons_of_pos (by simp)] at he
      cases he
  | cons e es ih =>
    -- the first event of the key of `e` in the other run is `e`
    have he := h (key e)
    rw [List.filter_cons_of_pos (by simp), eq_comm, List.filter_eq_cons_iff] at he
    obtain ⟨pre, post, rfl, hpre, -, hpost⟩ := he
    have hne : ∀ e' ∈ pre, key e' ≠ key e := by
      intro e' he' heq
      exact hpre e' he' (decide_eq_true heq)
    have hrest : ∀ k, (es.filter fun e => key e = k) = (pre ++ post).filter fun e => key e = k := by
      intro k
      rw [List.filter_append]
      by_cases hk : key e = k
      · subst hk
        rw [List.filter_eq_nil_iff.2 hpre, List.nil_append]
        exact hpost.symm
      · have hother := h k
        rw [List.filter_cons_of_neg (by simpa using hk), List.filter_append,
          List.filter_cons_of_neg (by simpa using hk)] at hother
        exact hother
    rw [hind.after_middle hne post s, after_cons, after_cons]
    simp only [ih hrest]

/-- Events that change nothing may be left out. -/
lemma after_filter (p : ε → Bool) (hskip : ∀ s e, p e = false → step s e = some s)
    (es : List ε) (s : σ) : after step s (es.filter p) = after step s es := by
  induction es generalizing s with
  | nil => rfl
  | cons e es ih =>
    cases he : p e with
    | false =>
      rw [List.filter_cons_of_neg (by simp [he]), ih, after_cons, hskip s e he,
        Option.bind_some]
    | true =>
      rw [List.filter_cons_of_pos he, after_cons, after_cons]
      simp only [ih]

end Reordering

end Runs
end SystemsLabs
