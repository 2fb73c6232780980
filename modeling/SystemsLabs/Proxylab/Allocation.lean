import SystemsLabs.Proxylab.LruStore

/-!
# Which nodes of the cache are allocated

A call that puts an object gets a node that is not allocated, and `free` gives it back.
`delete` frees, also where `get_cache_item` calls it to move a node to the front. The node
is then put back into the list, and returned, although it has been freed.
-/

namespace SystemsLabs
namespace Proxylab

open Runs

/-- The length is one that an object may have, and `malloc` returns a node that is free. -/
def Call.Granted (s : Cache) : Call → Prop
  | get _ => True
  | put node _ _ length =>
    0 ≤ length ∧ length ≤ MAX_CACHE_SIZE ∧ s.allocated node = false

instance (s : Cache) : ∀ c : Call, Decidable (c.Granted s)
  | .get _ => inferInstanceAs (Decidable True)
  | .put _ _ _ _ => inferInstanceAs (Decidable (_ ∧ _ ∧ _))

/-- One call, with some fuel. The state is the cache and the node that the call returned. -/
def allocStep (p : Cache × Option ℕ) (e : Call × ℕ) : Option (Cache × Option ℕ) :=
  if e.1.Granted p.1 then (e.1.run e.2 p.1).map fun r => (r.2, r.1) else none

/-- After `initialize_cache`, and before any `free`. -/
def allocStart (s₀ : Cache) : Cache × Option ℕ :=
  (Cache.initializeCache { s₀ with doubleFree := false }, none)

/-- The nodes that the head leads to are allocated, and so is the one that was returned. No node
was freed twice. -/
def Sound (p : Cache × Option ℕ) : Prop :=
  (∀ a, p.1.Links a → p.1.allocated a = true) ∧
    (∀ a, p.2 = some a → p.1.allocated a = true) ∧ p.1.doubleFree = false

/-- The call does not look for the URI of a node in the list. -/
def Misses (p : Cache × Option ℕ) (e : Call × ℕ) : Prop :=
  match e.1 with
  | .get uri => ∀ a, p.1.Links a → (p.1.nodes a).uri ≠ uri
  | .put .. => True

/-- What holds as long as every `get_cache_item` misses. -/
structure Tidy (p : Cache × Option ℕ) (l : List ℕ) : Prop where
  holds : p.1.Holds l
  allocated : ∀ a ∈ l, p.1.allocated a = true
  doubleFree : p.1.doubleFree = false
  returned : p.2 = none

variable {p p' : Cache × Option ℕ} {e : Call × ℕ} {l : List ℕ}

lemma Tidy.sound (h : Tidy p l) : Sound p := by
  refine ⟨?_, ?_, h.doubleFree⟩
  · intro a ha
    exact h.allocated a (h.holds.links_iff.1 ha)
  · intro a ha
    cases h.returned.symm.trans ha

/-- A step is a call that was granted, and would have been the same with more fuel. -/
lemma run_of_allocStep (he : allocStep p e = some p') (n : ℕ) :
    e.1.Granted p.1 ∧ e.1.run (max e.2 n) p.1 = some (p'.2, p'.1) := by
  unfold allocStep at he
  split_ifs at he with hgranted
  obtain ⟨r, hrun, rfl⟩ := Option.map_eq_some_iff.1 he
  exact ⟨hgranted, Call.run_mono hrun (le_max_left _ _)⟩

/-- A miss changes nothing, and a node that is put was allocated for it. -/
lemma Tidy.step (h : Tidy p l) (hok : Misses p e) (he : allocStep p e = some p') :
    ∃ l', Tidy p' l' := by
  obtain ⟨hgranted, hrun⟩ := run_of_allocStep he (l.length + 1)
  have hfuel : l.length < max e.2 (l.length + 1) := by omega
  obtain ⟨c, n⟩ := e
  obtain ⟨s', r⟩ := p'
  cases c with
  | get uri =>
    have hmiss : ∀ b ∈ l, (p.1.nodes b).uri ≠ uri := fun b hb => hok b (h.holds.links_iff.2 hb)
    rw [Call.run, h.holds.getCacheItem_miss hfuel hmiss] at hrun
    cases hrun
    exact ⟨l, h.holds, h.allocated, h.doubleFree, rfl⟩
  | put a uri content length =>
    obtain ⟨hlength, hle, hfree⟩ := hgranted
    -- the nodes of the list are allocated, so `malloc` returns another one
    have ha : a ∉ l := by
      intro ha
      rw [h.allocated a ha] at hfree
      cases hfree
    obtain ⟨s₂, hput₂, -⟩ := Option.map_eq_some_iff.1 hrun
    obtain ⟨s₁, hput, hs₁, -, -, -, -, hnew, hkept, hdouble⟩ :=
      h.holds.putCacheItem content ha (Cache.length_uri_of_putCacheItem hput₂) hlength hle hfuel
    rw [Call.run, hput] at hrun
    cases hrun
    refine ⟨a :: p.1.kept length l, hs₁, ?_, (hdouble h.allocated).trans h.doubleFree, rfl⟩
    intro b hb
    rcases List.mem_cons.1 hb with rfl | hb
    · exact hnew
    · rw [hkept b hb]
      exact h.allocated b (p.1.kept_subset length l hb)

/-- A hit puts the node that it has freed at the head. -/
lemma Tidy.spoil (h : Tidy p l) (hok : ¬ Misses p e) (he : allocStep p e = some p') :
    ¬ Sound p' := by
  obtain ⟨-, hrun⟩ := run_of_allocStep he (l.length + 1)
  have hfuel : l.length < max e.2 (l.length + 1) := by omega
  obtain ⟨c, n⟩ := e
  obtain ⟨s', r⟩ := p'
  cases c with
  | put a uri content length => exact absurd trivial hok
  | get uri =>
    obtain ⟨hmiss, -⟩ | ⟨a, l₁, l₂, s₁, -, -, hget, hs₁, -, halloc⟩ :=
      h.holds.getCacheItem_cases uri hfuel
    · exfalso
      apply hok
      intro a ha
      exact hmiss a (h.holds.links_iff.1 ha)
    · rw [Call.run, hget] at hrun
      cases hrun
      intro hsound
      have halive := hsound.1 a (hs₁.links_iff.2 List.mem_cons_self)
      rw [halloc, Function.update_self] at halive
      cases halive

/-- The nodes of the list and the returned ones are allocated throughout a sequence of calls
exactly if no call of it hits. -/
theorem linked_nodes_allocated_iff (s₀ : Cache) (es : List (Call × ℕ)) :
    Passes allocStep Sound (allocStart s₀) es ↔ Meets allocStep Misses (allocStart s₀) es := by
  apply passes_iff_meets (I := fun p => ∃ l, Tidy p l)
  · intro p hp
    obtain ⟨l, hl⟩ := hp
    exact hl.sound
  · intro p e p' hp hok he
    obtain ⟨l, hl⟩ := hp
    exact hl.step hok he
  · intro p e p' hp hok he
    obtain ⟨l, hl⟩ := hp
    exact hl.spoil hok he
  · exact ⟨[], ⟨Cache.holds_initializeCache _, fun _ ha => absurd ha List.not_mem_nil, rfl, rfl⟩⟩

/-- An object is put and used. Its node has been freed, and is the head of the list. -/
theorem freed_node_linked :
    ¬ Passes allocStep Sound (allocStart Cache.unset)
      [(.put 0 [97] (fun _ => 7) 1, 2), (.get [97], 2)] := by
  intro hpasses
  have hsome : (after allocStep (allocStart Cache.unset)
      [(.put 0 [97] (fun _ => 7) 1, 2), (.get [97], 2)]).isSome := by decide
  have hsound := hpasses.last (Option.some_get hsome).symm
  have halive := hsound.1 0 (.head rfl)
  exact Bool.false_ne_true halive

end Proxylab
end SystemsLabs
