import Mathlib.Tactic

/-!
# Doubly linked lists

A list in memory is given by two functions, `nxt` and `prv`, from nodes to nodes. `Chain`
says that the links lead from a head through the nodes of `l` to an end `e`, and that each
node names its predecessor. The head and the end are no nodes of the list, and what
`prv` says of them does not matter.

A program that changes links is described by functions `nxt'` and `prv'` that differ from
`nxt` and `prv` at few nodes. `Chain.remove`, `Chain.insert` and `Chain.replace` say which
links must change, and that all others may stay.
-/

namespace SystemsLabs
namespace Memory

section Chain
variable {α : Type*} {nxt prv nxt' prv' : α → α} {a b e x y : α} {l l₁ l₂ : List α}

/-- From `a` the links lead through the nodes of `l` in order. -/
def Linked (nxt prv : α → α) : α → List α → Prop
  | _, [] => True
  | a, x :: l => nxt a = x ∧ prv x = a ∧ Linked nxt prv x l

/-- From `a` the links lead through the nodes of `l` in order, and then to `e`. -/
def Chain (nxt prv : α → α) (a : α) (l : List α) (e : α) : Prop :=
  Linked nxt prv a l ∧ nxt (l.getLastD a) = e

@[simp] lemma linked_nil : Linked nxt prv a [] := trivial

@[simp] lemma linked_cons :
    Linked nxt prv a (x :: l) ↔ nxt a = x ∧ prv x = a ∧ Linked nxt prv x l := Iff.rfl

@[simp] lemma chain_nil : Chain nxt prv a [] e ↔ nxt a = e := by
  simp [Chain]

@[simp] lemma chain_cons :
    Chain nxt prv a (x :: l) e ↔ nxt a = x ∧ prv x = a ∧ Chain nxt prv x l e := by
  rw [Chain, Chain, linked_cons, List.getLastD_cons, and_assoc, and_assoc]

lemma chain_append :
    Chain nxt prv a (l₁ ++ l₂) e ↔
      Linked nxt prv a l₁ ∧ Chain nxt prv (l₁.getLastD a) l₂ e := by
  induction l₁ generalizing a with
  | nil => simp
  | cons x l ih =>
    rw [List.cons_append, chain_cons, linked_cons, ih, List.getLastD_cons]
    tauto

lemma getLastD_mem : l.getLastD a ∈ a :: l := by
  induction l generalizing a with
  | nil => simp
  | cons x l ih =>
    rw [List.getLastD_cons]
    exact List.mem_cons_of_mem _ ih

/-- Links survive changes elsewhere. The last node's next link may change. -/
lemma Linked.congr (h : Linked nxt prv a l) (hnd : (a :: l).Nodup)
    (hnxt : ∀ q ∈ a :: l, q ≠ l.getLastD a → nxt' q = nxt q)
    (hprv : ∀ q ∈ l, prv' q = prv q) : Linked nxt' prv' a l := by
  induction l generalizing a with
  | nil => trivial
  | cons x l ih =>
    obtain ⟨hx, hax, hl⟩ := h
    obtain ⟨ha, hnd⟩ := List.nodup_cons.1 hnd
    rw [List.getLastD_cons] at hnxt
    -- the head is not the last node, so its next link is among those that stay
    have hne : a ≠ l.getLastD x := fun h => ha (h ▸ getLastD_mem)
    refine ⟨?_, ?_, ih hl hnd (fun q hq hql => hnxt q (List.mem_cons_of_mem _ hq) hql)
      fun q hq => hprv q (List.mem_cons_of_mem _ hq)⟩
    · rw [hnxt a List.mem_cons_self hne, hx]
    · rw [hprv x List.mem_cons_self, hax]

/-- A chain survives changes elsewhere. -/
lemma Chain.congr (h : Chain nxt prv a l e) (hnxt : ∀ q ∈ a :: l, nxt' q = nxt q)
    (hprv : ∀ q ∈ l, prv' q = prv q) : Chain nxt' prv' a l e := by
  induction l generalizing a with
  | nil =>
    rw [chain_nil] at h ⊢
    rw [hnxt a List.mem_cons_self, h]
  | cons x l ih =>
    rw [chain_cons] at h ⊢
    obtain ⟨hx, hax, hl⟩ := h
    refine ⟨?_, ?_, ih hl (fun q hq => hnxt q (List.mem_cons_of_mem _ hq))
      fun q hq => hprv q (List.mem_cons_of_mem _ hq)⟩
    · rw [hnxt a List.mem_cons_self, hx]
    · rw [hprv x List.mem_cons_self, hax]

/-- A chain gets a new head: `b` leads to where `a` led. -/
lemma Chain.rehead (h : Chain nxt prv a l e) (hnd : l.Nodup) (hb : nxt' b = nxt a)
    (hfirst : nxt a ∈ l → prv' (nxt a) = b) (hnxt : ∀ q ∈ l, nxt' q = nxt q)
    (hprv : ∀ q ∈ l, q ≠ nxt a → prv' q = prv q) : Chain nxt' prv' b l e := by
  cases l with
  | nil =>
    rw [chain_nil] at h ⊢
    rw [hb, h]
  | cons x l =>
    rw [chain_cons] at h ⊢
    obtain ⟨rfl, -, hl⟩ := h
    obtain ⟨hx, -⟩ := List.nodup_cons.1 hnd
    refine ⟨hb, hfirst List.mem_cons_self, hl.congr hnxt fun q hq => ?_⟩
    exact hprv q (List.mem_cons_of_mem _ hq) fun h => hx (h ▸ hq)

/-- The next link of a node leads to a later one or to the end. -/
lemma Chain.nxt_eq (h : Chain nxt prv a l e) : nxt a ∈ l ∨ nxt a = e := by
  cases l with
  | nil => exact .inr (chain_nil.1 h)
  | cons x l =>
    rw [(chain_cons.1 h).1]
    exact .inl List.mem_cons_self

/-- The links lead from node to node and back. -/
lemma Chain.isChain (h : Chain nxt prv a l e) : l.IsChain fun x y => nxt x = y ∧ prv y = x := by
  induction l generalizing a with
  | nil => exact List.isChain_nil
  | cons x l ih =>
    obtain ⟨-, -, hrest⟩ := chain_cons.1 h
    refine List.isChain_cons.2 ⟨fun y hy => ?_, ih hrest⟩
    cases l with
    | nil => cases hy
    | cons z l =>
      cases hy
      obtain ⟨hnext, hprev, -⟩ := chain_cons.1 hrest
      exact ⟨hnext, hprev⟩

/-- The last node leads to the end. -/
lemma Chain.nxt_last (h : Chain nxt prv a l e) (hx : x ∈ l.getLast?) : nxt x = e := by
  rw [← h.2, ← Option.some_inj, List.getLastD_eq_getLast?, hx, Option.getD_some]

/-- The first node leads back to the head. -/
lemma Chain.prv_first (h : Chain nxt prv a l e) (hx : x ∈ l.head?) : prv x = a := by
  cases l with
  | nil => cases hx
  | cons y l =>
    cases hx
    exact (chain_cons.1 h).2.1

section Middle
variable (h : Chain nxt prv a (l₁ ++ x :: l₂) e) (hnd : (a :: (l₁ ++ x :: l₂)).Nodup)
  (he : e ∉ l₁ ++ x :: l₂)
include h

lemma Chain.prv_eq : prv x = l₁.getLastD a := (chain_cons.1 (chain_append.1 h).2).2.1

lemma Chain.tail : Chain nxt prv x l₂ e := (chain_cons.1 (chain_append.1 h).2).2.2

include hnd

/-- What comes after `x` survives changes at its neighbours, under another head. -/
lemma Chain.tail_rehead {b : α} (hb : nxt' b = nxt x) (hn : nxt x ∈ l₂ → prv' (nxt x) = b)
    (hnxt : ∀ q ∈ a :: (l₁ ++ l₂), q ≠ prv x → nxt' q = nxt q)
    (hprv : ∀ q ∈ l₁ ++ l₂, q ≠ nxt x → prv' q = prv q) : Chain nxt' prv' b l₂ e := by
  have hnd₂ := (List.nodup_append.1 (List.nodup_cons.1 hnd).2).2.1
  have hnd' : ((a :: l₁) ++ x :: l₂).Nodup := hnd
  apply h.tail.rehead (List.nodup_cons.1 hnd₂).2 hb hn
  · intro q hq
    apply hnxt q (List.mem_cons_of_mem _ (List.mem_append_right _ hq))
    -- the predecessor of `x` is in front of it, and `q` comes after it
    intro hqp
    rw [h.prv_eq] at hqp
    exact List.disjoint_of_nodup_append hnd' getLastD_mem (List.mem_cons_of_mem _ (hqp ▸ hq))
  · intro q hq hqx
    exact hprv q (List.mem_append_right _ hq) hqx

include he

/-- What comes before `x` survives changes at its neighbours. -/
lemma Chain.linked_before (hnxt : ∀ q ∈ a :: (l₁ ++ l₂), q ≠ prv x → nxt' q = nxt q)
    (hprv : ∀ q ∈ l₁ ++ l₂, q ≠ nxt x → prv' q = prv q) : Linked nxt' prv' a l₁ := by
  have hsub : (a :: l₁).Sublist (a :: (l₁ ++ x :: l₂)) :=
    (List.sublist_append_left l₁ _).cons_cons a
  apply (chain_append.1 h).1.congr (hnd.sublist hsub)
  · intro q hq hql
    apply hnxt q _ (h.prv_eq ▸ hql)
    rcases List.mem_cons.1 hq with rfl | hq
    · exact List.mem_cons_self
    · exact List.mem_cons_of_mem _ (List.mem_append_left _ hq)
  · intro q hq
    apply hprv q (List.mem_append_left _ hq)
    -- the successor of `x` comes after it or is the end of the chain
    intro hqx
    rcases h.tail.nxt_eq with hx | hx
    · have := (List.nodup_cons.1 hnd).2
      exact List.disjoint_of_nodup_append this hq (List.mem_cons_of_mem _ (hqx ▸ hx))
    · exact he (List.mem_append_left _ (hx ▸ hqx ▸ hq))

/-- A node is taken from the list: its predecessor and its successor are linked. -/
theorem Chain.remove (hp : nxt' (prv x) = nxt x) (hn : nxt x ∈ l₂ → prv' (nxt x) = prv x)
    (hnxt : ∀ q ∈ a :: (l₁ ++ l₂), q ≠ prv x → nxt' q = nxt q)
    (hprv : ∀ q ∈ l₁ ++ l₂, q ≠ nxt x → prv' q = prv q) :
    Chain nxt' prv' a (l₁ ++ l₂) e := by
  refine chain_append.2 ⟨h.linked_before hnd he hnxt hprv, ?_⟩
  rw [← h.prv_eq]
  exact h.tail_rehead hnd hp hn hnxt hprv

/-- A node takes the place of another. -/
theorem Chain.replace (hp : nxt' (prv x) = y) (hy : nxt' y = nxt x) (hyp : prv' y = prv x)
    (hn : nxt x ∈ l₂ → prv' (nxt x) = y)
    (hnxt : ∀ q ∈ a :: (l₁ ++ l₂), q ≠ prv x → nxt' q = nxt q)
    (hprv : ∀ q ∈ l₁ ++ l₂, q ≠ nxt x → prv' q = prv q) :
    Chain nxt' prv' a (l₁ ++ y :: l₂) e := by
  refine chain_append.2 ⟨h.linked_before hnd he hnxt hprv, chain_cons.2 ?_⟩
  rw [← h.prv_eq]
  exact ⟨hp, hyp, h.tail_rehead hnd hy hn hnxt hprv⟩

end Middle

/-- A node is put at the front of the list. -/
theorem Chain.insert (h : Chain nxt prv a l e) (hnd : l.Nodup) (ha : nxt' a = x)
    (hx : nxt' x = nxt a) (hxa : prv' x = a) (hn : nxt a ∈ l → prv' (nxt a) = x)
    (hnxt : ∀ q ∈ l, nxt' q = nxt q) (hprv : ∀ q ∈ l, q ≠ nxt a → prv' q = prv q) :
    Chain nxt' prv' a (x :: l) e :=
  chain_cons.2 ⟨ha, hxa, h.rehead hnd hx hn hnxt hprv⟩

end Chain

end Memory
end SystemsLabs
