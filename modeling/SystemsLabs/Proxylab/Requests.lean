import SystemsLabs.Proxylab.LruStore

/-!
# Concurrent requests

Every request runs `send_request`: it looks its URI up, and where it misses it fetches the
object and puts it if the object is small enough. Here a whole call of the cache is one step,
so between the miss of a request and its put the other requests may do anything. A put does
not look whether its URI has come into the cache meanwhile (`two_entries_for_one_uri`). It has
not where requests for one URI come one after the other (`one_entry_per_uri`).
-/

namespace SystemsLabs
namespace Proxylab

open Runs

/-- Where a request stands. -/
inductive Phase
  | ready
  | fetching
  | done
deriving DecidableEq

/-- The cache, and the requests that share it. -/
structure Server where
  cache : Cache
  phase : ℕ → Phase

/-- The steps of request `i`: it looks its URI up, it puts what the server sent, or it gives up
because the server cannot be reached. -/
inductive RequestStep
  | look (i fuel : ℕ)
  | relay (i node : ℕ) (content : ℕ → UInt8) (length : ℤ) (fuel : ℕ)
  | giveUp (i : ℕ)

namespace Server

def setPhase (s : Server) (i : ℕ) (p : Phase) : Server :=
  { s with phase := Function.update s.phase i p }

/-- The part of `put_cache_item` in front of its `insert`. -/
def makeRoom (s : Server) (node : ℕ) (uri : List UInt8) (content : ℕ → UInt8) (length : ℤ)
    (fuel : ℕ) : Option Cache :=
  (s.cache.createNode node uri content length).bind (Cache.evict length fuel)

variable (uris : ℕ → List UInt8)

/-- `send_request` with the URI `uris i`. -/
def step (s : Server) : RequestStep → Option Server
  | .look i fuel =>
    if s.phase i = .ready then
      (s.cache.getCacheItem fuel (uris i)).map fun r =>
        { s with cache := r.2 }.setPhase i (if r.1.isSome then .done else .fetching)
    else none
  | .relay i node content length fuel =>
    if s.phase i = .fetching then
      if length < MAX_OBJECT_SIZE then
        (s.cache.putCacheItem fuel node (uris i) content length).map fun c =>
          { s with cache := c }.setPhase i .done
      else some (s.setPhase i .done)
    else none
  | .giveUp i => if s.phase i = .fetching then some (s.setPhase i .done) else none

/-- The list is empty, and no request has begun. -/
def start (s₀ : Cache) : Server where
  cache := { s₀ with head := none, tail := none }
  phase _ := .ready

/-- `malloc` does not return a linked node. -/
def Legal (s : Server) : RequestStep → Prop
  | .relay _ node _ _ _ => ¬ s.cache.Links node
  | _ => True

/-- A put comes when no node with its URI is left in the list. -/
def Fresh (s : Server) : RequestStep → Prop
  | .relay i node content length fuel => length < MAX_OBJECT_SIZE →
    ∀ c ∈ s.makeRoom node (uris i) content length fuel,
      ∀ a, c.Links a → (c.nodes a).uri ≠ uris i
  | _ => True

/-- A lookup comes when no other request for the URI is between its miss and its put. -/
def Alone (s : Server) : RequestStep → Prop
  | .look i _ => ∀ j, s.phase j = .fetching → uris j ≠ uris i
  | _ => True

end Server

/-- No two nodes of the list have the same URI. -/
def Cache.Distinct (s : Cache) : Prop :=
  ∀ a b, s.Links a → s.Links b → (s.nodes a).uri = (s.nodes b).uri → a = b

/-- The URIs of the nodes. -/
def Cache.urisOf (s : Cache) (l : List ℕ) : List (List UInt8) := l.map fun a => (s.nodes a).uri

section Lists
variable {s s' : Cache} {l : List ℕ}

/-- The nodes have different URIs exactly if the list of URIs has no duplicate. -/
lemma Cache.Shape.distinct_iff (h : s.Shape l) : s.Distinct ↔ (s.urisOf l).Nodup := by
  rw [Cache.urisOf, List.nodup_map_iff_inj_on h.nodup]
  constructor
  · intro hd a ha b hb hab
    exact hd a b (h.links_iff.2 ha) (h.links_iff.2 hb) hab
  · intro hd a b ha hb hab
    exact hd a (h.links_iff.1 ha) b (h.links_iff.1 hb) hab

/-- URIs are data, which links do not change. -/
lemma Cache.urisOf_congr (h : ∀ b ∈ l, Cache.SameData (s.nodes b) (s'.nodes b)) :
    s'.urisOf l = s.urisOf l :=
  List.map_congr_left fun b hb => (h b hb).1

/-- A URI is missing if no linked node has it. -/
lemma Cache.Shape.mem_urisOf (h : s.Shape l) {uri : List UInt8} :
    uri ∉ s.urisOf l ↔ ∀ a, s.Links a → (s.nodes a).uri ≠ uri := by
  constructor
  · intro hnot a ha hauri
    exact hnot (List.mem_map.2 ⟨a, h.links_iff.1 ha, hauri⟩)
  · intro hall hmem
    obtain ⟨a, ha, hauri⟩ := List.mem_map.1 hmem
    exact hall a (h.links_iff.2 ha) hauri

end Lists

namespace Server

variable {uris : ℕ → List UInt8} {s s' : Server} {e : RequestStep} {l : List ℕ} {i node fuel : ℕ}
  {content : ℕ → UInt8} {length : ℤ}

/-- A lookup changes the order of the list at most. If it misses, no node has the URI. -/
lemma look_spec (h : s.cache.Shape l) (he : step uris s (.look i fuel) = some s') :
    ∃ l', s'.cache.Shape l' ∧ (s'.cache.urisOf l').Perm (s.cache.urisOf l) ∧
      (s' = { s with cache := s'.cache }.setPhase i .done ∨
        s' = s.setPhase i .fetching ∧ uris i ∉ s.cache.urisOf l) := by
  rw [step] at he
  split_ifs at he
  obtain ⟨⟨r, c⟩, hget, rfl⟩ := Option.map_eq_some_iff.1 he
  -- with more fuel the lookup would have been the same
  have hrun : (Call.get (uris i)).run (max fuel (l.length + 1)) s.cache = some (r, c) :=
    Call.run_mono hget (le_max_left _ _)
  have hfuel : l.length < max fuel (l.length + 1) := by omega
  obtain ⟨hmiss, hget'⟩ | ⟨a, l₁, l₂, s₁, rfl, -, hget', hs₁, hsame, -⟩ :=
    h.getCacheItem_cases (uris i) hfuel
  · rw [Call.run, hget'] at hrun
    cases hrun
    refine ⟨l, h, List.Perm.refl _, .inr ⟨rfl, ?_⟩⟩
    rw [h.mem_urisOf]
    intro a ha
    exact hmiss a (h.links_iff.1 ha)
  · rw [Call.run, hget'] at hrun
    cases hrun
    refine ⟨a :: (l₁ ++ l₂), hs₁, ?_, .inl rfl⟩
    show (Cache.urisOf c _).Perm _
    rw [Cache.urisOf_congr fun b _ => hsame b]
    exact List.perm_middle.symm.map _

/-- What makes room leaves the front of the list. -/
lemma makeRoom_spec {uri : List UInt8} {c : Cache} (h : s.cache.Shape l)
    (hroom : s.makeRoom node uri content length fuel = some c) :
    ∃ q, c.Shape q ∧ q <+: l ∧ (c.nodes node).uri = uri ∧
      (node ∉ q → c.urisOf q = s.cache.urisOf q) := by
  rw [makeRoom, Option.bind_eq_some_iff] at hroom
  obtain ⟨s₁, hcreate, hevict⟩ := hroom
  obtain ⟨-, hnxt, hprv, -, hnodes, huri, -⟩ := Cache.createNode_spec hcreate
  obtain ⟨q, hq, hc, hsame⟩ := (h.congr hnxt hprv).evict hevict
  refine ⟨q, hc, hq, (hsame node).1.trans huri, ?_⟩
  intro hnode
  rw [Cache.urisOf_congr fun b _ => hsame b]
  apply Cache.urisOf_congr
  intro b hb
  rw [hnodes b fun hbn => hnode (hbn ▸ hb)]
  exact .refl _

/-- A small object is put in front of those nodes that made room for it. -/
lemma relay_spec (h : s.cache.Shape l) (hsmall : length < MAX_OBJECT_SIZE)
    (he : step uris s (.relay i node content length fuel) = some s') :
    ∃ c q, s.makeRoom node (uris i) content length fuel = some c ∧ c.Shape q ∧ q <+: l ∧
      (c.nodes node).uri = uris i ∧
      s' = { s with cache := s'.cache }.setPhase i .done ∧
      (node ∉ q → c.urisOf q = s.cache.urisOf q ∧ s'.cache.Shape (node :: q) ∧
        s'.cache.urisOf (node :: q) = uris i :: s.cache.urisOf q) := by
  rw [step] at he
  split_ifs at he
  obtain ⟨c', hput, rfl⟩ := Option.map_eq_some_iff.1 he
  simp only [Cache.putCacheItem, Option.bind_eq_bind, Option.bind_eq_some_iff] at hput
  obtain ⟨s₁, hcreate, c, hevict, hc'⟩ := hput
  cases hc'
  have hroom : s.makeRoom node (uris i) content length fuel = some c := by
    rw [makeRoom, hcreate]
    exact hevict
  obtain ⟨q, hc, hq, huri, huris⟩ := makeRoom_spec h hroom
  refine ⟨c, q, hroom, hc, hq, huri, rfl, ?_⟩
  intro hnode
  refine ⟨huris hnode, hc.insert hnode, ?_⟩
  show Cache.urisOf (c.insert node) (node :: q) = _
  rw [Cache.urisOf_congr fun b _ => c.sameData_insert node b, ← huris hnode, ← huri]
  rfl

/-- The other steps leave the cache as it is. -/
lemma rest_spec (he : step uris s e = some s')
    (hlook : ∀ i fuel, e ≠ .look i fuel)
    (hput : ∀ i node content length fuel, e = .relay i node content length fuel →
      ¬ length < MAX_OBJECT_SIZE) : ∃ i, s' = s.setPhase i .done := by
  cases e with
  | look i fuel => exact absurd rfl (hlook i fuel)
  | relay i node content length fuel =>
    rw [step, if_neg (hput i node content length fuel rfl)] at he
    split_ifs at he
    exact ⟨i, (Option.some.inj he).symm⟩
  | giveUp i =>
    rw [step] at he
    split_ifs at he
    exact ⟨i, (Option.some.inj he).symm⟩

/-- Such a step leads to a list without equal URIs. -/
lemma step_fresh (h : s.cache.Shape l) (hl : (s.cache.urisOf l).Nodup) (hfresh : Fresh uris s e)
    (he : step uris s e = some s') :
    ∃ l', s'.cache.Shape l' ∧ (s'.cache.urisOf l').Nodup := by
  cases e with
  | look i fuel =>
    obtain ⟨l', hs', hperm, -⟩ := look_spec h he
    exact ⟨l', hs', hperm.nodup_iff.2 hl⟩
  | giveUp i =>
    obtain ⟨j, rfl⟩ := rest_spec he (fun _ _ => by simp) (fun _ _ _ _ _ => by simp)
    exact ⟨l, h, hl⟩
  | relay i node content length fuel =>
    by_cases hsmall : length < MAX_OBJECT_SIZE
    · obtain ⟨c, q, hroom, hc, hq, huri, -, hrest⟩ := relay_spec h hsmall he
      have hmiss := hfresh hsmall c hroom
      -- the node itself carries the URI, so it is not left in the list either
      have hnode : node ∉ q := fun hq => hmiss node (hc.links_iff.2 hq) huri
      obtain ⟨huris, hs', huris'⟩ := hrest hnode
      refine ⟨node :: q, hs', ?_⟩
      rw [huris', ← huris]
      refine List.nodup_cons.2 ⟨hc.mem_urisOf.2 hmiss, ?_⟩
      rw [huris]
      exact hl.sublist (hq.sublist.map _)
    · obtain ⟨j, rfl⟩ := rest_spec he (fun _ _ => by simp)
        (fun _ _ _ _ _ heq => by cases heq; exact hsmall)
      exact ⟨l, h, hl⟩

/-- Any other step makes a second node with the URI, if its node was not linked. -/
lemma fresh_of_distinct (h : s.cache.Shape l) (hlegal : Legal s e)
    (he : step uris s e = some s') (hs' : s'.cache.Distinct) : Fresh uris s e := by
  cases e with
  | look i fuel => trivial
  | giveUp i => trivial
  | relay i node content length fuel =>
    intro hsmall c' hroom'
    obtain ⟨c, q, hroom, hc, hq, -, -, hrest⟩ := relay_spec h hsmall he
    cases hroom.symm.trans hroom'
    have hnode : node ∉ q := fun hq' => hlegal (h.links_iff.2 (hq.subset hq'))
    obtain ⟨huris, hshape, huris'⟩ := hrest hnode
    rw [hshape.distinct_iff, huris', ← huris] at hs'
    exact hc.mem_urisOf.1 (List.nodup_cons.1 hs').1

/-- The list is empty at first. -/
lemma shape_start (s₀ : Cache) : (start s₀).cache.Shape [] := Cache.shape_nil rfl rfl

/-- A step leaves the URIs different exactly if no node with the URI is there when one is put. -/
theorem distinct_iff_fresh (h : s.cache.Shape l) (hl : (s.cache.urisOf l).Nodup)
    (hlegal : Legal s e) (he : step uris s e = some s') : s'.cache.Distinct ↔ Fresh uris s e := by
  constructor
  · exact fresh_of_distinct h hlegal he
  · intro hfresh
    obtain ⟨l', hl', hnodup'⟩ := step_fresh h hl hfresh he
    exact hl'.distinct_iff.2 hnodup'

/-! ## Requests for the same URI one after the other -/

/-- A request between its miss and its put is the only one for its URI, and the list has no node
with it. -/
structure Apart (uris : ℕ → List UInt8) (s : Server) (l : List ℕ) : Prop where
  shape : s.cache.Shape l
  nodup : (s.cache.urisOf l).Nodup
  absent : ∀ i, s.phase i = .fetching → uris i ∉ s.cache.urisOf l
  alone : ∀ i j, s.phase i = .fetching → s.phase j = .fetching → uris i = uris j → i = j

/-- A request that is done is not between its miss and its put. -/
lemma phase_of_setPhase_done {j : ℕ} (h : (s.setPhase i .done).phase j = .fetching) :
    j ≠ i ∧ s.phase j = .fetching := by
  simp only [setPhase, Function.update_apply] at h
  split_ifs at h with hj
  exact ⟨hj, h⟩

/-- A request that is done leaves the others apart. -/
lemma Apart.finish {c : Cache} {l' : List ℕ} (h : Apart uris s l) (hc : c.Shape l')
    (hnodup : (c.urisOf l').Nodup)
    (habsent : ∀ j, j ≠ i → s.phase j = .fetching → uris j ∉ c.urisOf l') :
    Apart uris ({ s with cache := c }.setPhase i .done) l' := by
  refine ⟨hc, hnodup, ?_, ?_⟩
  · intro j hj
    obtain ⟨hji, hj⟩ := phase_of_setPhase_done hj
    exact habsent j hji hj
  · intro j k hj hk
    exact h.alone j k (phase_of_setPhase_done hj).2 (phase_of_setPhase_done hk).2

/-- Only a request that has missed puts an object. -/
lemma fetching_of_relay (he : step uris s (.relay i node content length fuel) = some s') :
    s.phase i = .fetching := by
  rw [step] at he
  split_ifs at he with hphase
  · exact hphase
  · exact hphase

/-- A lookup is alone with its URI, so a put finds no node that has it. -/
lemma Apart.step (h : Apart uris s l) (hlegal : Legal s e) (hok : Alone uris s e)
    (he : step uris s e = some s') : ∃ l', Apart uris s' l' := by
  cases e with
  | look i fuel =>
    obtain ⟨l', hs', hperm, hhit | ⟨rfl, hmiss⟩⟩ := look_spec h.shape he
    · refine ⟨l', ?_⟩
      rw [hhit]
      apply h.finish hs' (hperm.nodup_iff.2 h.nodup)
      intro j _ hj hmem
      exact h.absent j hj (hperm.subset hmem)
    · -- the request that has missed is now the one for its URI
      refine ⟨l, h.shape, h.nodup, ?_, ?_⟩
      · intro j hj
        simp only [setPhase, Function.update_apply] at hj
        split_ifs at hj with hji
        · rwa [hji]
        · exact h.absent j hj
      · intro j k hj hk heq
        simp only [setPhase, Function.update_apply] at hj hk
        split_ifs at hj hk with hji hki hki
        · rw [hji, hki]
        · exact absurd (heq.symm.trans (congrArg uris hji)) (hok k hk)
        · exact absurd (heq.trans (congrArg uris hki)) (hok j hj)
        · exact h.alone j k hj hk heq
  | giveUp i =>
    obtain ⟨j, rfl⟩ := rest_spec he (fun _ _ => by simp) (fun _ _ _ _ _ => by simp)
    exact ⟨l, h.finish h.shape h.nodup fun k _ => h.absent k⟩
  | relay i node content length fuel =>
    by_cases hsmall : length < MAX_OBJECT_SIZE
    · obtain ⟨c, q, -, -, hq, -, heq, hrest⟩ := relay_spec h.shape hsmall he
      obtain ⟨-, hs', huris'⟩ := hrest fun hq' => hlegal (h.shape.links_iff.2 (hq.subset hq'))
      have hphase := fetching_of_relay he
      have hsub : s.cache.urisOf q ⊆ s.cache.urisOf l := (hq.sublist.map _).subset
      refine ⟨node :: q, ?_⟩
      rw [heq]
      apply h.finish hs'
      · rw [huris']
        exact List.nodup_cons.2
          ⟨fun hmem => h.absent i hphase (hsub hmem), h.nodup.sublist (hq.sublist.map _)⟩
      · intro j hji hj hmem
        rw [huris'] at hmem
        rcases List.mem_cons.1 hmem with heq' | hmem
        · exact hji (h.alone j i hj hphase heq')
        · exact h.absent j hj (hsub hmem)
    · obtain ⟨j, rfl⟩ := rest_spec he (fun _ _ => by simp)
        (fun _ _ _ _ _ heq => by cases heq; exact hsmall)
      exact ⟨l, h.finish h.shape h.nodup fun k _ => h.absent k⟩

/-- As long as every lookup waits for the other requests for its URI, no two nodes have the same
URI. -/
theorem one_entry_per_uri (uris : ℕ → List UInt8) (s₀ : Cache) (s : Server)
    (h : Reaches (step uris) (fun s e => Legal s e ∧ Alone uris s e) (start s₀) s) :
    s.cache.Distinct := by
  have hinv : ∃ l, Apart uris s l := by
    apply h.invariant
    · refine ⟨[], shape_start s₀, List.nodup_nil, fun _ _ => List.not_mem_nil, ?_⟩
      intro i j hi
      cases hi
    · intro s e s' hs hok he
      obtain ⟨l, hl⟩ := hs
      exact hl.step hok.1 hok.2 he
  obtain ⟨l, hl⟩ := hinv
  exact hl.shape.distinct_iff.2 hl.nodup

/-- Request `1` is for another URI than the other requests. -/
def otherUri (i : ℕ) : List UInt8 := if i = 1 then [98] else [97]

/-- Requests `0` and `1` overlap, and request `2` comes when request `0` is done. -/
def overlapping : List RequestStep :=
  [.look 0 1, .look 1 1, .relay 0 0 (fun _ => 7) 1 2, .relay 1 1 (fun _ => 8) 2 2, .look 2 3]

lemma meets_overlapping : Meets (step otherUri) (fun s e => Legal s e ∧ Alone otherUri s e)
    (start Cache.unset) overlapping := by
  refine (meets_cons rfl).2 ⟨⟨trivial, fun j hj => by cases hj⟩, ?_⟩
  refine (meets_cons rfl).2 ⟨⟨trivial, ?_⟩, ?_⟩
  · -- request `0` is between its miss and its put
    intro j hj
    match j, hj with
    | 0, _ => decide
    | j + 1, hj => cases hj
  refine (meets_cons rfl).2 ⟨⟨Cache.Follows.not_links (l := []) rfl (by decide), trivial⟩, ?_⟩
  refine (meets_cons rfl).2
    ⟨⟨Cache.Follows.not_links (l := [0]) ⟨rfl, rfl⟩ (by decide), trivial⟩, ?_⟩
  refine (meets_cons rfl).2 ⟨⟨trivial, ?_⟩, trivial⟩
  intro j hj
  match j, hj with
  | 0, hj => cases hj
  | 1, hj => cases hj
  | j + 2, hj => cases hj

theorem one_entry_per_uri_overlapping :
    ∃ s, after (step otherUri) (start Cache.unset) overlapping = some s ∧ s.cache.Distinct := by
  have hsome : (after (step otherUri) (start Cache.unset) overlapping).isSome := by decide +kernel
  obtain ⟨s, hrun⟩ := Option.isSome_iff_exists.1 hsome
  exact ⟨s, hrun, one_entry_per_uri otherUri Cache.unset s (reaches_of_after hrun meets_overlapping)⟩

/-- Two requests miss, and both put the object. -/
theorem two_entries_for_one_uri :
    ¬ ∀ (uris : ℕ → List UInt8) (s : Server),
      Reaches (step uris) Legal (start Cache.unset) s → s.cache.Distinct := by
  intro hall
  let uris := fun _ : ℕ => [(97 : UInt8)]
  let es : List RequestStep :=
    [.look 0 1, .look 1 1, .relay 0 0 (fun _ => 7) 1 2, .relay 1 1 (fun _ => 7) 1 2]
  have hsome : (after (step uris) (start Cache.unset) es).isSome := by decide
  have hlegal : Meets (step uris) Legal (start Cache.unset) es := by
    refine (meets_cons rfl).2 ⟨trivial, (meets_cons rfl).2 ⟨by trivial, ?_⟩⟩
    refine (meets_cons rfl).2 ⟨Cache.Follows.not_links (l := []) rfl (by decide), ?_⟩
    exact (meets_cons rfl).2
      ⟨Cache.Follows.not_links (l := [0]) ⟨rfl, rfl⟩ (by decide), trivial⟩
  have hdistinct := hall uris _ (reaches_of_after (Option.some_get hsome).symm hlegal)
  have hsame := hdistinct 1 0 (.head rfl) (.next (.head rfl) rfl) rfl
  exact absurd hsame one_ne_zero

end Server

end Proxylab
end SystemsLabs
