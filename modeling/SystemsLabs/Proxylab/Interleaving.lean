import SystemsLabs.Proxylab.CacheCalls
import SystemsLabs.Runs.Machine

/-!
# Threads that share the cache

Any number of threads call `get_cache_item` and `put_cache_item`. The walk of a lookup, the
body of `delete` and the body of `insert` hold the lock and are one step each. What is done
without the lock is one step for each test and each read: the test of `delete`, the branch for
the only node, the test of the eviction loop and its read of the tail. Freed nodes keep their
fields and are not used again.

Between the walk of a lookup and its `delete`, and between `delete` and `insert`, other threads
may delete or insert the same node.
-/

namespace SystemsLabs
namespace Proxylab

open Runs

/-- What a thread does when its `delete` has returned. -/
inductive Return
  | reinsert (node : ℕ)
  | evict (node : ℕ) (length : ℤ)

/-- The step of a thread that comes next, with the variables that it still needs. -/
inductive Pc
  | idle
  | walk (uri : List UInt8)
  | test (node : Option ℕ) (k : Return)
  | only (node : Option ℕ) (k : Return)
  | locked (node : Option ℕ) (k : Return)
  | insert (node : ℕ)
  | loop (node : ℕ) (length : ℤ)
  | readTail (node : ℕ) (length : ℤ)

def Return.pc : Return → Pc
  | reinsert node => .insert node
  | evict node length => .loop node length

/-- The node that the thread is going to insert. -/
def Return.node : Return → ℕ
  | reinsert node => node
  | evict node _ => node

def Pc.node : Pc → Option ℕ
  | idle => none
  | walk _ => none
  | test _ k => some k.node
  | only _ k => some k.node
  | locked _ k => some k.node
  | insert node => some node
  | loop node _ => some node
  | readTail node _ => some node

/-- The cache, the nodes that `malloc` has returned, and where the threads are. -/
structure Shared where
  cache : Cache
  used : ℕ → Bool
  pc : ℕ → Pc

/-- Thread `i` makes a call, or takes its next step. -/
inductive Act
  | get (i : ℕ) (uri : List UInt8)
  | put (i node : ℕ) (uri : List UInt8) (content : ℕ → UInt8) (length : ℤ)
  | run (i fuel : ℕ)

namespace Shared

def goto (s : Shared) (i : ℕ) (p : Pc) : Shared := { s with pc := Function.update s.pc i p }

/-- After `initialize_cache`, with no thread in a call. -/
def start (s₀ : Cache) : Shared := ⟨s₀.initializeCache, fun _ => false, fun _ => .idle⟩

/-- The next step of a thread in a call. -/
def runPc (s : Shared) (i fuel : ℕ) : Pc → Option Shared
  | .idle => none
  | .walk uri =>
    (s.cache.find uri fuel s.cache.head).map fun
      | none => s.goto i .idle
      | some temp => s.goto i (.test (some temp) (.reinsert temp))
  | .test node k => some (s.goto i (if s.cache.isOnly node then .only node k else .locked node k))
  | .only node k => some ({ s with cache := s.cache.initializeCache.free node }.goto i k.pc)
  | .locked node k => (s.cache.deleteLocked node).map fun c => { s with cache := c }.goto i k.pc
  | .insert node => some ({ s with cache := s.cache.insert node }.goto i .idle)
  | .loop node length =>
    some (s.goto i (if length > s.cache.freeCacheSize then .readTail node length
      else .insert node))
  | .readTail node length => some (s.goto i (.test s.cache.tail (.evict node length)))

def step (s : Shared) : Act → Option Shared
  | .get i uri =>
    match s.pc i with
    | .idle => some (s.goto i (.walk uri))
    | _ => none
  | .put i node uri content length =>
    match s.pc i with
    | .idle =>
      if s.used node then none
      else (s.cache.createNode node uri content length).map fun c =>
        { s with cache := c, used := Function.update s.used node true }.goto i (.loop node length)
    | _ => none
  | .run i fuel => s.runPc i fuel (s.pc i)

/-- The list from the head ends at the tail and names each node once, its nodes are linked both
ways, and the budget is what they leave. -/
def Intact (s : Shared) : Prop :=
  ∃ l, Cache.Follows (fun a => (s.cache.nodes a).next) s.cache.head l ∧ l.Nodup ∧
    Cache.Follows (fun a => (s.cache.nodes a).prev) s.cache.tail l.reverse ∧
    s.cache.freeCacheSize = MAX_CACHE_SIZE - s.cache.bytes l

/-- The step does not take a node out of the list that is not in it, and puts none into the list
that is already there. The budget stays an `int`. -/
def Proper (s : Shared) : Act → Prop
  | .run i _ =>
    match s.pc i with
    | .locked (some a) _ => s.cache.Links a
    | .insert a =>
      ¬ s.cache.Links a ∧ -2 ^ 31 ≤ s.cache.freeCacheSize - (s.cache.nodes a).length
    | _ => True
  | _ => True

/-- The list is intact, and the nodes that are still to be inserted have been filled. -/
structure Keeps (s : Shared) (l : List ℕ) : Prop where
  holds : s.cache.Holds l
  used : ∀ a ∈ l, s.used a = true
  nonneg : ∀ a, s.used a = true → 0 ≤ (s.cache.nodes a).length
  pending : ∀ i a, (s.pc i).node = some a → s.used a = true

variable {s s' : Shared} {e : Act} {l l' : List ℕ} {i fuel : ℕ} {p : Pc}

/-- A list of such nodes is intact. -/
lemma Keeps.intact (h : s.Keeps l) : s.Intact :=
  ⟨l, h.holds.follows, h.holds.nodup, h.holds.follows_prev, h.holds.budget⟩

/-- A thread goes on, with a node to be inserted that has been filled. -/
lemma Keeps.goto (h : s.Keeps l) (hp : ∀ a, p.node = some a → s.used a = true) :
    (s.goto i p).Keeps l := by
  refine ⟨h.holds, h.used, h.nonneg, ?_⟩
  intro j a hj
  simp only [Shared.goto, Function.update_apply] at hj
  split_ifs at hj
  · exact hp a hj
  · exact h.pending j a hj

/-- The list changes, and the nodes keep their lengths. -/
lemma Keeps.cache {c : Cache} (h : s.Keeps l) (hc : c.Holds l')
    (hsame : ∀ b, Cache.SameData (s.cache.nodes b) (c.nodes b))
    (hused : ∀ a ∈ l', s.used a = true) : Keeps { s with cache := c } l' := by
  refine ⟨hc, hused, ?_, h.pending⟩
  intro a ha
  rw [(hsame a).2.2]
  exact h.nonneg a ha

/-- A return address says which node the thread holds. -/
lemma node_pc (k : Return) : k.pc.node = some k.node := by
  cases k <;> rfl

/-- A walk that finds a node finds it in the list. -/
lemma Keeps.walk (h : s.Keeps l) {uri : List UInt8} {temp : ℕ}
    (hfind : s.cache.find uri fuel s.cache.head = some (some temp)) : temp ∈ l := by
  have hmore := Cache.find_mono hfind (le_max_left fuel (l.length + 1))
  rw [Cache.find_eq h.holds.follows (by omega)] at hmore
  exact List.mem_of_find?_eq_some (Option.some.inj hmore)

/-- Whatever the list was, `delete` of the only node leaves it empty. -/
lemma Keeps.only (h : s.Keeps l) (node : Option ℕ) :
    Keeps { s with cache := s.cache.initializeCache.free node } [] := by
  have hc : (s.cache.initializeCache.free node).Holds [] := by
    cases node with
    | none => exact s.cache.holds_initializeCache
    | some a => exact s.cache.holds_initializeCache.free a
  have hsame : ∀ b, Cache.SameData (s.cache.nodes b)
      ((s.cache.initializeCache.free node).nodes b) := by
    intro b
    rw [Cache.nodes_free]
    exact .refl _
  exact h.cache hc hsame fun a ha => by cases ha

/-- The locked body of `delete` takes a node of the list out of it. -/
lemma Keeps.locked (h : s.Keeps l) {a : ℕ} {c : Cache} (ha : a ∈ l)
    (hdelete : s.cache.deleteLocked (some a) = some c) :
    ∃ l', Keeps { s with cache := c } l' := by
  obtain ⟨l₁, l₂, rfl⟩ := List.append_of_mem ha
  obtain ⟨c', hdelete', hc, hsame⟩ := h.holds.deleteLocked
  rw [hdelete] at hdelete'
  cases hdelete'
  refine ⟨l₁ ++ l₂, h.cache hc hsame ?_⟩
  intro b hb
  exact h.used b (List.perm_middle.symm.subset (List.mem_cons_of_mem a hb))

/-- The body of `insert` puts a node in front that was not in the list. -/
lemma Keeps.insert (h : s.Keeps l) {a : ℕ} (ha : s.used a = true) (hnew : ¬ s.cache.Links a)
    (hfree : -2 ^ 31 ≤ s.cache.freeCacheSize - (s.cache.nodes a).length) :
    Keeps { s with cache := s.cache.insert a } (a :: l) := by
  have hc := h.holds.insert (fun hl => hnew (h.holds.links_iff.2 hl)) (h.nonneg a ha) hfree
  apply h.cache hc (s.cache.sameData_insert a)
  intro b hb
  rcases List.mem_cons.1 hb with rfl | hb
  · exact ha
  · exact h.used b hb

/-- A section of a thread keeps the list, where it meets the condition. -/
lemma Keeps.runPc (h : s.Keeps l) (hok : Proper s (.run i fuel))
    (he : s.runPc i fuel (s.pc i) = some s') : ∃ l', s'.Keeps l' := by
  have hpending := h.pending i
  simp only [Proper] at hok
  -- one case for each place that a thread may have reached
  cases hpc : s.pc i with
  | idle =>
    rw [hpc] at he
    cases he
  | walk uri =>
    rw [hpc] at he
    obtain ⟨r, hfind, rfl⟩ := Option.map_eq_some_iff.1 he
    cases r with
    | none => exact ⟨l, h.goto fun a ha => by cases ha⟩
    | some temp =>
      refine ⟨l, h.goto fun a ha => ?_⟩
      cases ha
      exact h.used _ (h.walk hfind)
  | test node k =>
    rw [hpc] at he hpending
    cases he
    refine ⟨l, h.goto fun a ha => hpending a ?_⟩
    split_ifs at ha <;> exact ha
  | only node k =>
    rw [hpc] at he hpending
    cases he
    refine ⟨[], (h.only node).goto fun a ha => hpending a ?_⟩
    rwa [node_pc] at ha
  | locked node k =>
    rw [hpc] at he hpending hok
    obtain ⟨c, hdelete, rfl⟩ := Option.map_eq_some_iff.1 he
    cases node with
    | none => cases hdelete
    | some a =>
      obtain ⟨l', hl'⟩ := h.locked (h.holds.links_iff.1 hok) hdelete
      refine ⟨l', hl'.goto fun b hb => hpending b ?_⟩
      rwa [node_pc] at hb
  | insert a =>
    rw [hpc] at he hpending hok
    cases he
    exact ⟨a :: l, (h.insert (hpending a rfl) hok.1 hok.2).goto fun b hb => by cases hb⟩
  | loop node length =>
    rw [hpc] at he hpending
    cases he
    refine ⟨l, h.goto fun a ha => hpending a ?_⟩
    split_ifs at ha <;> exact ha
  | readTail node length =>
    rw [hpc] at he hpending
    cases he
    exact ⟨l, h.goto fun a ha => hpending a ha⟩

/-- A node that was never used before is in no list. -/
lemma Keeps.put (h : s.Keeps l) {node : ℕ} {uri : List UInt8} {content : ℕ → UInt8} {length : ℤ}
    {c : Cache} (hnode : s.used node = false)
    (hcreate : s.cache.createNode node uri content length = some c) :
    Keeps { s with cache := c, used := Function.update s.used node true } l := by
  obtain ⟨⟨-, hlength⟩, -, -, -, hnodes, -, -, hlen, -⟩ := Cache.createNode_spec hcreate
  have hne : ∀ a, s.used a = true → a ≠ node := by
    rintro a ha rfl
    exact Bool.false_ne_true (hnode.symm.trans ha)
  have hmore : ∀ a, s.used a = true → Function.update s.used node true a = true := by
    intro a ha
    rw [Function.update_of_ne (hne a ha), ha]
  refine ⟨h.holds.createNode (fun hl => hne node (h.used node hl) rfl) hcreate,
    fun a ha => hmore a (h.used a ha), ?_, fun i a ha => hmore a (h.pending i a ha)⟩
  intro a ha
  by_cases hnode' : a = node
  · rw [hnode', hlen]
    exact hlength
  · rw [hnodes a hnode']
    have hused : s.used a = true := by
      rw [← Function.update_of_ne hnode' true s.used]
      exact ha
    exact h.nonneg a hused

/-- So does every step. -/
lemma Keeps.step (h : s.Keeps l) (hok : Proper s e) (he : step s e = some s') :
    ∃ l', s'.Keeps l' := by
  cases e with
  | get i uri =>
    simp only [Shared.step] at he
    split at he
    · cases he
      exact ⟨l, h.goto fun a ha => by cases ha⟩
    · cases he
  | put i node uri content length =>
    simp only [Shared.step] at he
    split at he
    · split_ifs at he with hused
      obtain ⟨c, hcreate, rfl⟩ := Option.map_eq_some_iff.1 he
      refine ⟨l, (h.put (Bool.eq_false_iff.2 hused) hcreate).goto ?_⟩
      intro a ha
      cases ha
      exact Function.update_self _ _ _
    · cases he
  | run i fuel => exact h.runPc hok he

/-- As long as no thread takes a node out that has gone already, and none puts one in that is
there already, the list stays intact. -/
theorem list_stays_intact (s₀ : Cache) (s : Shared) (h : Reaches step Proper (start s₀) s) :
    s.Intact := by
  have hinv : ∃ l, s.Keeps l := by
    apply h.invariant
    · refine ⟨[], s₀.holds_initializeCache, ?_, ?_, ?_⟩
      · intro a ha
        cases ha
      · intro a ha
        cases ha
      · intro i a ha
        cases ha
    · intro s e s' hs hok he
      obtain ⟨l, hl⟩ := hs
      exact hl.step hok he
  obtain ⟨l, hl⟩ := hinv
  exact hl.intact

/-- Two threads have put an object each, and then look for them at the same time. -/
def twoHits : List Act :=
  [.put 0 0 [97] (fun _ => 7) 1, .run 0 1, .run 0 1,
    .put 1 1 [98] (fun _ => 8) 2, .run 1 1, .run 1 1,
    .get 0 [97], .get 1 [98], .run 0 3, .run 1 3, .run 0 1, .run 1 1,
    .run 0 1, .run 1 1, .run 0 1, .run 1 1]

/-- Each thread deletes its node while it is in the list, and inserts it while it is not. -/
lemma meets_twoHits : Meets step Proper (start Cache.unset) twoHits := by
  -- the first object is put
  refine (meets_cons rfl).2 ⟨trivial, (meets_cons rfl).2 ⟨by trivial, ?_⟩⟩
  refine (meets_cons rfl).2 ⟨⟨Cache.Follows.not_links (l := []) rfl (by decide), by decide⟩, ?_⟩
  -- the second object is put in front of it
  refine (meets_cons rfl).2 ⟨trivial, (meets_cons rfl).2 ⟨by trivial, ?_⟩⟩
  refine (meets_cons rfl).2
    ⟨⟨Cache.Follows.not_links (l := [0]) ⟨rfl, rfl⟩ (by decide), by decide⟩, ?_⟩
  -- the calls, the walks and the tests
  refine (meets_cons rfl).2 ⟨trivial, (meets_cons rfl).2 ⟨by trivial, ?_⟩⟩
  refine (meets_cons rfl).2 ⟨trivial, (meets_cons rfl).2 ⟨by trivial, ?_⟩⟩
  refine (meets_cons rfl).2 ⟨trivial, (meets_cons rfl).2 ⟨by trivial, ?_⟩⟩
  -- both nodes are deleted before either is inserted
  refine (meets_cons rfl).2 ⟨Cache.Follows.links_of_mem (l := [1, 0]) ⟨rfl, rfl, rfl⟩ (by decide), ?_⟩
  refine (meets_cons rfl).2 ⟨Cache.Follows.links_of_mem (l := [1]) ⟨rfl, rfl⟩ (by decide), ?_⟩
  refine (meets_cons rfl).2 ⟨⟨Cache.Follows.not_links (l := []) rfl (by decide), by decide⟩, ?_⟩
  exact (meets_cons rfl).2
    ⟨⟨Cache.Follows.not_links (l := [0]) ⟨rfl, rfl⟩ (by decide), by decide⟩, trivial⟩

theorem list_stays_intact_twoHits :
    ∃ s, after step (start Cache.unset) twoHits = some s ∧ s.Intact := by
  have hsome : (after step (start Cache.unset) twoHits).isSome := by decide +kernel
  obtain ⟨s, hrun⟩ := Option.isSome_iff_exists.1 hsome
  exact ⟨s, hrun, list_stays_intact Cache.unset s (reaches_of_after hrun meets_twoHits)⟩

/-- Two lookups find the node in the middle of the list, and both delete it. -/
theorem two_hits_break_the_list :
    ∃ s, after step (start Cache.unset)
        [.put 0 0 [97] (fun _ => 7) 1, .run 0 1, .run 0 1,
          .put 0 1 [98] (fun _ => 7) 1, .run 0 1, .run 0 1,
          .put 0 2 [99] (fun _ => 7) 1, .run 0 1, .run 0 1,
          .get 0 [98], .get 1 [98], .run 0 3, .run 1 3,
          .run 0 1, .run 0 1, .run 1 1, .run 1 1] = some s ∧ ¬ s.Intact := by
  refine ⟨_, rfl, ?_⟩
  intro hintact
  obtain ⟨l, hfollows, -, -, hbudget⟩ := hintact
  -- the list has two nodes left, and the third has given its bytes back twice
  have htwo := hfollows.unique (show Cache.Follows _ _ [2, 0] from ⟨rfl, rfl, rfl⟩)
  rw [htwo] at hbudget
  revert hbudget
  decide

end Shared

end Proxylab
end SystemsLabs
