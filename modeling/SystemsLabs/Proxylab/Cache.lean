import SystemsLabs.Memory.Links
import SystemsLabs.Caching.Budget

/-!
# cache.c

The proxy's cache. A node is an address, `NULL` is `none`, and `nodes` is what the memory holds
at each address: `free` leaves the fields of a node readable, as the program relies on. Which
nodes are allocated is kept beside, and whether a node that was not allocated has been freed.
A run that follows `NULL` goes wrong, and so do one that copies a URI behind its block and a
loop that has not ended after `fuel` turns.

The functions are pure: they take the globals and the memory and return them. The locks have
no effect where the functions run one after the other.
-/

namespace SystemsLabs
namespace Proxylab

def MAX_CACHE_SIZE : ℕ := 1049000

def MAX_OBJECT_SIZE : ℕ := 102400

/-- The `int` that an arithmetic operation leaves. -/
def wrap (x : ℤ) : ℤ := x.bmod (2 ^ 32)

/-- An `int` that does not overflow. -/
lemma wrap_of_mem {x : ℤ} (h : -2 ^ 31 ≤ x) (h' : x < 2 ^ 31) : wrap x = x := by
  rw [wrap, Int.bmod_def]
  split_ifs <;> omega

/-- `struct cache`. The strings are those that `uri` and `content` point to. -/
structure Node where
  next : Option ℕ
  prev : Option ℕ
  uri : List UInt8
  content : List UInt8
  length : ℤ

/-- The globals of cache.c, the memory of its nodes, and the state of the allocator. -/
structure Cache where
  nodes : ℕ → Node
  head : Option ℕ
  tail : Option ℕ
  freeCacheSize : ℤ
  allocated : ℕ → Bool
  doubleFree : Bool

namespace Cache

/-- `node->next = v`. -/
def setNext (s : Cache) (node : ℕ) (v : Option ℕ) : Cache :=
  { s with nodes := Function.update s.nodes node { s.nodes node with next := v } }

/-- `node->prev = v`. -/
def setPrev (s : Cache) (node : ℕ) (v : Option ℕ) : Cache :=
  { s with nodes := Function.update s.nodes node { s.nodes node with prev := v } }

/-- `free(node)`, which does nothing to `NULL`. -/
def free (s : Cache) : Option ℕ → Cache
  | none => s
  | some node =>
    { s with
      allocated := Function.update s.allocated node false
      doubleFree := s.doubleFree || !s.allocated node }

/-- The memory before `initialize_cache`: the globals are zero. -/
def unset : Cache where
  nodes _ := { next := none, prev := none, uri := [], content := [], length := 0 }
  head := none
  tail := none
  freeCacheSize := 0
  allocated _ := false
  doubleFree := false

/-- `initialize_cache()`. -/
def initializeCache (s : Cache) : Cache :=
  { s with head := none, tail := none, freeCacheSize := MAX_CACHE_SIZE }

/-- `insert(node)`. -/
def insert (s : Cache) (node : ℕ) : Cache :=
  let s' :=
    match s.head with
    | none =>
      { (s.setNext node none).setPrev node none with head := some node, tail := some node }
    | some head =>
      { ((s.setNext node (some head)).setPrev node none).setPrev head (some node) with
        head := some node }
  { s' with freeCacheSize := wrap (s'.freeCacheSize - (s'.nodes node).length) }

/-- The first assignment of `delete`: `node->prev->next`, or the head. -/
def skipForward (s : Cache) (node : ℕ) : Option Cache :=
  if some node ≠ s.head then (s.nodes node).prev.map fun p => s.setNext p (s.nodes node).next
  else some { s with head := (s.nodes node).next }

/-- The second assignment of `delete`: `node->next->prev`, or the tail. -/
def skipBackward (s : Cache) (node : ℕ) : Option Cache :=
  if some node ≠ s.tail then (s.nodes node).next.map fun n => s.setPrev n (s.nodes node).prev
  else some { s with tail := (s.nodes node).prev }

/-- What `delete(node)` does while it holds the lock. -/
def deleteLocked (s : Cache) (node : Option ℕ) : Option Cache := do
  let n ← node
  let s ← s.skipForward n
  let s ← s.skipBackward n
  some ({ s with freeCacheSize := wrap (s.freeCacheSize + (s.nodes n).length) }.free node)

/-- The test of `delete(node)`, which it makes without the lock. -/
def isOnly (s : Cache) (node : Option ℕ) : Bool := node = s.head ∧ node = s.tail

/-- `delete(node)`. The only node is deleted by initialising the cache again. -/
def delete (s : Cache) (node : Option ℕ) : Option Cache :=
  if s.isOnly node then some (s.initializeCache.free node) else s.deleteLocked node

/-- The loop of `get_cache_item`: the first node from `temp` on with that URI. -/
def find (s : Cache) (uri : List UInt8) : (fuel : ℕ) → (temp : Option ℕ) → Option (Option ℕ)
  | 0, _ => none
  | _ + 1, none => some none
  | fuel + 1, some temp =>
    if (s.nodes temp).uri = uri then some (some temp) else s.find uri fuel (s.nodes temp).next

/-- `get_cache_item(uri)`. -/
def getCacheItem (fuel : ℕ) (s : Cache) (uri : List UInt8) : Option (Option ℕ × Cache) := do
  match ← s.find uri fuel s.head with
  | some temp =>
    let s ← s.delete (some temp)
    some (some temp, s.insert temp)
  | none => some (none, s)

/-- The loop of `put_cache_item`. -/
def evict (length : ℤ) : (fuel : ℕ) → Cache → Option Cache
  | 0, _ => none
  | fuel + 1, s =>
    if length > s.freeCacheSize then (s.delete s.tail).bind (evict length fuel) else some s

/-- The node that `put_cache_item` fills, where `malloc` returned `node`. `strcpy` writes behind
the block of 1024 bytes where a URI does not fit with its NUL, and a block of a negative length
cannot be had. -/
def createNode (s : Cache) (node : ℕ) (uri : List UInt8) (content : ℕ → UInt8) (length : ℤ) :
    Option Cache :=
  if uri.length < 1024 ∧ 0 ≤ length then
    some
      { s with
        nodes := Function.update s.nodes node
          { s.nodes node with
            uri := uri
            content := (List.range length.toNat).map content
            length := length }
        allocated := Function.update s.allocated node true }
  else none

/-- `put_cache_item(uri, content, length)`, where `malloc` returns `node`. -/
def putCacheItem (fuel : ℕ) (s : Cache) (node : ℕ) (uri : List UInt8) (content : ℕ → UInt8)
    (length : ℤ) : Option Cache := do
  let s ← s.createNode node uri content length
  let s ← s.evict length fuel
  some (s.insert node)

/-! ## The list in memory -/

/-- What comes after a node, and first of all the head. -/
def nxt (s : Cache) : Option ℕ → Option ℕ
  | none => s.head
  | some node => (s.nodes node).next

/-- What comes before a node, and last of all the tail. -/
def prv (s : Cache) : Option ℕ → Option ℕ
  | none => s.tail
  | some node => (s.nodes node).prev

/-- The bytes that the nodes account for. -/
def bytes (s : Cache) (l : List ℕ) : ℤ := (l.map fun node => (s.nodes node).length).sum

open Memory in
/-- The nodes of `l` are the list: linked both ways from the head to the tail, each once. -/
structure Shape (s : Cache) (l : List ℕ) : Prop where
  chain : Chain s.nxt s.prv none (l.map some) none
  tail : s.tail = (l.map some).getLastD none
  nodup : l.Nodup

/-- The nodes of `l` are the list, and `free_cache_size` is what they leave of the budget. -/
structure Holds (s : Cache) (l : List ℕ) : Prop extends Shape s l where
  budget : s.freeCacheSize = MAX_CACHE_SIZE - s.bytes l
  nonneg : ∀ node ∈ l, 0 ≤ (s.nodes node).length
  lower : -2 ^ 31 ≤ s.freeCacheSize

/-- The node is the same but for its links. -/
def SameData (n n' : Node) : Prop :=
  n'.uri = n.uri ∧ n'.content = n.content ∧ n'.length = n.length

lemma SameData.refl (n : Node) : SameData n n := ⟨rfl, rfl, rfl⟩

lemma SameData.trans {n n' n'' : Node} (h : SameData n n') (h' : SameData n' n'') :
    SameData n n'' := ⟨h'.1.trans h.1, h'.2.1.trans h.2.1, h'.2.2.trans h.2.2⟩

section Updates
variable (s : Cache) (a b : ℕ) (v : Option ℕ) (q : Option ℕ)

lemma nxt_setNext : (s.setNext a v).nxt q = if q = some a then v else s.nxt q := by
  cases q with
  | none => rfl
  | some b =>
    simp only [nxt, setNext, Function.update_apply, Option.some.injEq]
    split_ifs <;> rfl

lemma prv_setNext : (s.setNext a v).prv q = s.prv q := by
  cases q with
  | none => rfl
  | some b =>
    simp only [prv, setNext, Function.update_apply]
    split_ifs with h
    · rw [h]
    · rfl

lemma nxt_setPrev : (s.setPrev a v).nxt q = s.nxt q := by
  cases q with
  | none => rfl
  | some b =>
    simp only [nxt, setPrev, Function.update_apply]
    split_ifs with h
    · rw [h]
    · rfl

lemma prv_setPrev : (s.setPrev a v).prv q = if q = some a then v else s.prv q := by
  cases q with
  | none => rfl
  | some b =>
    simp only [prv, setPrev, Function.update_apply, Option.some.injEq]
    split_ifs <;> rfl

lemma sameData_setNext : SameData (s.nodes b) ((s.setNext a v).nodes b) := by
  simp only [SameData, setNext, Function.update_apply]
  split_ifs with h
  · rw [h]
    exact ⟨rfl, rfl, rfl⟩
  · exact ⟨rfl, rfl, rfl⟩

lemma sameData_setPrev : SameData (s.nodes b) ((s.setPrev a v).nodes b) := by
  simp only [SameData, setPrev, Function.update_apply]
  split_ifs with h
  · rw [h]
    exact ⟨rfl, rfl, rfl⟩
  · exact ⟨rfl, rfl, rfl⟩

lemma nodes_free : (s.free q).nodes = s.nodes := by
  cases q <;> rfl

/-- The link behind a node, or the head, is written. -/
def linkAfter (s : Cache) : Option ℕ → Option ℕ → Cache
  | none, v => { s with head := v }
  | some node, v => s.setNext node v

/-- The link in front of a node, or the tail, is written. -/
def linkBefore (s : Cache) : Option ℕ → Option ℕ → Cache
  | none, v => { s with tail := v }
  | some node, v => s.setPrev node v

lemma nxt_linkAfter (p : Option ℕ) : (s.linkAfter p v).nxt q = if q = p then v else s.nxt q := by
  cases p with
  | none => cases q <;> rfl
  | some node => exact s.nxt_setNext node v q

lemma prv_linkAfter (p : Option ℕ) : (s.linkAfter p v).prv q = s.prv q := by
  cases p with
  | none => cases q <;> rfl
  | some node => exact s.prv_setNext node v q

lemma nxt_linkBefore (p : Option ℕ) : (s.linkBefore p v).nxt q = s.nxt q := by
  cases p with
  | none => cases q <;> rfl
  | some node => exact s.nxt_setPrev node v q

lemma prv_linkBefore (p : Option ℕ) :
    (s.linkBefore p v).prv q = if q = p then v else s.prv q := by
  cases p with
  | none => cases q <;> rfl
  | some node => exact s.prv_setPrev node v q

lemma sameData_linkAfter (p : Option ℕ) : SameData (s.nodes b) ((s.linkAfter p v).nodes b) := by
  cases p with
  | none => exact .refl _
  | some node => exact s.sameData_setNext node b v

lemma sameData_linkBefore (p : Option ℕ) : SameData (s.nodes b) ((s.linkBefore p v).nodes b) := by
  cases p with
  | none => exact .refl _
  | some node => exact s.sameData_setPrev node b v

/-- `insert` writes the links of the new head and of the old one. -/
lemma nxt_insert : (s.insert a).nxt q =
    if q = none then some a else if q = some a then s.head else s.nxt q := by
  cases q with
  | none =>
    unfold insert
    cases s.head <;> rfl
  | some b =>
    unfold insert
    cases s.head with
    | none =>
      simp only [nxt, setNext, setPrev, Function.update_apply, Option.some.injEq, reduceCtorEq,
        if_false]
      split_ifs <;> simp_all
    | some head =>
      simp only [nxt, setNext, setPrev, Function.update_apply, Option.some.injEq, reduceCtorEq,
        if_false]
      split_ifs <;> simp_all

/-- The old first node gets the new one in front of it. -/
lemma prv_insert (hne : s.head ≠ some a) (b : ℕ) : (s.insert a).prv (some b) =
    if b = a then none else if s.head = some b then some a else s.prv (some b) := by
  unfold insert
  cases hh : s.head with
  | none =>
    simp only [prv, setNext, setPrev, Function.update_apply, reduceCtorEq, if_false]
    split_ifs <;> simp_all
  | some head =>
    have hha : head ≠ a := by
      rintro rfl
      exact hne hh
    simp only [prv, setNext, setPrev, Function.update_apply, Option.some.injEq]
    by_cases hb : b = head
    · simp only [hb, hha, if_true, if_false]
    · by_cases hba : b = a
      · rw [if_neg hb, if_pos hba, if_pos hba]
      · rw [if_neg hb, if_neg hba, if_neg hba, if_neg hba, if_neg (Ne.symm hb)]

/-- The first node of an empty list is its last one as well. -/
lemma tail_insert : (s.insert a).tail = if s.head = none then some a else s.tail := by
  unfold insert
  cases s.head <;> rfl

/-- `insert` changes links only. -/
lemma sameData_insert : SameData (s.nodes b) ((s.insert a).nodes b) := by
  unfold insert
  cases s.head with
  | none => exact (s.sameData_setNext a b none).trans (sameData_setPrev _ a b none)
  | some head =>
    exact ((s.sameData_setNext a b _).trans (sameData_setPrev _ a b none)).trans
      (sameData_setPrev _ head b _)

/-- `insert` takes the bytes of its node. -/
lemma freeCacheSize_insert :
    (s.insert a).freeCacheSize = wrap (s.freeCacheSize - (s.nodes a).length) := by
  have hlength := (s.sameData_insert a a).2.2
  unfold insert at hlength ⊢
  cases hh : s.head with
  | none =>
    rw [hh] at hlength
    exact congrArg (fun n => wrap (s.freeCacheSize - n)) hlength
  | some head =>
    rw [hh] at hlength
    exact congrArg (fun n => wrap (s.freeCacheSize - n)) hlength

lemma allocated_insert : (s.insert a).allocated = s.allocated := by
  unfold insert
  cases s.head <;> rfl

lemma doubleFree_insert : (s.insert a).doubleFree = s.doubleFree := by
  unfold insert
  cases s.head <;> rfl

end Updates

section Holds
variable {s s' : Cache} {l l₁ l₂ : List ℕ} {a : ℕ}

/-- The bytes depend on the lengths only. -/
lemma bytes_congr (h : ∀ b ∈ l, (s'.nodes b).length = (s.nodes b).length) :
    s'.bytes l = s.bytes l := by
  rw [bytes, bytes, List.map_congr_left h]

@[simp] lemma bytes_nil : s.bytes [] = 0 := rfl

@[simp] lemma bytes_cons : s.bytes (a :: l) = (s.nodes a).length + s.bytes l := by
  rw [bytes, List.map_cons, List.sum_cons, bytes]

@[simp] lemma bytes_append : s.bytes (l₁ ++ l₂) = s.bytes l₁ + s.bytes l₂ := by
  rw [bytes, List.map_append, List.sum_append, bytes, bytes]

/-- What `delete(node)` does to the links while it holds the lock. -/
def unlink (s : Cache) (a : ℕ) : Cache :=
  (s.linkAfter (s.nodes a).prev (s.nodes a).next).linkBefore (s.nodes a).next (s.nodes a).prev

/-- Unlinking gives no bytes back yet. -/
lemma freeCacheSize_unlink (s : Cache) (a : ℕ) :
    (s.unlink a).freeCacheSize = s.freeCacheSize ∧ (s.unlink a).allocated = s.allocated ∧
      (s.unlink a).doubleFree = s.doubleFree := by
  unfold unlink
  cases (s.nodes a).prev <;> cases (s.nodes a).next <;> exact ⟨rfl, rfl, rfl⟩

lemma sameData_unlink (s : Cache) (a b : ℕ) : SameData (s.nodes b) ((s.unlink a).nodes b) :=
  (s.sameData_linkAfter b _ _).trans (sameData_linkBefore _ b _ _)

/-- The tests for the head and the tail find out whether there are neighbours. -/
lemma deleteLocked_eq (hhead : some a = s.head ↔ (s.nodes a).prev = none)
    (htail : some a = s.tail ↔ (s.nodes a).next = none) (ha : (s.nodes a).prev ≠ some a) :
    s.deleteLocked (some a) = some
      (({ s.unlink a with
        freeCacheSize := wrap (s.freeCacheSize + (s.nodes a).length) } : Cache).free (some a)) := by
  have hfirst : s.skipForward a = some (s.linkAfter (s.nodes a).prev (s.nodes a).next) := by
    unfold skipForward
    cases hp : (s.nodes a).prev with
    | none =>
      rw [if_neg (not_not.2 (hhead.2 hp))]
      rfl
    | some p =>
      rw [if_pos]
      · rfl
      · rw [ne_eq, hhead, hp]
        simp
  -- the first assignment touches neither the tail nor the links of the node itself
  have htail₁ := s.prv_linkAfter (s.nodes a).next none (s.nodes a).prev
  have hprev₁ := s.prv_linkAfter (s.nodes a).next (some a) (s.nodes a).prev
  have hnext₁ := s.nxt_linkAfter (s.nodes a).next (some a) (s.nodes a).prev
  rw [if_neg (Ne.symm ha)] at hnext₁
  simp only [prv, nxt] at htail₁ hprev₁ hnext₁
  have hsecond : ∀ t : Cache, t.tail = s.tail → (t.nodes a).prev = (s.nodes a).prev →
      (t.nodes a).next = (s.nodes a).next →
      t.skipBackward a = some (t.linkBefore (s.nodes a).next (s.nodes a).prev) := by
    intro t ht hp hn
    rw [skipBackward, ht, hp, hn]
    cases hn' : (s.nodes a).next with
    | none =>
      rw [if_neg (not_not.2 (htail.2 hn'))]
      rfl
    | some n =>
      rw [if_pos]
      · rfl
      · rw [ne_eq, htail, hn']
        simp
  rw [deleteLocked]
  simp only [Option.bind_eq_bind, Option.bind_some]
  rw [hfirst, Option.bind_some, hsecond _ htail₁ hprev₁ hnext₁, Option.bind_some]
  have hfree := (s.freeCacheSize_unlink a).1
  have hlength := (s.sameData_unlink a a).2.2
  unfold unlink at hfree hlength ⊢
  rw [hfree, hlength]

/-- The last element of the back part. -/
lemma getLastD_middle {α : Type*} (l₁ l₂ : List α) (x d : α) :
    (l₁ ++ x :: l₂).getLastD d = l₂.getLastD x := by
  induction l₁ generalizing d with
  | nil => rw [List.nil_append, List.getLastD_cons]
  | cons y l₁ ih => rw [List.cons_append, List.getLastD_cons, ih]

/-- No node has a negative length. -/
lemma Holds.bytes_nonneg (h : s.Holds l) : 0 ≤ s.bytes l := by
  apply List.sum_nonneg
  intro n hn
  obtain ⟨b, hb, rfl⟩ := List.mem_map.1 hn
  exact h.nonneg b hb

/-- The list starts at the head. -/
lemma Shape.head_eq (h : s.Shape l) : s.head = l.head? := by
  have hchain := h.chain
  cases l with
  | nil => exact Memory.chain_nil.1 hchain
  | cons b l =>
    rw [List.map_cons, Memory.chain_cons] at hchain
    exact hchain.1

/-- A node that is not in the list is put at its front. -/
theorem Shape.insert (h : s.Shape l) (ha : a ∉ l) : (s.insert a).Shape (a :: l) := by
  have hne : s.head ≠ some a := by
    rw [h.head_eq]
    intro hh
    exact ha (List.mem_of_mem_head? hh)
  have hmem : ∀ {q : Option ℕ}, q ∈ l.map some → q ≠ none ∧ q ≠ some a := by
    intro q hq
    obtain ⟨b, hb, rfl⟩ := List.mem_map.1 hq
    refine ⟨by simp, ?_⟩
    intro hba
    rw [Option.some.inj hba] at hb
    exact ha hb
  constructor
  · -- the chain gets a new first node, and the old one points back to it
    rw [List.map_cons]
    apply h.chain.insert (h.nodup.map (Option.some_injective ℕ))
    · rw [nxt_insert, if_pos rfl]
    · rw [nxt_insert, if_neg (by simp), if_pos rfl]
      rfl
    · rw [prv_insert _ _ hne, if_pos rfl]
    · intro hhead
      have hhead' : s.head ∈ l.map some := hhead
      obtain ⟨b, hb, hbh⟩ := List.mem_map.1 hhead'
      show (s.insert a).prv s.head = some a
      rw [← hbh, prv_insert _ _ hne, if_neg (by rintro rfl; exact ha hb), if_pos hbh.symm]
    · intro q hq
      rw [nxt_insert, if_neg (hmem hq).1, if_neg (hmem hq).2]
    · intro q hq hqh
      obtain ⟨b, hb, rfl⟩ := List.mem_map.1 hq
      rw [prv_insert _ _ hne, if_neg (by rintro rfl; exact ha hb), if_neg]
      exact fun hh => hqh hh.symm
  · rw [tail_insert, h.head_eq, h.tail]
    cases l with
    | nil => rfl
    | cons b l =>
      rw [List.map_cons, List.map_cons, List.map_cons, List.getLastD_cons, List.getLastD_cons,
        List.getLastD_cons, if_neg (by simp)]
  · exact List.nodup_cons.2 ⟨ha, h.nodup⟩

/-- It is paid for from the budget. -/
theorem Holds.insert (h : s.Holds l) (ha : a ∉ l) (hlen : 0 ≤ (s.nodes a).length)
    (hlow : -2 ^ 31 ≤ s.freeCacheSize - (s.nodes a).length) : (s.insert a).Holds (a :: l) := by
  have hsame := fun b => (s.sameData_insert a b).2.2
  refine ⟨h.toShape.insert ha, ?_, ?_, ?_⟩
  · have hb := h.bytes_nonneg
    have hbudget := h.budget
    rw [freeCacheSize_insert, wrap_of_mem hlow (by unfold MAX_CACHE_SIZE at hbudget; omega),
      bytes_cons, bytes_congr fun b _ => hsame b, hsame, hbudget]
    ring
  · intro b hb
    rw [hsame]
    rcases List.mem_cons.1 hb with rfl | hb
    · exact hlen
    · exact h.nonneg b hb
  · have hb := h.bytes_nonneg
    have hbudget := h.budget
    rw [freeCacheSize_insert, wrap_of_mem hlow (by unfold MAX_CACHE_SIZE at hbudget; omega)]
    exact hlow

/-- The list is empty if the head and the tail are `NULL`. -/
lemma shape_nil (hhead : s.head = none) (htail : s.tail = none) : s.Shape [] where
  chain := Memory.chain_nil.2 hhead
  tail := htail
  nodup := List.nodup_nil

/-- An empty cache, with its whole budget. -/
lemma holds_initializeCache (s : Cache) : s.initializeCache.Holds [] where
  toShape := shape_nil rfl rfl
  budget := rfl
  nonneg := fun _ hb => by cases hb
  lower := by
    show -2 ^ 31 ≤ ((MAX_CACHE_SIZE : ℕ) : ℤ)
    unfold MAX_CACHE_SIZE
    norm_num

/-- To free a node changes no field. -/
lemma Holds.free (h : s.Holds l) (a : ℕ) : (s.free (some a)).Holds l where
  toShape := ⟨h.chain, h.tail, h.nodup⟩
  budget := h.budget
  nonneg := h.nonneg
  lower := h.lower

/-- A list that is not empty has a last node. -/
lemma exists_last (b : ℕ) (l : List ℕ) (x : Option ℕ) :
    ∃ c ∈ b :: l, ((b :: l).map some).getLastD x = some c := by
  have hlast : ((b :: l).map some).getLastD x ∈ (b :: l).map some := by
    rw [List.map_cons, List.getLastD_cons]
    exact Memory.getLastD_mem
  obtain ⟨c, hc, he⟩ := List.mem_map.1 hlast
  exact ⟨c, hc, he.symm⟩

section Middle

section Shape
variable (h : s.Shape (l₁ ++ a :: l₂))
include h

/-- A node is in the list only once. -/
lemma Shape.not_mem : a ∉ l₁ ++ l₂ := (List.nodup_cons.1 (List.nodup_middle.1 h.nodup)).1

/-- A node is the first one if nothing is in front of it. -/
lemma Shape.head_iff : some a = s.head ↔ l₁ = [] := by
  rw [h.head_eq]
  cases l₁ with
  | nil => simp
  | cons b l₁ =>
    have hne : a ≠ b := by
      rintro rfl
      exact h.not_mem List.mem_cons_self
    simpa using hne

/-- A node is the last one if nothing is behind it. -/
lemma Shape.tail_iff : some a = s.tail ↔ l₂ = [] := by
  rw [h.tail, List.map_append, List.map_cons, getLastD_middle]
  cases l₂ with
  | nil => simp
  | cons c l₂ =>
    obtain ⟨d, hd, hlast⟩ := exists_last c l₂ (some a)
    rw [hlast]
    have hne : a ≠ d := by
      rintro rfl
      exact h.not_mem (List.mem_append_right _ hd)
    simpa using hne

/-- `prev` is the last node of the part in front. -/
lemma Shape.prev_eq : (s.nodes a).prev = (l₁.map some).getLastD none := by
  have hchain := h.chain
  rw [List.map_append, List.map_cons] at hchain
  exact hchain.prv_eq

lemma Shape.prev_none : (s.nodes a).prev = none ↔ l₁ = [] := by
  rw [h.prev_eq]
  cases l₁ with
  | nil => simp
  | cons b l₁ =>
    obtain ⟨d, -, hlast⟩ := exists_last b l₁ none
    rw [hlast]
    simp

/-- No node is its own neighbour. -/
lemma Shape.prev_ne : (s.nodes a).prev ≠ some a := by
  rw [h.prev_eq]
  cases l₁ with
  | nil => simp
  | cons b l₁ =>
    obtain ⟨d, hd, hlast⟩ := exists_last b l₁ none
    rw [hlast]
    intro hda
    rw [Option.some.inj hda] at hd
    exact h.not_mem (List.mem_append_left _ hd)

lemma Shape.next_none : (s.nodes a).next = none ↔ l₂ = [] := by
  have hchain := h.chain
  rw [List.map_append, List.map_cons] at hchain
  have hrest := hchain.tail
  cases l₂ with
  | nil =>
    have hnext : (s.nodes a).next = none := Memory.chain_nil.1 hrest
    simp [hnext]
  | cons c l₂ =>
    rw [List.map_cons, Memory.chain_cons] at hrest
    have hnext : (s.nodes a).next = some c := hrest.1
    simp [hnext]

/-- The neighbours of a node are linked with each other. -/
lemma Shape.unlink : (s.unlink a).Shape (l₁ ++ l₂) := by
  have hnxt : ∀ q, (s.unlink a).nxt q = if q = s.prv (some a) then s.nxt (some a) else s.nxt q := by
    intro q
    rw [Cache.unlink, nxt_linkBefore, nxt_linkAfter]
    rfl
  have hprv : ∀ q, (s.unlink a).prv q = if q = s.nxt (some a) then s.prv (some a) else s.prv q := by
    intro q
    rw [Cache.unlink, prv_linkBefore, prv_linkAfter]
    rfl
  constructor
  · have hchain := h.chain
    have hnodup : (none :: (l₁ ++ a :: l₂).map some).Nodup :=
      List.nodup_cons.2 ⟨by simp, h.nodup.map (Option.some_injective ℕ)⟩
    rw [List.map_append, List.map_cons] at hchain hnodup
    rw [List.map_append]
    apply hchain.remove hnodup (List.nodup_cons.1 hnodup).1
    · rw [hnxt, if_pos rfl]
    · intro _
      rw [hprv, if_pos rfl]
    · intro q _ hq
      rw [hnxt, if_neg hq]
    · intro q _ hq
      rw [hprv, if_neg hq]
  · show (s.unlink a).prv none = _
    rw [hprv, List.map_append]
    cases l₂ with
    | nil =>
      have hn : none = s.nxt (some a) := (h.next_none.2 rfl).symm
      rw [if_pos hn, List.map_nil, List.append_nil]
      exact h.prev_eq
    | cons c l₂ =>
      -- the tail stays where it is
      rw [if_neg (fun hn => List.cons_ne_nil c l₂ (h.next_none.1 hn.symm))]
      have hold := h.tail
      rw [List.map_append, List.map_cons, getLastD_middle, List.map_cons,
        List.getLastD_cons] at hold
      rw [List.map_cons, getLastD_middle]
      exact hold
  · exact (List.nodup_cons.1 (List.nodup_middle.1 h.nodup)).2

/-- A node of the list is taken out of it and freed, and what it took is given back. -/
theorem Shape.deleteLocked : ∃ s', s.deleteLocked (some a) = some s' ∧ s'.Shape (l₁ ++ l₂) ∧
    (∀ b, SameData (s.nodes b) (s'.nodes b)) ∧
    s'.freeCacheSize = wrap (s.freeCacheSize + (s.nodes a).length) ∧
    s'.allocated = Function.update s.allocated a false ∧
    s'.doubleFree = (s.doubleFree || !s.allocated a) := by
  obtain ⟨-, halloc, hdouble⟩ := s.freeCacheSize_unlink a
  have hunlink := h.unlink
  refine ⟨_, s.deleteLocked_eq (h.head_iff.trans h.prev_none.symm)
    (h.tail_iff.trans h.next_none.symm) h.prev_ne, ⟨hunlink.chain, hunlink.tail, hunlink.nodup⟩,
    s.sameData_unlink a, rfl, ?_, ?_⟩
  · show Function.update (s.unlink a).allocated a false = _
    rw [halloc]
  · show ((s.unlink a).doubleFree || !(s.unlink a).allocated a) = _
    rw [halloc, hdouble]

/-- The test of `delete` finds the only node of the list. -/
lemma Shape.isOnly_iff : s.isOnly (some a) = true ↔ l₁ = [] ∧ l₂ = [] := by
  rw [isOnly, decide_eq_true_iff, h.head_iff, h.tail_iff]

/-- The only node goes with a new start of the cache, and any other node as above. -/
theorem Shape.delete : ∃ s', s.delete (some a) = some s' ∧ s'.Shape (l₁ ++ l₂) ∧
    (∀ b, SameData (s.nodes b) (s'.nodes b)) ∧
    s'.freeCacheSize = (if l₁ = [] ∧ l₂ = [] then (MAX_CACHE_SIZE : ℤ)
      else wrap (s.freeCacheSize + (s.nodes a).length)) ∧
    s'.allocated = Function.update s.allocated a false ∧
    s'.doubleFree = (s.doubleFree || !s.allocated a) := by
  by_cases honly : l₁ = [] ∧ l₂ = []
  · rw [Cache.delete, if_pos (h.isOnly_iff.2 honly)]
    refine ⟨s.initializeCache.free (some a), rfl, ?_, fun b => .refl _, ?_, rfl, rfl⟩
    · rw [honly.1, honly.2]
      exact shape_nil rfl rfl
    · rw [if_pos honly]
      rfl
  · rw [Cache.delete, if_neg (fun hc => honly (h.isOnly_iff.1 hc)), if_neg honly]
    exact h.deleteLocked

end Shape

variable (h : s.Holds (l₁ ++ a :: l₂))
include h

/-- Without the node the rest accounts for its bytes less, and fits an `int`. -/
lemma Holds.bytes_rest :
    0 ≤ s.bytes (l₁ ++ l₂) ∧ wrap (s.freeCacheSize + (s.nodes a).length) =
      MAX_CACHE_SIZE - s.bytes (l₁ ++ l₂) := by
  have hrest : 0 ≤ s.bytes (l₁ ++ l₂) := by
    apply List.sum_nonneg
    intro n hn
    obtain ⟨b, hb, rfl⟩ := List.mem_map.1 hn
    exact h.nonneg b (List.perm_middle.symm.subset (List.mem_cons_of_mem a hb))
  have ha : 0 ≤ (s.nodes a).length := h.nonneg a (List.mem_append_right _ List.mem_cons_self)
  have hbudget := h.budget
  have hlow := h.lower
  rw [bytes_append, bytes_cons] at hbudget
  rw [bytes_append] at hrest ⊢
  unfold MAX_CACHE_SIZE at hbudget ⊢
  refine ⟨hrest, ?_⟩
  rw [wrap_of_mem (by omega) (by omega)]
  omega

/-- The budget is kept if the node gives back what it took. -/
lemma Holds.rest (hshape : s'.Shape (l₁ ++ l₂))
    (hsame : ∀ b, SameData (s.nodes b) (s'.nodes b))
    (hfree : s'.freeCacheSize = MAX_CACHE_SIZE - s.bytes (l₁ ++ l₂)) : s'.Holds (l₁ ++ l₂) := by
  have hbudget := h.budget
  have hlow := h.lower
  have ha := h.nonneg a (List.mem_append_right _ List.mem_cons_self)
  rw [bytes_append, bytes_cons] at hbudget
  refine ⟨hshape, ?_, ?_, ?_⟩
  · rw [hfree, bytes_congr fun b _ => (hsame b).2.2]
  · intro b hb
    rw [(hsame b).2.2]
    exact h.nonneg b (List.perm_middle.symm.subset (List.mem_cons_of_mem a hb))
  · rw [bytes_append] at hfree
    omega

/-- The locked body takes the node out of the list. -/
theorem Holds.deleteLocked : ∃ s', s.deleteLocked (some a) = some s' ∧ s'.Holds (l₁ ++ l₂) ∧
    ∀ b, SameData (s.nodes b) (s'.nodes b) := by
  obtain ⟨s', hdelete, hshape, hsame, hfree, -⟩ := h.toShape.deleteLocked
  exact ⟨s', hdelete, h.rest hshape hsame (hfree.trans h.bytes_rest.2), hsame⟩

/-- `delete` takes the node out of the list, in all four cases and in the branch for the only node.
-/
theorem Holds.delete :
    ∃ s', s.delete (some a) = some s' ∧ s'.Holds (l₁ ++ l₂) ∧
      (∀ b, SameData (s.nodes b) (s'.nodes b)) ∧
      s'.allocated = Function.update s.allocated a false ∧
      s'.doubleFree = (s.doubleFree || !s.allocated a) := by
  obtain ⟨s', hdelete, hshape, hsame, hfree, halloc, hdouble⟩ := h.toShape.delete
  refine ⟨s', hdelete, h.rest hshape hsame ?_, hsame, halloc, hdouble⟩
  rw [hfree]
  split_ifs with honly
  · rw [honly.1, honly.2, List.append_nil, bytes_nil, sub_zero]
  · exact h.bytes_rest.2

end Middle

end Holds

end Cache

end Proxylab
end SystemsLabs
