import SystemsLabs.Proxylab.Cache

/-!
# The calls of the cache

One lemma for each loop of cache.c and for each call: what it does to a list that the memory
holds (`Holds`), to the data of the nodes and to the allocator. The loop of `get_cache_item`
finds the first node of the list with the URI, and the loop of `put_cache_item` keeps the
longest prefix of the list that leaves enough of the budget.
-/

namespace SystemsLabs
namespace Proxylab
namespace Cache

open Caching

section Follows
variable {link : ℕ → Option ℕ} {p : Option ℕ} {l : List ℕ}

/-- From `p` the links lead through the nodes of `l`, and then to `NULL`. -/
def Follows (link : ℕ → Option ℕ) : Option ℕ → List ℕ → Prop
  | p, [] => p = none
  | p, a :: l => p = some a ∧ Follows link (link a) l

/-- There is one list to be read from a node on. -/
lemma Follows.unique {l' : List ℕ} (h : Follows link p l) (h' : Follows link p l') : l = l' := by
  induction l generalizing p l' with
  | nil =>
    cases l' with
    | nil => rfl
    | cons b l' => cases (show p = none from h).symm.trans h'.1
  | cons a l ih =>
    cases l' with
    | nil => cases h.1.symm.trans h'
    | cons b l' =>
      cases h.1.symm.trans h'.1
      rw [ih h.2 h'.2]

/-- The nodes that are reached from the head by `next`. -/
inductive Links (s : Cache) : ℕ → Prop
  | head {a : ℕ} : s.head = some a → Links s a
  | next {a b : ℕ} : Links s a → (s.nodes a).next = some b → Links s b

end Follows

section Lists
variable {s : Cache} {l : List ℕ} {a : ℕ}

/-- A chain is read by `next`. -/
lemma follows_of_chain {q : Option ℕ} (h : Memory.Chain s.nxt s.prv q (l.map some) none) :
    Follows (fun a => (s.nodes a).next) (s.nxt q) l := by
  induction l generalizing q with
  | nil => exact Memory.chain_nil.1 h
  | cons a l ih =>
    rw [List.map_cons, Memory.chain_cons] at h
    exact ⟨h.1, ih h.2.2⟩

/-- The list is read from the head by `next`. -/
lemma Shape.follows (h : s.Shape l) : Follows (fun a => (s.nodes a).next) s.head l :=
  follows_of_chain h.chain

/-- A linked list is read backwards by `prev`. -/
lemma follows_prev_of_linked (h : Memory.Linked s.nxt s.prv none (l.map some)) :
    Follows (fun a => (s.nodes a).prev) ((l.map some).getLastD none) l.reverse := by
  induction l using List.reverseRecOn with
  | nil => rfl
  | append_singleton l a ih =>
    rw [List.map_append, List.map_singleton] at h ⊢
    have hchain : Memory.Chain s.nxt s.prv none (l.map some ++ some a :: []) (s.nxt (some a)) :=
      ⟨h, by rw [getLastD_middle, List.getLastD_nil]⟩
    rw [List.reverse_append, getLastD_middle]
    refine ⟨rfl, ?_⟩
    -- the last node names the one before it
    have hprev : (s.nodes a).prev = (l.map some).getLastD none := hchain.prv_eq
    show Follows (fun a => (s.nodes a).prev) (s.nodes a).prev l.reverse
    rw [hprev]
    exact ih (Memory.chain_append.1 hchain).1

/-- The list is read from the tail by `prev`, in reverse. -/
lemma Shape.follows_prev (h : s.Shape l) :
    Follows (fun a => (s.nodes a).prev) s.tail l.reverse := by
  rw [h.tail]
  exact follows_prev_of_linked h.chain.1

/-- Every node that is read is linked. -/
lemma Follows.links {p : Option ℕ} (h : Follows (fun a => (s.nodes a).next) p l)
    (hp : ∀ b, p = some b → Links s b) : ∀ b ∈ l, Links s b := by
  induction l generalizing p with
  | nil =>
    intro b hb
    cases hb
  | cons a l ih =>
    have ha : Links s a := hp a h.1
    intro b hb
    rcases List.mem_cons.1 hb with rfl | hb
    · exact ha
    · exact ih h.2 (fun c hc => .next ha hc) b hb

/-- `next` leads from a node of the list to a node of the list. -/
lemma Follows.next_mem {p : Option ℕ} {b : ℕ} (h : Follows (fun a => (s.nodes a).next) p l)
    (ha : a ∈ l) (hb : (s.nodes a).next = some b) : b ∈ l := by
  induction l generalizing p with
  | nil => cases ha
  | cons c l ih =>
    rcases List.mem_cons.1 ha with rfl | ha
    · cases l with
      | nil => cases hb.symm.trans h.2
      | cons d l =>
        cases hb.symm.trans h.2.1
        exact List.mem_cons_of_mem _ List.mem_cons_self
    · exact List.mem_cons_of_mem _ (ih h.2 ha)

/-- The nodes of the list are those that the head leads to. -/
lemma Follows.links_iff (h : Follows (fun a => (s.nodes a).next) s.head l) :
    Links s a ↔ a ∈ l := by
  constructor
  · intro ha
    induction ha with
    | head hhead =>
      cases l with
      | nil => cases hhead.symm.trans h
      | cons b l =>
        cases hhead.symm.trans h.1
        exact List.mem_cons_self
    | next _ hb ih => exact h.next_mem ih hb
  · exact h.links (fun b hb => .head hb) a

/-- The nodes read from `head` are linked. -/
lemma Follows.links_of_mem (h : Follows (fun a => (s.nodes a).next) s.head l) (ha : a ∈ l) :
    Links s a :=
  h.links_iff.2 ha

/-- No other node is linked. -/
lemma Follows.not_links (h : Follows (fun a => (s.nodes a).next) s.head l) (ha : a ∉ l) :
    ¬ Links s a :=
  fun hlinks => ha (h.links_iff.1 hlinks)

lemma Shape.links_iff (h : s.Shape l) : Links s a ↔ a ∈ l := h.follows.links_iff

end Lists

/-! ## get_cache_item -/

section Get
variable {s : Cache} {l l₁ l₂ : List ℕ} {a fuel : ℕ} {uri : List UInt8}

/-- The node carries the URI. -/
def hasUri (s : Cache) (uri : List UInt8) (a : ℕ) : Bool := (s.nodes a).uri = uri

/-- The walk finds the first node with the URI. -/
lemma find_eq {p : Option ℕ} (h : Follows (fun a => (s.nodes a).next) p l)
    (hfuel : l.length < fuel) : s.find uri fuel p = some (l.find? (s.hasUri uri)) := by
  induction l generalizing p fuel with
  | nil =>
    obtain ⟨k, rfl⟩ : ∃ k, fuel = k + 1 := ⟨fuel - 1, by omega⟩
    rw [show p = none from h, find, List.find?_nil]
  | cons a l ih =>
    rw [List.length_cons] at hfuel
    obtain ⟨k, rfl⟩ : ∃ k, fuel = k + 1 := ⟨fuel - 1, by omega⟩
    rw [h.1, find]
    by_cases huri : (s.nodes a).uri = uri
    · rw [if_pos huri, List.find?_cons_of_pos (by simpa [hasUri] using huri)]
    · rw [if_neg huri, List.find?_cons_of_neg (by simpa [hasUri] using huri)]
      exact ih h.2 (by omega)

/-- A loop that has ended ends in the same way with more fuel. -/
lemma find_mono {p r : Option ℕ} {fuel' : ℕ} (h : s.find uri fuel p = some r)
    (hle : fuel ≤ fuel') : s.find uri fuel' p = some r := by
  induction fuel generalizing p fuel' with
  | zero => cases h
  | succ k ih =>
    obtain ⟨k', rfl⟩ : ∃ k', fuel' = k' + 1 := ⟨fuel' - 1, by omega⟩
    cases p with
    | none => exact h
    | some b =>
      rw [find] at h ⊢
      by_cases huri : (s.nodes b).uri = uri
      · rwa [if_pos huri] at h ⊢
      · rw [if_neg huri] at h ⊢
        exact ih h (by omega)

/-- A miss changes nothing. -/
theorem Shape.getCacheItem_miss (h : s.Shape l) (hfuel : l.length < fuel)
    (hmiss : ∀ b ∈ l, (s.nodes b).uri ≠ uri) : s.getCacheItem fuel uri = some (none, s) := by
  have hnone : l.find? (s.hasUri uri) = none := by
    apply List.find?_eq_none.2
    intro b hb
    simpa [hasUri] using hmiss b hb
  rw [getCacheItem, find_eq h.follows hfuel, hnone]
  rfl

/-- A hit deletes the first node with that URI, and puts it at the front again. -/
lemma Shape.getCacheItem_eq (h : s.Shape (l₁ ++ a :: l₂))
    (hfuel : (l₁ ++ a :: l₂).length < fuel) (hl₁ : ∀ b ∈ l₁, (s.nodes b).uri ≠ uri)
    (ha : (s.nodes a).uri = uri) :
    s.getCacheItem fuel uri = (s.delete (some a)).map fun s₁ => (some a, s₁.insert a) := by
  have hfind : (l₁ ++ a :: l₂).find? (s.hasUri uri) = some a := by
    rw [List.find?_append, List.find?_cons_of_pos (by simpa [hasUri] using ha)]
    rw [List.find?_eq_none.2 fun b hb => by simpa [hasUri] using hl₁ b hb, Option.none_or]
  rw [getCacheItem, find_eq h.follows hfuel, hfind]
  simp only [Option.bind_eq_bind, Option.bind_some]
  cases s.delete (some a) <;> rfl

/-- A hit moves its node to the front. -/
theorem Shape.getCacheItem_hit (h : s.Shape (l₁ ++ a :: l₂))
    (hfuel : (l₁ ++ a :: l₂).length < fuel) (hl₁ : ∀ b ∈ l₁, (s.nodes b).uri ≠ uri)
    (ha : (s.nodes a).uri = uri) :
    ∃ s', s.getCacheItem fuel uri = some (some a, s') ∧ s'.Shape (a :: (l₁ ++ l₂)) ∧
      (∀ b, SameData (s.nodes b) (s'.nodes b)) ∧
      s'.allocated = Function.update s.allocated a false ∧
      s'.doubleFree = (s.doubleFree || !s.allocated a) := by
  obtain ⟨s₁, hdelete, hs₁, hsame, -, halloc, hdouble⟩ := h.delete
  refine ⟨s₁.insert a, ?_, hs₁.insert h.not_mem, ?_, ?_, ?_⟩
  · rw [h.getCacheItem_eq hfuel hl₁ ha, hdelete, Option.map_some]
  · intro b
    exact (hsame b).trans (s₁.sameData_insert a b)
  · rw [allocated_insert, halloc]
  · rw [doubleFree_insert, hdouble]

/-- A call misses and changes nothing, or it hits the first node with the URI. -/
lemma Shape.getCacheItem_cases (h : s.Shape l) (uri : List UInt8) (hfuel : l.length < fuel) :
    (∀ b ∈ l, (s.nodes b).uri ≠ uri) ∧ s.getCacheItem fuel uri = some (none, s) ∨
      ∃ a l₁ l₂ s', l = l₁ ++ a :: l₂ ∧ (s.nodes a).uri = uri ∧
        s.getCacheItem fuel uri = some (some a, s') ∧ s'.Shape (a :: (l₁ ++ l₂)) ∧
        (∀ b, SameData (s.nodes b) (s'.nodes b)) ∧
        s'.allocated = Function.update s.allocated a false := by
  cases hfind : l.find? (s.hasUri uri) with
  | none =>
    have hmiss : ∀ b ∈ l, (s.nodes b).uri ≠ uri := by
      intro b hb
      simpa [hasUri] using List.find?_eq_none.1 hfind b hb
    exact .inl ⟨hmiss, h.getCacheItem_miss hfuel hmiss⟩
  | some a =>
    obtain ⟨ha, l₁, l₂, rfl, hl₁⟩ := List.find?_eq_some_iff_append.1 hfind
    have ha : (s.nodes a).uri = uri := of_decide_eq_true ha
    obtain ⟨s', hget, hs', hsame, halloc, -⟩ := h.getCacheItem_hit hfuel
      (fun b hb => by simpa [hasUri] using hl₁ b hb) ha
    exact .inr ⟨a, l₁, l₂, s', rfl, ha, hget, hs', hsame, halloc⟩

/-- What the node gave back to the budget is taken from it again. -/
theorem Holds.getCacheItem_hit (h : s.Holds (l₁ ++ a :: l₂))
    (hfuel : (l₁ ++ a :: l₂).length < fuel) (hl₁ : ∀ b ∈ l₁, (s.nodes b).uri ≠ uri)
    (ha : (s.nodes a).uri = uri) (hget : s.getCacheItem fuel uri = some (some a, s')) :
    s'.Holds (a :: (l₁ ++ l₂)) := by
  obtain ⟨s₁, hdelete, hs₁, hsame, -⟩ := h.delete
  rw [h.getCacheItem_eq hfuel hl₁ ha, hdelete] at hget
  cases hget
  have hlength : (s₁.nodes a).length = (s.nodes a).length := (hsame a).2.2
  have hbytes : s₁.bytes (l₁ ++ l₂) = s.bytes (l₁ ++ l₂) := bytes_congr fun b _ => (hsame b).2.2
  have hbudget := h.budget
  have hbudget₁ := hs₁.budget
  have hlow := h.lower
  have hnonneg := h.nonneg a (List.mem_append_right _ List.mem_cons_self)
  rw [bytes_append, bytes_cons] at hbudget
  rw [hbytes, bytes_append] at hbudget₁
  apply hs₁.insert h.not_mem
  · omega
  · omega

end Get

/-! ## put_cache_item -/

section Put
variable {s s' : Cache} {l : List ℕ} {a fuel : ℕ} {uri : List UInt8} {content : ℕ → UInt8}
  {length : ℤ}

/-- The bytes that a node accounts for. -/
def size (s : Cache) (a : ℕ) : ℕ := (s.nodes a).length.toNat

/-- The sizes of the nodes are data, which links do not change. -/
lemma size_congr (h : ∀ b, SameData (s.nodes b) (s'.nodes b)) : s'.size = s.size := by
  ext b
  rw [size, size, (h b).2.2]

/-- The bytes of the list are the sizes of its nodes. -/
lemma Holds.total_size (h : s.Holds l) : (total s.size l : ℤ) = s.bytes l := by
  have hnonneg := h.nonneg
  clear h
  induction l with
  | nil => rfl
  | cons a l ih =>
    have ha : 0 ≤ (s.nodes a).length := hnonneg a List.mem_cons_self
    have hl := ih fun b hb => hnonneg b (List.mem_cons_of_mem a hb)
    rw [total_cons, bytes_cons, Nat.cast_add, hl, size, Int.toNat_of_nonneg ha]

/-- The nodes that stay in the list when a new one of that length comes. -/
def kept (s : Cache) (length : ℤ) (l : List ℕ) : List ℕ :=
  fit s.size (MAX_CACHE_SIZE - length.toNat) l

/-- What is kept was in the list. -/
lemma kept_subset (s : Cache) (length : ℤ) (l : List ℕ) : s.kept length l ⊆ l :=
  (fit_front _ _).subset

/-- The loop ends, and keeps the longest prefix that leaves enough of the budget. The nodes
behind it are freed, and no other. -/
theorem Holds.evict (h : s.Holds l) (hlength : 0 ≤ length) (hle : length ≤ MAX_CACHE_SIZE)
    (hfuel : l.length < fuel) :
    ∃ s', s.evict length fuel = some s' ∧ s'.Holds (s.kept length l) ∧
      (∀ b, SameData (s.nodes b) (s'.nodes b)) ∧ length ≤ s'.freeCacheSize ∧
      (∀ b, b ∉ l ∨ b ∈ s.kept length l → s'.allocated b = s.allocated b) ∧
      ((∀ b ∈ l, s.allocated b = true) → s'.doubleFree = s.doubleFree) := by
  obtain ⟨k, rfl⟩ : ∃ k, fuel = k + 1 := ⟨fuel - 1, by omega⟩
  induction l using List.reverseRecOn generalizing s k with
  | nil =>
    refine ⟨s, ?_, h, fun b => .refl _, ?_, fun _ _ => rfl, fun _ => rfl⟩
    · have hbudget := h.budget
      rw [bytes_nil] at hbudget
      rw [Cache.evict, if_neg (by omega)]
    · have hbudget := h.budget
      rw [bytes_nil] at hbudget
      omega
  | append_singleton l a ih =>
    have hbudget := h.budget
    have htotal := h.total_size
    by_cases hroom : length > s.freeCacheSize
    · -- the last node goes, and the rest of the loop is about the others
      have hkept : s.kept length (l ++ [a]) = s.kept length l := fit_concat (by omega)
      obtain ⟨s₁, hdelete, hs₁, hsame₁, halloc₁, hdouble₁⟩ := h.delete
      have ha : a ∉ l ++ [] := h.not_mem
      rw [List.append_nil] at hs₁ ha
      rw [List.length_append, List.length_singleton] at hfuel
      obtain ⟨k, rfl⟩ : ∃ k', k = k' + 1 := ⟨k - 1, by omega⟩
      obtain ⟨s', hevict, hs', hsame', hfree, halloc', hdouble'⟩ := ih hs₁ k (by omega)
      have hkept₁ : s₁.kept length l = s.kept length l := by
        rw [kept, kept, size_congr hsame₁]
      rw [hkept₁] at hs' halloc'
      have hne : ∀ b, b ∉ l ++ [a] ∨ b ∈ s.kept length l → b ≠ a := by
        rintro b (hb | hb) rfl
        · exact hb (List.mem_append_right _ List.mem_cons_self)
        · exact ha (s.kept_subset length l hb)
      refine ⟨s', ?_, hkept ▸ hs', fun b => (hsame₁ b).trans (hsame' b), hfree, ?_, ?_⟩
      · rw [Cache.evict, if_pos hroom, ← h.tail_iff.2 rfl, hdelete]
        exact hevict
      · intro b hb
        rw [hkept] at hb
        rw [halloc' b, halloc₁, Function.update_of_ne (hne b hb)]
        exact hb.imp_left fun hb hbl => hb (List.mem_append_left _ hbl)
      · intro hall
        rw [hdouble', hdouble₁, hall a (List.mem_append_right _ List.mem_cons_self)]
        · simp
        · intro b hb
          have hba : b ≠ a := by
            rintro rfl
            exact ha hb
          rw [halloc₁, Function.update_of_ne hba]
          exact hall b (List.mem_append_left _ hb)
    · have hkept : s.kept length (l ++ [a]) = l ++ [a] := fit_of_total_le (by omega)
      refine ⟨s, ?_, ?_, fun b => .refl _, by omega, fun _ _ => rfl, fun _ => rfl⟩
      · rw [Cache.evict, if_neg hroom]
      · rwa [hkept]

/-- Whatever the budget, the loop takes nodes from the end of the list. -/
lemma Shape.evict (h : s.Shape l) (hevict : s.evict length fuel = some s') :
    ∃ l', l' <+: l ∧ s'.Shape l' ∧ ∀ b, SameData (s.nodes b) (s'.nodes b) := by
  induction fuel generalizing s l with
  | zero => cases hevict
  | succ k ih =>
    rw [Cache.evict] at hevict
    split_ifs at hevict with hroom
    · induction l using List.reverseRecOn with
      | nil =>
        -- `delete(NULL)` initialises the cache once more
        have honly : s.isOnly s.tail = true := by
          rw [isOnly, decide_eq_true_iff, h.head_eq, h.tail]
          exact ⟨rfl, rfl⟩
        rw [Cache.delete, if_pos honly, h.tail] at hevict
        exact ih (s := s.initializeCache) (shape_nil rfl rfl) hevict
      | append_singleton l a _ =>
        obtain ⟨s₁, hdelete, hs₁, hsame₁, -⟩ := h.delete
        rw [← h.tail_iff.2 rfl, hdelete] at hevict
        rw [List.append_nil] at hs₁
        obtain ⟨l', hl', hs', hsame'⟩ := ih hs₁ hevict
        exact ⟨l', hl'.trans (List.prefix_append l [a]), hs',
          fun b => (hsame₁ b).trans (hsame' b)⟩
    · cases hevict
      exact ⟨l, List.prefix_rfl, h, fun b => .refl _⟩

/-- A loop that has ended ends in the same way with more fuel. -/
lemma evict_mono {fuel' : ℕ} (h : s.evict length fuel = some s') (hle : fuel ≤ fuel') :
    s.evict length fuel' = some s' := by
  induction fuel generalizing s fuel' with
  | zero => cases h
  | succ k ih =>
    obtain ⟨k', rfl⟩ : ∃ k', fuel' = k' + 1 := ⟨fuel' - 1, by omega⟩
    rw [evict] at h ⊢
    split_ifs at h ⊢ with hroom
    · cases hd : s.delete s.tail with
      | none =>
        rw [hd] at h
        cases h
      | some s₁ =>
        rw [hd] at h
        exact ih h (by omega)
    · exact h

/-- The data of the node are filled in, and nothing else is written. -/
lemma createNode_spec (h : s.createNode a uri content length = some s') :
    (uri.length < 1024 ∧ 0 ≤ length) ∧ s'.nxt = s.nxt ∧ s'.prv = s.prv ∧
      s'.freeCacheSize = s.freeCacheSize ∧ (∀ b, b ≠ a → s'.nodes b = s.nodes b) ∧
      (s'.nodes a).uri = uri ∧ (s'.nodes a).content = (List.range length.toNat).map content ∧
      (s'.nodes a).length = length ∧
      s'.allocated = Function.update s.allocated a true ∧ s'.doubleFree = s.doubleFree := by
  unfold createNode at h
  split_ifs at h with hfits
  cases h
  refine ⟨hfits, ?_, ?_, rfl, ?_, ?_, ?_, ?_, rfl, rfl⟩
  · ext1 q
    cases q with
    | none => rfl
    | some b =>
      simp only [nxt, Function.update_apply]
      split_ifs with hb
      · rw [hb]
      · rfl
  · ext1 q
    cases q with
    | none => rfl
    | some b =>
      simp only [prv, Function.update_apply]
      split_ifs with hb
      · rw [hb]
      · rfl
  · intro b hb
    exact Function.update_of_ne hb _ _
  · simp only [Function.update_self]
  · simp only [Function.update_self]
  · simp only [Function.update_self]

/-- A call that has put an object had room for the URI. -/
lemma length_uri_of_putCacheItem (h : s.putCacheItem fuel a uri content length = some s') :
    uri.length < 1024 := by
  simp only [putCacheItem, Option.bind_eq_bind, Option.bind_eq_some_iff] at h
  obtain ⟨s₁, hcreate, -⟩ := h
  exact (createNode_spec hcreate).1.1

/-- The list is given by the links. -/
lemma Shape.congr (h : s.Shape l) (hnxt : s'.nxt = s.nxt) (hprv : s'.prv = s.prv) :
    s'.Shape l where
  chain := by
    rw [hnxt, hprv]
    exact h.chain
  tail := (congrFun hprv none).trans h.tail
  nodup := h.nodup

/-- The node is in no list when it is filled, and every list stays. -/
lemma Holds.createNode (h : s.Holds l) (ha : a ∉ l)
    (hcreate : s.createNode a uri content length = some s') : s'.Holds l := by
  obtain ⟨-, hnxt, hprv, hfree, hnodes, -⟩ := createNode_spec hcreate
  have hne : ∀ b ∈ l, b ≠ a := by
    rintro b hb rfl
    exact ha hb
  refine ⟨h.toShape.congr hnxt hprv, ?_, ?_, ?_⟩
  · rw [hfree, bytes_congr fun b hb => congrArg Node.length (hnodes b (hne b hb))]
    exact h.budget
  · intro b hb
    rw [hnodes b (hne b hb)]
    exact h.nonneg b hb
  · rw [hfree]
    exact h.lower

/-- The nodes that leave no room go, and the new one comes to the front. -/
theorem Holds.putCacheItem (h : s.Holds l) (content : ℕ → UInt8) (ha : a ∉ l)
    (huri : uri.length < 1024) (hlength : 0 ≤ length) (hle : length ≤ MAX_CACHE_SIZE)
    (hfuel : l.length < fuel) :
    ∃ s', s.putCacheItem fuel a uri content length = some s' ∧
      s'.Holds (a :: s.kept length l) ∧
      (∀ b ∈ l, SameData (s.nodes b) (s'.nodes b)) ∧
      (s'.nodes a).uri = uri ∧
      (s'.nodes a).content = (List.range length.toNat).map content ∧
      (s'.nodes a).length = length ∧
      s'.allocated a = true ∧ (∀ b ∈ s.kept length l, s'.allocated b = s.allocated b) ∧
      ((∀ b ∈ l, s.allocated b = true) → s'.doubleFree = s.doubleFree) := by
  obtain ⟨s₁, hcreate⟩ : ∃ s₁, s.createNode a uri content length = some s₁ :=
    ⟨_, if_pos ⟨huri, hlength⟩⟩
  obtain ⟨-, -, -, -, hnodes, huri', hcontent, hlen, halloc₁, hdouble₁⟩ := createNode_spec hcreate
  have hs₁ := h.createNode ha hcreate
  have hne : ∀ b ∈ l, b ≠ a := by
    rintro b hb rfl
    exact ha hb
  have hsame₁ : ∀ b ∈ l, SameData (s.nodes b) (s₁.nodes b) := by
    intro b hb
    rw [hnodes b (hne b hb)]
    exact .refl _
  obtain ⟨s₂, hevict, hs₂, hsame₂, hfree, halloc₂, hdouble₂⟩ := hs₁.evict hlength hle hfuel
  have hkept : s₁.kept length l = s.kept length l := by
    -- the sizes of the nodes in the list have not changed
    have hsize : ∀ b ∈ l, s₁.size (id b) = s.size b := by
      intro b hb
      show s₁.size b = s.size b
      rw [size, size, (hsame₁ b hb).2.2]
    have hmap : (s.kept length l).map id = s₁.kept length (l.map id) := fit_map hsize
    rw [List.map_id, List.map_id] at hmap
    exact hmap.symm
  have hmem := s.kept_subset length l
  have hlen₂ : (s₂.nodes a).length = length := (hsame₂ a).2.2.trans hlen
  have hlow := hs₂.lower
  refine ⟨s₂.insert a, ?_, ?_, ?_, ?_, ?_, ?_, ?_, ?_, ?_⟩
  · rw [Cache.putCacheItem, hcreate]
    simp only [Option.bind_eq_bind, Option.bind_some, hevict]
  · rw [← hkept]
    apply hs₂.insert
    · rw [hkept]
      exact fun hk => ha (hmem hk)
    · omega
    · omega
  · intro b hb
    exact ((hsame₁ b hb).trans (hsame₂ b)).trans (s₂.sameData_insert a b)
  · rw [(s₂.sameData_insert a a).1, (hsame₂ a).1, huri']
  · rw [(s₂.sameData_insert a a).2.1, (hsame₂ a).2.1, hcontent]
  · rw [(s₂.sameData_insert a a).2.2, hlen₂]
  · rw [allocated_insert, halloc₂ a (.inl ha), halloc₁, Function.update_self]
  · intro b hb
    rw [allocated_insert, halloc₂ b (.inr (hkept ▸ hb)), halloc₁,
      Function.update_of_ne (hne b (hmem hb))]
  · intro hall
    rw [doubleFree_insert, hdouble₂, hdouble₁]
    intro b hb
    rw [halloc₁, Function.update_of_ne (hne b hb)]
    exact hall b hb

end Put

end Cache
end Proxylab
end SystemsLabs
