import SystemsLabs.Proxylab.Allocation

/-!
# The strings behind the nodes of the cache

A node has its URI and its content in two blocks of their own. `put_cache_item` allocates them
with the node, and `delete` frees the node. No function frees the other two blocks, so those of
a node that is evicted stay allocated, although nothing leads to them any more.
-/

namespace SystemsLabs
namespace Proxylab

open Caching Runs

/-- A block that has been allocated. -/
structure Block where
  address : ℕ
  size : ℕ

/-- `malloc(size)`, which returns an address where no block is. -/
def malloc (blocks : List Block) (address size : ℕ) : Option (List Block) :=
  if ∀ b ∈ blocks, b.address ≠ address then some (⟨address, size⟩ :: blocks) else none

/-- The cache, the pointers `uri` and `content` of its nodes, and the blocks that are allocated
for them. -/
structure Heap where
  cache : Cache
  uriPtr : ℕ → ℕ
  contentPtr : ℕ → ℕ
  uris : List Block
  contents : List Block

/-- A call with some fuel, and what `malloc` returns for the two strings of an object. -/
structure HeapCall where
  call : Call
  fuel : ℕ
  uri : ℕ
  content : ℕ

namespace Heap

/-- One call. A call that puts an object comes with nodes and blocks that are free. -/
def step (h : Heap) (e : HeapCall) : Option Heap :=
  match e.call with
  | .get uri => (h.cache.getCacheItem e.fuel uri).map fun r => { h with cache := r.2 }
  | .put node uri content length =>
    if (Call.put node uri content length).Granted h.cache then do
      let uris ← malloc h.uris e.uri 1024
      let contents ← malloc h.contents e.content length.toNat
      let cache ← h.cache.putCacheItem e.fuel node uri content length
      some
        { cache := cache
          uriPtr := Function.update h.uriPtr node e.uri
          contentPtr := Function.update h.contentPtr node e.content
          uris := uris
          contents := contents }
    else none

/-- After `initialize_cache`, before anything is allocated. -/
def start (s₀ : Cache) : Heap := ⟨s₀.initializeCache, fun _ => 0, fun _ => 0, [], []⟩

/-- The content blocks are those of the nodes that the head leads to, and they take no more
bytes than the cache may have. -/
structure Released (h : Heap) : Prop where
  blocks : ∀ c, (∃ b ∈ h.contents, b.address = c) ↔ ∃ a, h.cache.Links a ∧ h.contentPtr a = c
  size : (h.contents.map Block.size).sum ≤ MAX_CACHE_SIZE

/-- An object that is put has room without any other leaving, and its node is not in the list,
which it can be after a hit has freed it. -/
def Room (h : Heap) (e : HeapCall) : Prop :=
  match e.call with
  | .get _ => True
  | .put node _ _ length => ¬ h.cache.Links node ∧ length ≤ h.cache.freeCacheSize

/-- The content block of a node. -/
def block (h : Heap) (a : ℕ) : Block := ⟨h.contentPtr a, h.cache.size a⟩

/-- What holds as long as nothing is evicted. -/
structure Accounted (h : Heap) (l : List ℕ) : Prop where
  holds : h.cache.Holds l
  room : 0 ≤ h.cache.freeCacheSize
  contents : h.contents.Perm (l.map h.block)
  nodup : (h.contents.map Block.address).Nodup

variable {h h' : Heap} {e : HeapCall} {l : List ℕ} {a : ℕ}

lemma Accounted.addresses (hl : h.Accounted l) :
    (h.contents.map Block.address).Perm (l.map h.contentPtr) := by
  have hperm := hl.contents.map Block.address
  rwa [List.map_map] at hperm

lemma Accounted.mem_iff (hl : h.Accounted l) (c : ℕ) :
    (∃ b ∈ h.contents, b.address = c) ↔ ∃ a ∈ l, h.contentPtr a = c := by
  have hmem := hl.addresses.mem_iff (a := c)
  rwa [List.mem_map, List.mem_map] at hmem

/-- Two nodes do not share a block. -/
lemma Accounted.injective (hl : h.Accounted l) {a b : ℕ} (ha : a ∈ l) (hb : b ∈ l)
    (heq : h.contentPtr a = h.contentPtr b) : a = b :=
  List.inj_on_of_nodup_map (hl.addresses.nodup_iff.1 hl.nodup) ha hb heq

lemma Accounted.released (hl : h.Accounted l) : h.Released := by
  refine ⟨fun c => ?_, ?_⟩
  · rw [hl.mem_iff]
    simp only [hl.holds.links_iff]
  · -- the blocks of the list take what the list accounts for
    have hsum : (h.contents.map Block.size).sum = total h.cache.size l := by
      rw [(hl.contents.map Block.size).sum_eq, List.map_map]
      rfl
    have hbytes := hl.holds.total_size
    have hbudget := hl.holds.budget
    have hroom := hl.room
    omega

end Heap

/-! ## What a call does -/

/-- A call that looks for an object only moves it to the front of the list. -/
lemma Cache.Holds.getCacheItem {s s' : Cache} {l : List ℕ} {fuel : ℕ} {uri : List UInt8}
    {r : Option ℕ} (h : s.Holds l) (hget : s.getCacheItem fuel uri = some (r, s')) :
    ∃ l', l'.Perm l ∧ s'.Holds l' ∧ ∀ b, SameData (s.nodes b) (s'.nodes b) := by
  have hfuel : l.length < max fuel (l.length + 1) := by omega
  have hget : s.getCacheItem (max fuel (l.length + 1)) uri = some (r, s') :=
    Call.run_mono (c := .get uri) hget (le_max_left _ _)
  cases hfind : l.find? (s.hasUri uri) with
  | none =>
    have hmiss : ∀ b ∈ l, (s.nodes b).uri ≠ uri := by
      intro b hb
      simpa [hasUri] using List.find?_eq_none.1 hfind b hb
    rw [h.getCacheItem_miss hfuel hmiss] at hget
    cases hget
    exact ⟨l, List.Perm.refl l, h, fun b => .refl _⟩
  | some a =>
    obtain ⟨ha, l₁, l₂, rfl, hl₁⟩ := List.find?_eq_some_iff_append.1 hfind
    have ha : (s.nodes a).uri = uri := of_decide_eq_true ha
    have hl₁ : ∀ b ∈ l₁, (s.nodes b).uri ≠ uri := fun b hb => by simpa [hasUri] using hl₁ b hb
    obtain ⟨s₁, hhit, -, hsame, -⟩ := h.toShape.getCacheItem_hit hfuel hl₁ ha
    rw [hhit] at hget
    cases hget
    exact ⟨a :: (l₁ ++ l₂), List.perm_middle.symm, h.getCacheItem_hit hfuel hl₁ ha hhit, hsame⟩

/-- A call that has put an object. -/
lemma Cache.Holds.of_putCacheItem {s s' : Cache} {l : List ℕ} {fuel node : ℕ} {uri : List UInt8}
    {content : ℕ → UInt8} {length : ℤ} (h : s.Holds l) (hnode : node ∉ l) (h0 : 0 ≤ length)
    (hle : length ≤ MAX_CACHE_SIZE)
    (hput : s.putCacheItem fuel node uri content length = some s') :
    s'.Holds (node :: s.kept length l) ∧ (∀ b ∈ l, SameData (s.nodes b) (s'.nodes b)) ∧
      (s'.nodes node).length = length := by
  obtain ⟨t, hput', ht, hsame, -, -, hlength, -⟩ := h.putCacheItem content hnode
    (length_uri_of_putCacheItem hput) h0 hle (show l.length < max fuel (l.length + 1) by omega)
  have hmono := Call.run_mono (c := .put node uri content length)
    (show Call.run fuel s _ = some (none, s') by rw [Call.run, hput]; rfl)
    (le_max_left _ (l.length + 1))
  rw [Call.run, hput'] at hmono
  cases hmono
  exact ⟨ht, hsame, hlength⟩

namespace Heap

variable {h h' : Heap} {e : HeapCall} {l : List ℕ}

/-- Then only the order of the list changes. -/
lemma Accounted.get (hl : h.Accounted l) {uri : List UInt8} (hcall : e.call = .get uri)
    (he : h.step e = some h') : ∃ l', h'.Accounted l' := by
  rw [step, hcall] at he
  obtain ⟨⟨r, s'⟩, hrun, rfl⟩ := Option.map_eq_some_iff.1 he
  obtain ⟨l', hperm, hs', hsame⟩ := hl.holds.getCacheItem hrun
  have hbytes : s'.bytes l' = h.cache.bytes l := by
    rw [Cache.bytes_congr fun b _ => (hsame b).2.2]
    exact (hperm.map _).sum_eq
  refine ⟨l', hs', ?_, ?_, hl.nodup⟩
  · have hbudget := hl.holds.budget
    have hbudget' := hs'.budget
    have hroom := hl.room
    rw [hbytes] at hbudget'
    show 0 ≤ s'.freeCacheSize
    omega
  · refine hl.contents.trans ((hperm.symm.map _).trans (List.Perm.of_eq ?_))
    apply List.map_congr_left
    intro b _
    rw [block, block, Cache.size_congr hsame]

/-- What has happened when an object has been put. -/
lemma step_put {node : ℕ} {uri : List UInt8} {content : ℕ → UInt8} {length : ℤ}
    (hcall : e.call = .put node uri content length) (he : h.step e = some h') :
    (0 ≤ length ∧ length ≤ MAX_CACHE_SIZE) ∧ (∀ b ∈ h.contents, b.address ≠ e.content) ∧
      h.cache.putCacheItem e.fuel node uri content length = some h'.cache ∧
      h'.contentPtr = Function.update h.contentPtr node e.content ∧
      h'.contents = ⟨e.content, length.toNat⟩ :: h.contents := by
  rw [step, hcall] at he
  simp only [Option.bind_eq_bind] at he
  split_ifs at he with hgranted
  obtain ⟨uris, -, he⟩ := Option.bind_eq_some_iff.1 he
  obtain ⟨contents, hcontents, he⟩ := Option.bind_eq_some_iff.1 he
  obtain ⟨cache, hput, he⟩ := Option.bind_eq_some_iff.1 he
  rw [malloc] at hcontents
  split_ifs at hcontents with hfresh
  cases hcontents
  cases he
  exact ⟨⟨hgranted.1, hgranted.2.1⟩, hfresh, hput, rfl, rfl⟩

end Heap

/-- A node that is put although it is in the list leaves no other nodes linked than before. -/
lemma Cache.Shape.links_putCacheItem {s s' : Cache} {l : List ℕ} {a b fuel : ℕ} {uri : List UInt8}
    {content : ℕ → UInt8} {length : ℤ} (h : s.Shape l)
    (hput : s.putCacheItem fuel a uri content length = some s') (hb : s'.Links b) :
    b = a ∨ b ∈ l := by
  rw [Cache.putCacheItem] at hput
  simp only [Option.bind_eq_bind] at hput
  obtain ⟨s₁, hcreate, hput⟩ := Option.bind_eq_some_iff.1 hput
  obtain ⟨s₂, hevict, hput⟩ := Option.bind_eq_some_iff.1 hput
  cases hput
  obtain ⟨-, hnxt, hprv, -⟩ := createNode_spec hcreate
  obtain ⟨l', hl', hs₂, -⟩ := (h.congr hnxt hprv).evict hevict
  -- `insert` links the node with the list, and the list with nothing else
  have hlinks : b = a ∨ b ∈ l' := by
    induction hb with
    | head hhead =>
      have hnxt := s₂.nxt_insert a none
      rw [if_pos rfl] at hnxt
      exact .inl (Option.some.inj (hhead.symm.trans hnxt))
    | @next c d _ hnext ih =>
      have hnxt := s₂.nxt_insert a (some c)
      rw [if_neg (by simp)] at hnxt
      right
      split_ifs at hnxt with hc
      · exact hs₂.links_iff.1 (.head (hnxt.symm.trans hnext))
      · have hmem : c ∈ l' := ih.resolve_left fun heq => hc (congrArg some heq)
        exact hs₂.follows.next_mem hmem (hnxt.symm.trans hnext)
  exact hlinks.imp_right fun hmem => hl'.subset hmem

namespace Heap

variable {h h' : Heap} {e : HeapCall} {l : List ℕ}

/-- Where a block has lost its node, not all blocks are released. -/
lemma Accounted.not_released (hl : h.Accounted l) {a node addr : ℕ} {size : ℕ} (ha : a ∈ l)
    (hfresh : ∀ b ∈ h.contents, b.address ≠ addr)
    (hptr : h'.contentPtr = Function.update h.contentPtr node addr)
    (hcontents : h'.contents = ⟨addr, size⟩ :: h.contents)
    (hlinks : ∀ b, h'.cache.Links b → b = node ∨ b ∈ l ∧ b ≠ a) : ¬ h'.Released := by
  intro hreleased
  obtain ⟨block, hblock, haddress⟩ := (hl.mem_iff _).2 ⟨a, ha, rfl⟩
  obtain ⟨b, hb, heq⟩ := (hreleased.blocks (h.contentPtr a)).1
    ⟨block, by rw [hcontents]; exact List.mem_cons_of_mem _ hblock, haddress⟩
  rw [hptr] at heq
  by_cases hbn : b = node
  · -- the node that was put points to the new block
    rw [hbn, Function.update_self] at heq
    exact hfresh block hblock (haddress.trans heq.symm)
  · obtain ⟨hbl, hba⟩ := (hlinks b hb).resolve_left hbn
    rw [Function.update_of_ne hbn] at heq
    exact hba (hl.injective hbl ha heq)

/-- A list that leaves no room for an object loses a node. -/
lemma exists_not_kept (hl : h.Accounted l) {length : ℤ} (h0 : 0 ≤ length)
    (hle : length ≤ MAX_CACHE_SIZE) (hroom : ¬ length ≤ h.cache.freeCacheSize) :
    ∃ a ∈ l, a ∉ h.cache.kept length l := by
  by_contra hall
  simp only [not_exists, not_and, not_not] at hall
  have hsub : l.Subperm (h.cache.kept length l) := hl.holds.nodup.subperm hall
  have hkept : h.cache.kept length l = l :=
    (fit_front _ _).eq_of_length_le hsub.length_le
  have hfits : total h.cache.size (h.cache.kept length l) ≤ MAX_CACHE_SIZE - length.toNat :=
    total_fit_le
  have hbytes := hl.holds.total_size
  have hbudget := hl.holds.budget
  rw [hkept] at hfits
  omega

/-- A call that has room keeps the account. -/
lemma Accounted.step (hl : h.Accounted l) (hok : h.Room e) (he : h.step e = some h') :
    ∃ l', h'.Accounted l' := by
  cases hcall : e.call with
  | get uri => exact hl.get hcall he
  | put node uri content length =>
    obtain ⟨⟨h0, hle⟩, hfresh, hput, hptr, hcontents⟩ := step_put hcall he
    rw [Room, hcall] at hok
    obtain ⟨hnode, hroom⟩ := hok
    rw [hl.holds.links_iff] at hnode
    have hbytes := hl.holds.total_size
    have hbudget := hl.holds.budget
    have hkept : h.cache.kept length l = l := fit_of_total_le (by omega)
    obtain ⟨hs', hsame, hlength⟩ := hl.holds.of_putCacheItem hnode h0 hle hput
    rw [hkept] at hs'
    refine ⟨node :: l, hs', ?_, ?_, ?_⟩
    · -- only the new object is paid for
      have hbudget' := hs'.budget
      rw [Cache.bytes_cons, hlength, Cache.bytes_congr fun b hb => (hsame b hb).2.2] at hbudget'
      omega
    · rw [hcontents, List.map_cons]
      have hnew : h'.block node = ⟨e.content, length.toNat⟩ := by
        rw [block, hptr, Function.update_self, Cache.size, hlength]
      have hold : l.map h'.block = l.map h.block := by
        apply List.map_congr_left
        intro b hb
        have hbn : b ≠ node := by
          rintro rfl
          exact hnode hb
        rw [block, block, hptr, Function.update_of_ne hbn, Cache.size, Cache.size,
          (hsame b hb).2.2]
      rw [hnew, hold]
      exact hl.contents.cons _
    · rw [hcontents, List.map_cons, List.nodup_cons]
      refine ⟨fun hmem => ?_, hl.nodup⟩
      obtain ⟨b, hb, heq⟩ := List.mem_map.1 hmem
      exact hfresh b hb heq

/-- Any other call leaves a content block behind. -/
lemma Accounted.spoil (hl : h.Accounted l) (hok : ¬ h.Room e) (he : h.step e = some h') :
    ¬ h'.Released := by
  cases hcall : e.call with
  | get uri =>
    rw [Room, hcall] at hok
    exact absurd trivial hok
  | put node uri content length =>
    obtain ⟨⟨h0, hle⟩, hfresh, hput, hptr, hcontents⟩ := step_put hcall he
    rw [Room, hcall] at hok
    by_cases hnode : node ∈ l
    · -- the node gets new blocks while the old ones are still there
      apply hl.not_released hnode hfresh hptr hcontents
      intro b hb
      by_cases hbn : b = node
      · exact .inl hbn
      · exact .inr ⟨(hl.holds.toShape.links_putCacheItem hput hb).resolve_left hbn, hbn⟩
    · have hroom : ¬ length ≤ h.cache.freeCacheSize := fun hroom =>
        hok ⟨fun hlinks => hnode (hl.holds.links_iff.1 hlinks), hroom⟩
      obtain ⟨a, ha, hkept⟩ := exists_not_kept hl h0 hle hroom
      obtain ⟨hs', -, -⟩ := hl.holds.of_putCacheItem hnode h0 hle hput
      apply hl.not_released ha hfresh hptr hcontents
      intro b hb
      rcases List.mem_cons.1 (hs'.links_iff.1 hb) with rfl | hb
      · exact .inl rfl
      · refine .inr ⟨h.cache.kept_subset length l hb, ?_⟩
        rintro rfl
        exact hkept hb

lemma accounted_start (s₀ : Cache) : (start s₀).Accounted [] where
  holds := Cache.holds_initializeCache s₀
  room := by
    show (0 : ℤ) ≤ ((MAX_CACHE_SIZE : ℕ) : ℤ)
    exact Nat.cast_nonneg _
  contents := List.Perm.nil
  nodup := List.nodup_nil

/-- The content blocks are those of the list throughout a sequence of calls exactly if every
object that is put has room in it. -/
theorem content_blocks_released_iff (s₀ : Cache) (es : List HeapCall) :
    Passes step Released (start s₀) es ↔ Meets step Room (start s₀) es := by
  apply passes_iff_meets (I := fun h => ∃ l, Accounted h l)
  · intro h hl
    obtain ⟨l, hl⟩ := hl
    exact hl.released
  · intro h e h' hl hok he
    obtain ⟨l, hl⟩ := hl
    exact hl.step hok he
  · intro h e h' hl hok he
    obtain ⟨l, hl⟩ := hl
    exact hl.spoil hok he
  · exact ⟨[], accounted_start s₀⟩

/-- The second object evicts the first one, whose content stays. -/
theorem evicted_content_stays :
    ¬ Passes step Released (start Cache.unset)
      [⟨.put 0 [97] (fun _ => 7) 600000, 2, 0, 0⟩, ⟨.put 1 [98] (fun _ => 7) 600000, 2, 1, 1⟩] := by
  intro hpasses
  have hafter : (after step (start Cache.unset)
      [⟨.put 0 [97] (fun _ => 7) 600000, 2, 0, 0⟩,
        ⟨.put 1 [98] (fun _ => 7) 600000, 2, 1, 1⟩]).map (fun h => (h.contents.map Block.size).sum) =
      some 1200000 := by decide
  obtain ⟨h, hafter, hsum⟩ := Option.map_eq_some_iff.1 hafter
  have hsize := (hpasses.last hafter).size
  rw [hsum, MAX_CACHE_SIZE] at hsize
  omega

end Heap

end Proxylab
end SystemsLabs
