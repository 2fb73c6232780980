import SystemsLabs.Proxylab.CacheCalls
import SystemsLabs.Runs.Machine

/-!
# The proxy's cache is an LRU store with a byte budget

The store keeps objects in recency order, and their contents take at most `MAX_CACHE_SIZE`
bytes. A call that hits uses an object, a call that puts an object adds it. The cache in
memory runs beside such a store, and after every call it is the store's list, read from either
end.
-/

namespace SystemsLabs
namespace Proxylab

open Caching Runs

/-- What the cache keeps of an object. -/
structure Entry where
  uri : List UInt8
  content : List UInt8
deriving DecidableEq

def Entry.size (e : Entry) : ℕ := e.content.length

abbrev LruStore := Store Entry.size MAX_CACHE_SIZE

/-- The object that `length` bytes at `content` make. -/
def object (uri : List UInt8) (content : ℕ → UInt8) (length : ℤ) : Entry :=
  ⟨uri, (List.range length.toNat).map content⟩

/-- The size of an object is its length. -/
lemma size_object (uri : List UInt8) (content : ℕ → UInt8) (length : ℤ) :
    (object uri content length).size = length.toNat := by
  rw [Entry.size, object, List.length_map, List.length_range]

/-- A call of the cache. A call that puts an object comes with the node that `malloc` returns. -/
inductive Call
  | get (uri : List UInt8)
  | put (node : ℕ) (uri : List UInt8) (content : ℕ → UInt8) (length : ℤ)

namespace Call

/-- The URI fits into its block, the length is one that an object may have, and `malloc` does not
return a linked node. -/
def Legal (s : Cache) : Call → Prop
  | get _ => True
  | put node uri _ length =>
    uri.length < 1024 ∧ 0 ≤ length ∧ length ≤ MAX_CACHE_SIZE ∧ ¬ s.Links node

/-- The call in memory, and the node that it returns. -/
def run (fuel : ℕ) (s : Cache) : Call → Option (Option ℕ × Cache)
  | get uri => s.getCacheItem fuel uri
  | put node uri content length =>
    (s.putCacheItem fuel node uri content length).map fun s' => (none, s')

/-- What the call does to the store. -/
def effect (st : LruStore) : Call → LruStore
  | get uri => st.use fun e => e.uri = uri
  | put _ uri content length =>
    if h : (object uri content length).size ≤ MAX_CACHE_SIZE then st.add _ h else st

end Call

namespace Cache

/-- The object in a node. -/
def entry (s : Cache) (a : ℕ) : Entry := ⟨(s.nodes a).uri, (s.nodes a).content⟩

/-- An entry is made of data, not of links. -/
lemma entry_congr {s s' : Cache} {a : ℕ} (h : SameData (s.nodes a) (s'.nodes a)) :
    s'.entry a = s.entry a := by
  rw [entry, entry, h.1, h.2.1]

lemma map_entry_congr {s s' : Cache} {l : List ℕ}
    (h : ∀ b ∈ l, SameData (s.nodes b) (s'.nodes b)) : l.map s'.entry = l.map s.entry :=
  List.map_congr_left fun b hb => entry_congr (h b hb)

/-- The list in memory, read from both ends, is the list of the store, and the budget is what
the store leaves of it. -/
def Implements (s : Cache) (st : LruStore) : Prop :=
  ∃ l, Follows (fun a => (s.nodes a).next) s.head l ∧
    Follows (fun a => (s.nodes a).prev) s.tail l.reverse ∧ l.Nodup ∧
    l.map s.entry = st.entries ∧ (∀ a ∈ l, (s.nodes a).length = (s.entry a).size) ∧
    s.freeCacheSize = MAX_CACHE_SIZE - total Entry.size st.entries ∧
    0 ≤ s.freeCacheSize ∧ s.freeCacheSize ≤ MAX_CACHE_SIZE

/-- The nodes of `l` are linked, and hold the objects of the store. -/
structure Represents (s : Cache) (st : LruStore) (l : List ℕ) : Prop where
  holds : s.Holds l
  entries : l.map s.entry = st.entries
  length_eq : ∀ a ∈ l, (s.nodes a).length = (s.entry a).size

end Cache

namespace Call

/-- What the call returns and leaves, where the cache was `s` and the store `st`. A hit returns
the first object with the URI, and a miss changes nothing. -/
def Serves (s : Cache) (st : LruStore) (r : Option ℕ) (s' : Cache) (c : Call) : Prop :=
  s'.Implements (c.effect st) ∧
    match c with
    | get uri =>
      match st.entries.find? fun e => e.uri = uri with
      | none => r = none ∧ s' = s
      | some e => ∃ a, r = some a ∧ s'.entry a = e ∧ (s'.nodes a).length = e.size
    | put .. => r = none

end Call

namespace Cache

section Represents
variable {s : Cache} {st : LruStore} {l : List ℕ} {fuel : ℕ}

/-- The store and the list have the same size. -/
lemma Represents.total_eq (h : s.Represents st l) : total Entry.size st.entries = total s.size l := by
  rw [← h.entries, total, total, List.map_map]
  apply congrArg List.sum
  apply List.map_congr_left
  intro a ha
  show (s.entry a).size = (s.nodes a).length.toNat
  rw [h.length_eq a ha, Int.toNat_natCast]

/-- A list that represents the store can be read from both ends. -/
lemma Represents.implements (h : s.Represents st l) : s.Implements st := by
  have hbudget := h.holds.budget
  have htotal := h.holds.total_size
  have heq := h.total_eq
  have hfits := st.fits
  exact ⟨l, h.holds.follows, h.holds.follows_prev, h.holds.nodup, h.entries, h.length_eq,
    by omega, by omega, by omega⟩

/-- The list in memory is that of one store only. -/
lemma Implements.unique {st' : LruStore} (h : s.Implements st) (h' : s.Implements st') :
    st.entries = st'.entries := by
  obtain ⟨l, hl, -, -, hentries, -⟩ := h
  obtain ⟨l', hl', -, -, hentries', -⟩ := h'
  rw [← hentries, ← hentries', hl.unique hl']

/-- The first node with a URI holds the first object with it. -/
lemma Represents.find_eq (h : s.Represents st l) (uri : List UInt8) :
    st.entries.find? (fun e => e.uri = uri) = (l.find? (s.hasUri uri)).map s.entry := by
  rw [← h.entries, List.find?_map]
  rfl

/-- A lookup does to the list what it does to the store. -/
theorem Represents.get (h : s.Represents st l) (uri : List UInt8) (hfuel : l.length < fuel) :
    ∃ r s' l', s.getCacheItem fuel uri = some (r, s') ∧
      s'.Represents ((Call.get uri).effect st) l' ∧ (Call.get uri).Serves s st r s' := by
  have hentries := h.entries
  have hfind := h.find_eq uri
  cases hl : l.find? (s.hasUri uri) with
  | none =>
    rw [hl] at hfind
    -- a miss changes neither side
    have hmiss : ∀ b ∈ l, (s.nodes b).uri ≠ uri := by
      intro b hb
      simpa [hasUri] using List.find?_eq_none.1 hl b hb
    have hsame : (Call.get uri).effect st = st := by
      apply Store.ext
      apply Store.toFront_of_not_mem
      intro e he
      simpa using List.find?_eq_none.1 hfind e he
    refine ⟨none, s, l, h.holds.getCacheItem_miss hfuel hmiss, hsame.symm ▸ h, ?_⟩
    exact ⟨hsame.symm ▸ h.implements, by simp [hfind]⟩
  | some a =>
    rw [hl] at hfind
    obtain ⟨ha, l₁, l₂, rfl, hl₁⟩ := List.find?_eq_some_iff_append.1 hl
    have ha : (s.nodes a).uri = uri := by simpa [hasUri] using ha
    have hl₁ : ∀ b ∈ l₁, (s.nodes b).uri ≠ uri := by
      intro b hb
      simpa [hasUri] using hl₁ b hb
    obtain ⟨s', hget, -, hsame, -⟩ := h.holds.toShape.getCacheItem_hit hfuel hl₁ ha
    have hs' := h.holds.getCacheItem_hit hfuel hl₁ ha hget
    -- a hit moves the node to the front of the list, and the entry to the front of the store
    have hrep : s'.Represents ((Call.get uri).effect st) (a :: (l₁ ++ l₂)) := by
      constructor
      · exact hs'
      · show (a :: (l₁ ++ l₂)).map s'.entry = Store.toFront _ st.entries
        rw [map_entry_congr fun b _ => hsame b, ← hentries, List.map_append, List.map_cons,
          List.map_cons, Store.toFront_append, List.map_append]
        · intro e he
          obtain ⟨b, hb, rfl⟩ := List.mem_map.1 he
          exact fun h => hl₁ b hb (of_decide_eq_true h)
        · exact decide_eq_true ha
      · intro b hb
        rw [(hsame b).2.2, entry_congr (hsame b)]
        exact h.length_eq b (List.perm_middle.symm.subset hb)
    refine ⟨some a, s', a :: (l₁ ++ l₂), hget, hrep, hrep.implements, ?_⟩
    simp only [hfind]
    have hlength := hrep.length_eq a List.mem_cons_self
    rw [entry_congr (hsame a)] at hlength
    exact ⟨a, rfl, entry_congr (hsame a), hlength⟩

/-- A put does to the list what it does to the store. -/
theorem Represents.put (h : s.Represents st l) {a : ℕ} {uri : List UInt8} (content : ℕ → UInt8)
    {length : ℤ} (ha : a ∉ l) (huri : uri.length < 1024) (hlength : 0 ≤ length)
    (hle : length ≤ MAX_CACHE_SIZE) (hfuel : l.length < fuel) :
    ∃ s' l', s.putCacheItem fuel a uri content length = some s' ∧
      s'.Represents ((Call.put a uri content length).effect st) l' := by
  obtain ⟨s', hput, hs', hsame, huri', hcontent, hlen, -⟩ :=
    h.holds.putCacheItem content ha huri hlength hle hfuel
  have hmem : ∀ b ∈ s.kept length l, b ∈ l := fun b hb => s.kept_subset length l hb
  have hnew : s'.entry a = object uri content length := by
    rw [entry, huri', hcontent, object]
  have hsize := size_object uri content length
  refine ⟨s', _, hput, hs', ?_, ?_⟩
  · rw [Call.effect, dif_pos (by omega), Store.entries_add, List.map_cons, hnew,
      map_entry_congr fun b hb => hsame b (hmem b hb), Store.kept, hsize, ← h.entries]
    congr 1
    apply fit_map
    intro b hb
    rw [size, h.length_eq b hb, Int.toNat_natCast]
  · intro b hb
    rcases List.mem_cons.1 hb with rfl | hb
    · rw [hnew, hsize, hlen, Int.toNat_of_nonneg hlength]
    · rw [(hsame b (hmem b hb)).2.2, entry_congr (hsame b (hmem b hb))]
      exact h.length_eq b (hmem b hb)

end Represents

end Cache

namespace Call

variable {s s' : Cache} {st : LruStore} {l : List ℕ} {r : Option ℕ} {fuel fuel' : ℕ} {c : Call}

/-- With fuel for the list a legal call returns, as the store says. -/
theorem serves (h : s.Represents st l) (hc : c.Legal s) (hfuel : l.length < fuel) :
    ∃ r s' l', c.run fuel s = some (r, s') ∧ s'.Represents (c.effect st) l' ∧
      c.Serves s st r s' := by
  cases c with
  | get uri => exact h.get uri hfuel
  | put a uri content length =>
    obtain ⟨huri, hlength, hle, ha⟩ := hc
    rw [h.holds.links_iff] at ha
    obtain ⟨s', l', hput, hrep⟩ := h.put content ha huri hlength hle hfuel
    exact ⟨none, s', l', by rw [run, hput, Option.map_some], hrep, hrep.implements, rfl⟩

/-- More fuel changes nothing. -/
lemma run_mono (h : c.run fuel s = some (r, s')) (hle : fuel ≤ fuel') :
    c.run fuel' s = some (r, s') := by
  cases c with
  | get uri =>
    simp only [run, Cache.getCacheItem, Option.bind_eq_bind, Option.bind_eq_some_iff] at h ⊢
    obtain ⟨t, ht, h⟩ := h
    exact ⟨t, Cache.find_mono ht hle, h⟩
  | put a uri content length =>
    simp only [run, Cache.putCacheItem, Option.bind_eq_bind, Option.map_eq_some_iff,
      Option.bind_eq_some_iff] at h ⊢
    obtain ⟨t, ⟨t₁, ht₁, t₂, ht₂, ht⟩, h⟩ := h
    exact ⟨t, ⟨t₁, ht₁, t₂, Cache.evict_mono ht₂ hle, ht⟩, h⟩

end Call

/-- One call, with some fuel, in memory and of the store. -/
def storeStep (p : Cache × LruStore) (e : Call × ℕ) : Option (Cache × LruStore) :=
  (e.1.run e.2 p.1).map fun r => (r.2, e.1.effect p.2)

def LegalStep (p : Cache × LruStore) (e : Call × ℕ) : Prop := e.1.Legal p.1

/-- After `initialize_cache`, with nothing in the store. -/
def storeStart (s₀ : Cache) : Cache × LruStore :=
  (s₀.initializeCache, Store.empty Entry.size MAX_CACHE_SIZE)

/-- A legal call keeps the list a representation of the store. -/
lemma represents_step {p p' : Cache × LruStore} {e : Call × ℕ}
    (hp : ∃ l, p.1.Represents p.2 l) (hlegal : LegalStep p e) (he : storeStep p e = some p') :
    ∃ l, p'.1.Represents p'.2 l := by
  obtain ⟨l, hl⟩ := hp
  obtain ⟨r, hrun, rfl⟩ := Option.map_eq_some_iff.1 he
  -- more fuel than the list is long would have led to the same state
  have hfuel : l.length < max e.2 (l.length + 1) := by omega
  obtain ⟨r', s', l', hrun', hrep, -⟩ := Call.serves hl hlegal hfuel
  rw [Call.run_mono hrun (le_max_left _ _)] at hrun'
  cases hrun'
  exact ⟨l', hrep⟩

/-- So every run does. -/
lemma represents_of_reaches {s₀ : Cache} {p : Cache × LruStore}
    (h : Reaches storeStep LegalStep (storeStart s₀) p) : ∃ l, p.1.Represents p.2 l := by
  apply h.invariant
  · exact ⟨[], s₀.holds_initializeCache, rfl, fun _ hb => by cases hb⟩
  · intro p e p' hp hlegal he
    exact represents_step hp hlegal he

/-- After every sequence of legal calls the cache implements the store, and every legal call
ends and does what the store says. -/
theorem cache_is_lru_store (s₀ s : Cache) (st : LruStore)
    (h : Reaches storeStep LegalStep (storeStart s₀) (s, st)) :
    s.Implements st ∧
      ∀ c : Call, c.Legal s → ∃ n, ∀ fuel, n ≤ fuel →
        ∃ r s', c.run fuel s = some (r, s') ∧ c.Serves s st r s' := by
  obtain ⟨l, hl⟩ := represents_of_reaches h
  refine ⟨hl.implements, ?_⟩
  intro c hc
  refine ⟨l.length + 1, ?_⟩
  intro fuel hfuel
  obtain ⟨r, s', -, hrun, -, hserves⟩ := Call.serves hl hc hfuel
  exact ⟨r, s', hrun, hserves⟩

/-- Three objects, of which the first is used before the last takes the place of the second. -/
def evicting : List (Call × ℕ) :=
  [(.put 0 [97] (fun _ => 7) 1, 1), (.put 1 [98] (fun _ => 8) 600000, 2), (.get [97], 2),
    (.put 2 [99] (fun _ => 9) 600000, 3)]

/-- A node that is not in the list may be put. -/
lemma legal_put {s : Cache} {l : List ℕ} {node : ℕ} {uri : List UInt8} {content : ℕ → UInt8}
    {length : ℤ} (h : Cache.Follows (fun a => (s.nodes a).next) s.head l) (hnode : node ∉ l)
    (huri : uri.length < 1024) (hlength : 0 ≤ length ∧ length ≤ MAX_CACHE_SIZE) :
    (Call.put node uri content length).Legal s :=
  ⟨huri, hlength.1, hlength.2, h.not_links hnode⟩

lemma meets_evicting : Meets storeStep LegalStep (storeStart Cache.unset) evicting := by
  refine (meets_cons rfl).2 ⟨legal_put (l := []) rfl (by decide) (by decide) (by decide), ?_⟩
  refine (meets_cons rfl).2
    ⟨legal_put (l := [0]) ⟨rfl, rfl⟩ (by decide) (by decide) (by decide), ?_⟩
  refine (meets_cons rfl).2 ⟨trivial, ?_⟩
  -- the object that was used is in front of the other now
  exact (meets_cons rfl).2
    ⟨legal_put (l := [0, 1]) ⟨rfl, rfl, rfl⟩ (by decide) (by decide) (by decide), trivial⟩

theorem cache_is_lru_store_evicting :
    ∃ s st, after storeStep (storeStart Cache.unset) evicting = some (s, st) ∧
      s.Implements st ∧
      ∀ c : Call, c.Legal s → ∃ n, ∀ fuel, n ≤ fuel →
        ∃ r s', c.run fuel s = some (r, s') ∧ c.Serves s st r s' := by
  have hsome : (after storeStep (storeStart Cache.unset) evicting).isSome := by decide +kernel
  obtain ⟨⟨s, st⟩, hrun⟩ := Option.isSome_iff_exists.1 hsome
  exact ⟨s, st, hrun,
    cache_is_lru_store Cache.unset s st (reaches_of_after hrun meets_evicting)⟩

/-- A URI of 1024 characters, which leave no room for the NUL. -/
def longUri : List UInt8 := List.replicate 1024 97

/-- The first call brings that URI, and does not return. -/
theorem long_uri_overruns :
    ¬ ∃ n, ∀ fuel, n ≤ fuel →
      ∃ r s', (Call.put 0 longUri (fun _ => 7) 1).run fuel (storeStart Cache.unset).1 =
          some (r, s') ∧
        (Call.put 0 longUri (fun _ => 7) 1).Serves (storeStart Cache.unset).1
          (storeStart Cache.unset).2 r s' := by
  rintro ⟨n, hn⟩
  obtain ⟨r, s', hrun, -⟩ := hn n le_rfl
  rw [Call.run] at hrun
  obtain ⟨s₁, hput, -⟩ := Option.map_eq_some_iff.1 hrun
  have hshort := Cache.length_uri_of_putCacheItem hput
  rw [longUri, List.length_replicate] at hshort
  exact lt_irrefl 1024 hshort

end Proxylab
end SystemsLabs
