import SystemsLabs.Caching.Lru
import SystemsLabs.Cachelab.Csim

/-!
# The simulator is an LRU cache

`csim.c` has no recency list. It keeps the lines of a set where it first put them and
gives each a priority from a counter of the set. Sorted by falling priority the lines are
the recency list of the reference cache (`Ranked`), the counter is above every priority, and
the least priority that the walk finds belongs to the last entry of that list. The loop
keeps this relation for every set (`simulate_refines`).
-/

namespace SystemsLabs
namespace Cachelab

open Caching

/-! ## The reference cache -/

/-- The set and the tag of an address, with `2 ^ s` sets and blocks of `2 ^ b` bytes. -/
def place (s b : ℕ) (addr : BitVec 32) : Fin (2 ^ s) × ℕ :=
  (⟨addr.toNat / 2 ^ b % 2 ^ s, Nat.mod_lt _ (by positivity)⟩, addr.toNat / 2 ^ (s + b))

/-- The accesses of a line: none for `I`, a load and a store for `M`, else one. -/
def accesses (s b : ℕ) (line : TraceLine) : List (Fin (2 ^ s) × ℕ) :=
  if line.id = 'I' then []
  else if line.id = 'M' then [place s b line.addr, place s b line.addr]
  else [place s b line.addr]

/-- All accesses of a trace. -/
def traceAccesses (s b : ℕ) (trace : List TraceLine) : List (Fin (2 ^ s) × ℕ) :=
  trace.flatMap (accesses s b)

/-- The LRU cache with `2 ^ s` sets of `E` lines, after a trace. -/
def lruCache (s E b : ℕ) (trace : List TraceLine) : Cache (Fin (2 ^ s)) ℕ :=
  Cache.run E (traceAccesses s b trace)

/-! ## Priorities and recency -/

/-- The tag of a line as a number. -/
def Line.entry (x : Line) : ℕ := x.tag.toNat

/-- `ranks` are the lines of a set by falling priority, none above the counter `k`, and
their tags are the recency list `l`. -/
structure Ranked (lines ranks : List Line) (k : ℤ) (l : List ℕ) : Prop where
  perm : ranks.Perm lines
  falling : ranks.Pairwise fun x y => y.pri < x.pri
  bound : ∀ x ∈ ranks, 0 < x.pri ∧ x.pri ≤ k
  entries : ranks.map Line.entry = l

namespace Ranked

variable {lines ranks : List Line} {k : ℤ} {l : List ℕ}

lemma length_lines (h : Ranked lines ranks k l) : lines.length = l.length := by
  rw [← h.perm.length_eq, ← h.entries, List.length_map]

/-- Whether a tag is in the set can be read off the recency list. -/
lemma tag_mem (h : Ranked lines ranks k l) (tag : BitVec 32) :
    tag.toNat ∈ l ↔ ∃ x ∈ lines, x.tag = tag := by
  rw [← h.entries, List.mem_map]
  constructor
  · rintro ⟨x, hx, htag⟩
    exact ⟨x, h.perm.subset hx, BitVec.eq_of_toNat_eq htag⟩
  · rintro ⟨x, hx, rfl⟩
    exact ⟨x, h.perm.symm.subset hx, rfl⟩

/-- No two lines share a priority. -/
lemma eq_of_pri_eq (h : Ranked lines ranks k l) {x y : Line} (hx : x ∈ lines) (hy : y ∈ lines)
    (hpri : x.pri = y.pri) : x = y := by
  have hnodup : (ranks.map Line.pri).Nodup :=
    List.pairwise_map.2 (h.falling.imp fun hlt => hlt.ne')
  exact List.inj_on_of_nodup_map hnodup (h.perm.symm.subset hx) (h.perm.symm.subset hy) hpri

/-- The line used now gets the next priority, and others may have left. -/
lemma use {rest lines' : List Line} (h : Ranked lines ranks k l) (hrest : rest.Sublist ranks)
    (tag : BitVec 32) (hk : 0 ≤ k) (hperm : (⟨tag, k + 1⟩ :: rest).Perm lines') :
    Ranked lines' (⟨tag, k + 1⟩ :: rest) (k + 1) (tag.toNat :: rest.map Line.entry) := by
  have hbound : ∀ x ∈ rest, 0 < x.pri ∧ x.pri ≤ k := fun x hx => h.bound x (hrest.subset hx)
  constructor
  · exact hperm
  · apply List.Pairwise.cons
    · intro x hx
      show x.pri < k + 1
      have := (hbound x hx).2
      omega
    · exact h.falling.sublist hrest
  · intro x hx
    rcases List.mem_cons.1 hx with rfl | hx
    · exact ⟨show 0 < k + 1 by omega, le_rfl⟩
    · have := hbound x hx
      omega
  · rfl

/-- Another line may be written over a line without moving any other. -/
lemma perm_overwrite {before after pre post : List Line} {x : Line} (y : Line)
    (h : (before ++ x :: after).Perm (pre ++ x :: post)) :
    (y :: (before ++ after)).Perm (pre ++ y :: post) := by
  have hrest : (before ++ after).Perm (pre ++ post) :=
    (List.perm_middle.symm.trans (h.trans List.perm_middle)).cons_inv
  exact (hrest.cons y).trans List.perm_middle.symm

end Ranked

/-- A set of the simulator stands for a recency list: its counter is zero while the list is
empty, and ranks its lines after that. -/
inductive Holds : Option (List Line) → ℤ → List ℕ → Prop
  | unused : Holds none 0 []
  | used {lines ranks k l} (hk : 0 < k) (hl : l ≠ []) (h : Ranked lines ranks k l)
      (hlen : lines.length ≤ k) : Holds (some lines) k l

/-- The counts of the reference, as the simulator has them. -/
def Counts.ofStats (n : Stats) : Counts := ⟨n.hits, n.misses, n.evictions⟩

lemma Counts.hit_ofStats {n : Stats} (h : n.hits + 1 < 2 ^ 31) :
    (ofStats n).hit = ofStats n.hit := by
  show Counts.mk (wrap (n.hits + 1)) n.misses n.evictions = _
  rw [wrap_succ h]
  rfl

lemma Counts.miss_ofStats {n : Stats} (h : n.misses + 1 < 2 ^ 31) :
    (ofStats n).miss = ofStats n.miss := by
  show Counts.mk n.hits (wrap (n.misses + 1)) n.evictions = _
  rw [wrap_succ h]
  rfl

lemma Counts.evict_ofStats {n : Stats} (h : n.evictions + 1 < 2 ^ 31) :
    (ofStats n).evict = ofStats n.evict := by
  show Counts.mk n.hits n.misses (wrap (n.evictions + 1)) = _
  rw [wrap_succ h]
  rfl

/-! ## One access -/

/-- The counts of the reference after an access, with the second hit of `M`. -/
def countsAfter (E : ℕ) (l : Recency ℕ) (id : Char) (x : ℕ) (n : Stats) : Counts :=
  (Counts.ofStats (l.count E x n)).modify id

section Access

variable {E : ℕ} {id : Char} {tag : BitVec 32} {lines : List Line} {k : ℤ} {l : Recency ℕ}
variable {n : Stats}

/-- What the loop body makes of a set, against the reference. -/
def AccessRefines (E : ℕ) (id : Char) (tag : BitVec 32) (cache : Option (List Line)) (k : ℤ)
    (l : Recency ℕ) (n : Stats) : Prop :=
  ∃ lines', access E id tag cache k (Counts.ofStats n)
      = some (lines', k + 1, countsAfter E l id tag.toNat n) ∧
    Holds (some lines') (k + 1) (l.touch E tag.toNat).entries

/-- The branch of an empty set. -/
lemma access_unused (hE : 1 ≤ E) (hl : l.entries = []) (hn : n.misses + 1 < 2 ^ 31) :
    AccessRefines E id tag none 0 l n := by
  have hx : tag.toNat ∉ l := by
    rw [Recency.mem_entries, hl]
    exact List.not_mem_nil
  have hlt : l.entries.length < E := by
    rw [hl]
    exact hE
  refine ⟨[⟨tag, 1⟩], ?_, ?_⟩
  · rw [access, if_pos rfl, wrap_of_lt (by omega) (by omega), countsAfter,
      Recency.count_of_lt hx hlt, Counts.miss_ofStats hn]
    rfl
  · rw [Recency.entries_touch_of_lt hx hlt, hl]
    have hempty : Ranked [] [] 0 [] := ⟨List.Perm.nil, List.Pairwise.nil, by simp, rfl⟩
    exact .used (by omega) (List.cons_ne_nil _ _)
      (hempty.use List.Sublist.slnil tag le_rfl (List.Perm.refl _)) (by simp)

/-- The branch of a hit: the line found gets the next priority where it stands. -/
lemma access_hit {ranks : List Line} (hE : lines.length ≤ E) (hk : 0 < k) (hkn : k + 1 < 2 ^ 31)
    (h : Ranked lines ranks k l.entries) (hlen : lines.length ≤ k) (hx : tag.toNat ∈ l)
    (hn : n.hits + 1 < 2 ^ 31) : AccessRefines E id tag (some lines) k l n := by
  have hnodup := l.nodup
  obtain ⟨x, hxl, rfl⟩ := (h.tag_mem tag).1 hx
  -- The tags are distinct, so `x` is the first line of its tag in either order.
  obtain ⟨before, after, hranks⟩ := List.append_of_mem (h.perm.symm.subset hxl)
  obtain ⟨pre, post, hlines⟩ := List.append_of_mem hxl
  subst hranks hlines
  have hentries := h.entries
  rw [List.map_append, List.map_cons] at hentries
  rw [← hentries] at hnodup
  have hpre : ∀ y ∈ pre, y.tag ≠ x.tag := by
    have hperm : ((pre ++ x :: post).map Line.entry).Nodup := by
      rw [← (h.perm.map Line.entry).nodup_iff, h.entries]
      exact l.nodup
    intro y hy htag
    rw [List.map_append, List.map_cons, List.nodup_append] at hperm
    exact hperm.2.2 y.entry (List.mem_map_of_mem hy) x.entry List.mem_cons_self
      (congrArg BitVec.toNat htag)
  have hbefore : x.entry ∉ before.map Line.entry := by
    intro hmem
    rw [List.nodup_append] at hnodup
    exact hnodup.2.2 x.entry hmem x.entry List.mem_cons_self rfl
  rw [List.length_append, List.length_cons] at hE hlen
  push_cast at hlen
  obtain ⟨hhit, hwalk⟩ := walk_append (E := E) hpre rfl 0 le_rfl (by omega) (by omega) (k + 1) k post
  refine ⟨pre ++ { x with pri := k + 1 } :: post, ?_, ?_⟩
  · rw [access, if_neg hk.ne', Option.bind_some, wrap_of_lt (by omega) hkn]
    dsimp only
    rw [if_pos hhit, hwalk, countsAfter, Recency.count_of_mem hx, Counts.hit_ofStats hn]
  · have htouch : (l.touch E x.tag.toNat).entries
        = x.tag.toNat :: (before ++ after).map Line.entry := by
      rw [Recency.entries_touch_of_mem hx, ← hentries]
      show _ :: List.erase _ x.entry = _
      rw [List.erase_append_right _ hbefore, List.erase_cons_head, List.map_append]
    rw [htouch]
    have hrest : (before ++ after).Sublist (before ++ x :: after) :=
      (List.sublist_cons_self x after).append_left before
    apply Holds.used (by omega) (List.cons_ne_nil _ _)
      (h.use hrest x.tag hk.le (Ranked.perm_overwrite _ h.perm))
    rw [List.length_append, List.length_cons]
    push_cast
    omega

/-- The branch of a miss in a set with room. -/
lemma access_insert {ranks : List Line} (hE : l.entries.length < E) (hk : 0 < k)
    (hkn : k + 1 < 2 ^ 31) (hl : l.entries ≠ []) (h : Ranked lines ranks k l.entries)
    (hlen : lines.length ≤ k) (hx : tag.toNat ∉ l) (hn : n.misses + 1 < 2 ^ 31) :
    AccessRefines E id tag (some lines) k l n := by
  have hlength := h.length_lines
  have htags : ∀ y ∈ lines, y.tag ≠ tag := fun y hy htag => hx ((h.tag_mem tag).2 ⟨y, hy, htag⟩)
  have hne : lines ≠ [] := by
    intro hnil
    rw [hnil] at hlength
    exact hl (List.length_eq_zero_iff.1 hlength.symm)
  have hw := walk_missed (E := E) htags 0 le_rfl (by omega) (by omega) (k + 1) k
  refine ⟨lines ++ [⟨tag, k + 1⟩], ?_, ?_⟩
  · have hcount := hw.count
    rw [access, if_neg hk.ne', Option.bind_some, wrap_of_lt (by omega) hkn]
    dsimp only
    rw [if_neg (by rw [hw.hit]; exact Bool.false_ne_true), if_pos (by omega), hw.lines,
      insertInLine_of_ne_nil hne, Option.map_some, countsAfter, Recency.count_of_lt hx hE,
      Counts.miss_ofStats hn]
  · rw [Recency.entries_touch_of_lt hx hE, ← h.entries]
    have hperm : (⟨tag, k + 1⟩ :: ranks).Perm (lines ++ [⟨tag, k + 1⟩]) :=
      (h.perm.cons _).trans (List.perm_append_singleton _ lines).symm
    apply Holds.used (by omega) (List.cons_ne_nil _ _)
      (h.use (List.Sublist.refl ranks) tag hk.le hperm)
    rw [List.length_append, List.length_singleton]
    push_cast
    omega

/-- The least priority of a full set is that of the least recently used line. -/
lemma Walk.Missed.minPri_eq {w : Walk} {ranks : List Line} {x : Line} {entries : List ℕ}
    (hw : w.Missed lines 0 k) (h : Ranked lines (ranks ++ [x]) k entries) : w.minPri = x.pri := by
  have hx : x ∈ lines := h.perm.subset (by simp)
  apply le_antisymm (hw.le.2 x hx)
  have hleast : ∀ y ∈ ranks ++ [x], x.pri ≤ y.pri := by
    intro y hy
    rcases List.mem_append.1 hy with hy | hy
    · exact ((List.pairwise_append.1 h.falling).2.2 y hy x List.mem_cons_self).le
    · rw [List.mem_singleton.1 hy]
  rcases hw.attained with hmin | ⟨y, hy, hmin⟩
  · rw [hmin]
    exact (h.bound x (by simp)).2
  · rw [← hmin]
    exact hleast y (h.perm.symm.subset hy)

/-- The branch of a miss in a full set: the new line takes the place of the last ranked. -/
lemma access_replace {ranks : List Line} (hE : l.entries.length = E) (hk : 0 < k)
    (hkn : k + 1 < 2 ^ 31) (hl : l.entries ≠ []) (h : Ranked lines ranks k l.entries)
    (hlen : lines.length ≤ k) (hx : tag.toNat ∉ l) (hm : n.misses + 1 < 2 ^ 31)
    (he : n.evictions + 1 < 2 ^ 31) : AccessRefines E id tag (some lines) k l n := by
  have hlength := h.length_lines
  have htags : ∀ y ∈ lines, y.tag ≠ tag := fun y hy htag => hx ((h.tag_mem tag).2 ⟨y, hy, htag⟩)
  -- the last ranked line has the least priority, and no line before it in the list has it, too
  obtain rfl | ⟨before, x, rfl⟩ := List.eq_nil_or_concat' ranks
  · exact absurd h.entries.symm hl
  obtain ⟨pre, post, hsplit, hpre⟩ := List.eq_append_cons_of_mem
    (h.perm.subset (List.mem_append_right before (List.mem_singleton_self x)))
  have hpri : ∀ y ∈ pre, y.pri ≠ x.pri := by
    intro y hy hpri
    have hyx : y = x := h.eq_of_pri_eq (by rw [hsplit]; exact List.mem_append_left _ hy)
      (by rw [hsplit]; simp) hpri
    exact hpre (hyx ▸ hy)
  have hw := walk_missed (E := E) htags 0 le_rfl (by omega) (by omega) (k + 1) k
  have hmin := hw.minPri_eq h
  refine ⟨pre ++ ⟨tag, k + 1⟩ :: post, ?_, ?_⟩
  · have hcount := hw.count
    rw [access, if_neg hk.ne', Option.bind_some, wrap_of_lt (by omega) hkn]
    dsimp only
    rw [if_neg (by rw [hw.hit]; exact Bool.false_ne_true), if_neg (by omega), if_pos (by omega),
      hw.lines, hmin, hsplit, replaceInLine_append hpri, countsAfter,
      Recency.count_of_full hx (by omega), Counts.miss_ofStats hm,
      Counts.evict_ofStats (n := n.miss) he]
  · have htouch : (l.touch E tag.toNat).entries = tag.toNat :: before.map Line.entry := by
      rw [Recency.entries_touch_of_full hx (by omega), ← h.entries, List.map_append,
        List.map_singleton, List.dropLast_concat]
    have hperm : (⟨tag, k + 1⟩ :: before).Perm (pre ++ ⟨tag, k + 1⟩ :: post) := by
      have hover := Ranked.perm_overwrite ⟨tag, k + 1⟩ (hsplit ▸ h.perm)
      rwa [List.append_nil] at hover
    rw [htouch]
    apply Holds.used (by omega) (List.cons_ne_nil _ _)
      (h.use (List.sublist_append_left before [x]) tag hk.le hperm)
    rw [hsplit] at hlen
    rw [List.length_append, List.length_cons] at hlen ⊢
    push_cast at hlen ⊢
    omega

/-- The loop body does to a set what the reference does. -/
theorem access_refines {cache : Option (List Line)} (id : Char) (tag : BitVec 32) (hE : 1 ≤ E)
    (hl : l.entries.length ≤ E) (hk : k + 1 < 2 ^ 31) (h : Holds cache k l.entries)
    (hh : n.hits + 1 < 2 ^ 31) (hm : n.misses + 1 < 2 ^ 31) (he : n.evictions + 1 < 2 ^ 31) :
    AccessRefines E id tag cache k l n := by
  generalize hentries : l.entries = entries at h
  cases h with
  | unused => exact access_unused hE hentries hm
  | used hpos hne hrank hlen =>
    rw [← hentries] at hne hrank
    have hlength := hrank.length_lines
    by_cases hx : tag.toNat ∈ l
    · exact access_hit (by omega) hpos hk hrank hlen hx hh
    by_cases hlt : l.entries.length < E
    · exact access_insert hlt hpos hk hne hrank hlen hx hm
    · exact access_replace (by omega) hpos hk hne hrank hlen hx hm he

end Access

/-! ## Whole traces -/

/-- The simulator has served the accesses `as`. -/
structure Simulates (s E : ℕ) (as : List (Fin (2 ^ s) × ℕ)) (sim : Sim) : Prop where
  sets : ∀ i : Fin (2 ^ s), Holds (sim.cache i) (sim.initSet i) ((Cache.run E as).sets i).entries
  counter : ∀ i : Fin (2 ^ s), sim.initSet i ≤ as.length
  counts : sim.counts = Counts.ofStats (Cache.run E as).stats

lemma simulates_start (s E : ℕ) : Simulates s E [] Sim.start :=
  ⟨fun _ => .unused, fun _ => le_rfl, rfl⟩

lemma accesses_length_pos {s b : ℕ} {line : TraceLine} (hI : line.id ≠ 'I') :
    1 ≤ (accesses s b line).length := by
  rw [accesses, if_neg hI]
  split_ifs
  · exact Nat.le_succ 1
  · exact le_rfl

/-- A line leaves the reference as one access does, with one more hit for `M`. -/
lemma run_accesses {s b : ℕ} (E : ℕ) (as : List (Fin (2 ^ s) × ℕ)) {line : TraceLine}
    (hI : line.id ≠ 'I') :
    Cache.run E (as ++ accesses s b line) =
      let c := (Cache.run E as).access E (place s b line.addr)
      { c with stats := if line.id = 'M' then c.stats.hit else c.stats } := by
  rw [accesses, if_neg hI]
  split_ifs with hM
  · rw [Cache.run_append]
    exact Cache.access_access E _ _
  · exact Cache.run_concat E as _

section Run

variable {s E b : ℕ} {as : List (Fin (2 ^ s) × ℕ)} {sim : Sim}

/-- The counts after a line, the extra hit of `M` included, are those of the reference. -/
lemma countsAfter_eq {line : TraceLine} (hI : line.id ≠ 'I')
    (hn : (as ++ accesses s b line).length < 2 ^ 31) :
    countsAfter E ((Cache.run E as).sets (place s b line.addr).1) line.id (place s b line.addr).2
        (Cache.run E as).stats
      = Counts.ofStats (Cache.run E (as ++ accesses s b line)).stats := by
  have htotal := Cache.run_total E (as ++ [place s b line.addr])
  rw [Cache.run_concat, List.length_append, List.length_singleton] at htotal
  rw [run_accesses E as hI, countsAfter, Counts.modify]
  show _ = Counts.ofStats (if line.id = 'M' then _ else _)
  split_ifs with hM
  · have hlen : (accesses s b line).length = 2 := by
      rw [accesses, if_neg hI, if_pos hM]
      rfl
    rw [List.length_append] at hn
    exact Counts.hit_ofStats
      (n := ((Cache.run E as).access E (place s b line.addr)).stats) (by omega)
  · rfl

/-- A round changes one set, and the relation stays with the others. -/
lemma Simulates.store {p : Fin (2 ^ s) × ℕ} {bs : List (Fin (2 ^ s) × ℕ)} {lines : List Line}
    {n : Counts} (h : Simulates s E as sim) (hbs : 1 ≤ bs.length)
    (hsets : (Cache.run E (as ++ bs)).sets = ((Cache.run E as).access E p).sets)
    (hholds : Holds (some lines) (sim.initSet p.1 + 1)
      (((Cache.run E as).sets p.1).touch E p.2).entries)
    (hcounts : n = Counts.ofStats (Cache.run E (as ++ bs)).stats) :
    Simulates s E (as ++ bs) (sim.store p.1 lines (sim.initSet p.1 + 1) n) := by
  constructor
  · intro j
    rw [hsets]
    rcases eq_or_ne j p.1 with rfl | hj
    · rw [Sim.cache_store_self, Sim.initSet_store_self, Cache.sets_access_self]
      exact hholds
    · have hne := Fin.val_ne_of_ne hj
      rw [Sim.cache_store_of_ne _ _ _ _ hne, Sim.initSet_store_of_ne _ _ _ _ hne,
        Cache.sets_access_of_ne E _ hj]
      exact h.sets j
  · intro j
    have hj := h.counter j
    rw [List.length_append]
    rcases eq_or_ne j p.1 with rfl | hne
    · rw [Sim.initSet_store_self]
      omega
    · rw [Sim.initSet_store_of_ne _ _ _ _ (Fin.val_ne_of_ne hne)]
      omega
  · exact hcounts

/-- One round of the loop serves the accesses of its line. -/
theorem step_refines (hs : s ≤ 5) (hE : 1 ≤ E) (h1 : 1 ≤ s + b) (hsb : s + b ≤ 31)
    (h : Simulates s E as sim) (line : TraceLine)
    (hn : (as ++ accesses s b line).length < 2 ^ 31 - 1) :
    ∃ sim', step s E b sim line = some sim' ∧ Simulates s E (as ++ accesses s b line) sim' := by
  by_cases hI : line.id = 'I'
  · refine ⟨sim, by rw [step, if_pos hI], ?_⟩
    rw [accesses, if_pos hI, List.append_nil]
    exact h
  have hcounts := countsAfter_eq (E := E) hI (hn.trans (by norm_num))
  have hrun := run_accesses (b := b) E as hI
  set p := place s b line.addr with hp
  have hidx : setIndex s b line.addr = p.1 := setIndex_eq (by omega) (by omega) line.addr
  have htag : (tagOf s b line.addr).toNat = p.2 := toNat_tagOf h1 (by omega) line.addr
  have hbounds : (p.1 : ℕ) < 32 ∧ ((p.1 : ℕ) : ℤ) < oneShl s := by
    have hS : 2 ^ s ≤ 32 := Nat.pow_le_pow_right (by norm_num) hs
    rw [oneShl_of_lt (by omega)]
    omega
  -- The reference's totals bound every counter of the simulator.
  have hpos := accesses_length_pos (s := s) (b := b) hI
  have htotal := Cache.run_total E as
  have hcounter := h.counter p.1
  rw [List.length_append] at hn
  obtain ⟨lines, haccess, hholds⟩ := access_refines line.id (tagOf s b line.addr) hE
    (Cache.run_length_le hE as p.1) (by omega) (h.sets p.1) (n := (Cache.run E as).stats) (by omega)
    (by omega) (by omega)
  rw [htag] at haccess hholds
  refine ⟨_, ?_, h.store hpos (by rw [hrun]) hholds hcounts⟩
  rw [step, if_neg hI]
  dsimp only
  rw [hidx, if_pos hbounds, h.counts, haccess, Option.map_some]

/-- The loop serves the accesses of a trace. -/
theorem simulate_refines (hs : s ≤ 5) (hE : 1 ≤ E) (h1 : 1 ≤ s + b) (hsb : s + b ≤ 31)
    (trace : List TraceLine) (hn : (traceAccesses s b trace).length < 2 ^ 31 - 1) :
    ∃ sim, simulate s E b trace = some sim ∧ Simulates s E (traceAccesses s b trace) sim := by
  induction trace using List.reverseRecOn with
  | nil => exact ⟨Sim.start, rfl, simulates_start s E⟩
  | append_singleton trace line ih =>
    have happ : traceAccesses s b (trace ++ [line])
        = traceAccesses s b trace ++ accesses s b line := by
      rw [traceAccesses, List.flatMap_append, List.flatMap_singleton]
      rfl
    rw [happ] at hn ⊢
    obtain ⟨sim, hsim, h⟩ := ih (by rw [List.length_append] at hn; omega)
    obtain ⟨sim', hstep, h'⟩ := step_refines hs hE h1 hsb h line hn
    refine ⟨sim', ?_, h'⟩
    rw [simulate, List.foldlM_append]
    show (simulate s E b trace).bind _ = _
    rw [hsim, Option.bind_some, List.foldlM_cons, hstep]
    rfl

/-! ## The results -/

/-- **The simulator is an LRU cache.** What `csim.c` prints for a trace are the counts of the
reference after the accesses of the trace. -/
theorem main_refines_lru (hs : s ≤ 5) (hE : 1 ≤ E) (h1 : 1 ≤ s + b) (hsb : s + b ≤ 31)
    {fopen : String → Option (List TraceLine)} {options : List Opt} {t : String}
    {trace : List TraceLine} (hargs : Args.parse options = ⟨s, E, b, some t⟩)
    (hopen : fopen t = some trace) (hn : (traceAccesses s b trace).length < 2 ^ 31 - 1) :
    main fopen options = some (.printSummary (lruCache s E b trace).stats.hits
      (lruCache s E b trace).stats.misses (lruCache s E b trace).stats.evictions) := by
  obtain ⟨sim, hsim, h⟩ := simulate_refines hs hE h1 hsb trace hn
  rw [main_of_simulate hs hargs hopen hsim, h.counts]
  rfl

/-- A trace with every kind of line, a conflict in set 1 and an address used again. -/
def sampleTrace : List TraceLine :=
  [⟨'L', 0x10⟩, ⟨'M', 0x20⟩, ⟨'L', 0x22⟩, ⟨'S', 0x18⟩, ⟨'L', 0x110⟩, ⟨'I', 0x40⟩, ⟨'L', 0x210⟩,
    ⟨'M', 0x12⟩]

theorem main_refines_lru_sample :
    main (fun _ => some sampleTrace) [.s 4, .E 2, .b 4, .t "yi.trace"]
      = some (.printSummary 4 5 2) :=
  (main_refines_lru (s := 4) (E := 2) (b := 4) (by decide) (by decide) (by decide) (by decide)
    rfl rfl (by decide)).trans (by decide)

/-- The tags in the list of a set. -/
def Sim.tags (sim : Sim) (i : ℕ) : List (BitVec 32) := ((sim.cache i).getD []).map Line.tag

lemma Simulates.mem_tags (h : Simulates s E as sim) (i : Fin (2 ^ s)) (tag : BitVec 32) :
    tag ∈ sim.tags i ↔ tag.toNat ∈ (Cache.run E as).sets i := by
  have hset := h.sets i
  rw [Recency.mem_entries, Sim.tags, List.mem_map]
  generalize ((Cache.run E as).sets i).entries = l, sim.cache i = lines, sim.initSet i = k at hset
  cases hset with
  | unused => simp
  | used _ _ hrank _ => exact (hrank.tag_mem tag).symm

/-- **Inclusion.** At every moment of a run, more lines per set hold every tag that fewer
lines hold, with no fewer hits and no more misses or evictions. -/
theorem simulate_inclusion (hs : s ≤ 5) (hE : 1 ≤ E) {E' : ℕ} (hEE' : E ≤ E') (h1 : 1 ≤ s + b)
    (hsb : s + b ≤ 31) {trace : List TraceLine}
    (hn : (traceAccesses s b trace).length < 2 ^ 31 - 1) {pre : List TraceLine}
    (hpre : pre <+: trace) :
    ∃ sim sim', simulate s E b pre = some sim ∧ simulate s E' b pre = some sim' ∧
      (∀ i < 2 ^ s, sim.tags i ⊆ sim'.tags i) ∧
      sim.counts.hits ≤ sim'.counts.hits ∧ sim'.counts.misses ≤ sim.counts.misses ∧
      sim'.counts.evictions ≤ sim.counts.evictions := by
  have hlen : (traceAccesses s b pre).length ≤ (traceAccesses s b trace).length := by
    obtain ⟨rest, rfl⟩ := hpre
    rw [traceAccesses, traceAccesses, List.flatMap_append, List.length_append]
    exact Nat.le_add_right _ _
  obtain ⟨sim, hsim, h⟩ := simulate_refines hs hE h1 hsb pre (by omega)
  obtain ⟨sim', hsim', h'⟩ := simulate_refines hs (hE.trans hEE') h1 hsb pre (by omega)
  have hbetter := Cache.run_better hE hEE' (traceAccesses s b pre)
  refine ⟨sim, sim', hsim, hsim', ?_, ?_⟩
  · intro i hi tag htag
    rw [h.mem_tags ⟨i, hi⟩] at htag
    rw [h'.mem_tags ⟨i, hi⟩]
    exact Cache.mem_run_mono hE hEE' _ htag
  · rw [h.counts, h'.counts]
    exact ⟨Int.ofNat_le.2 hbetter.hits, Int.ofNat_le.2 hbetter.misses,
      Int.ofNat_le.2 hbetter.evictions⟩

theorem simulate_inclusion_sample :
    ∃ sim sim', simulate 4 1 4 (sampleTrace.take 7) = some sim ∧
      simulate 4 2 4 (sampleTrace.take 7) = some sim' ∧ (∀ i < 2 ^ 4, sim.tags i ⊆ sim'.tags i) ∧
      sim.counts.hits ≤ sim'.counts.hits ∧ sim'.counts.misses ≤ sim.counts.misses ∧
      sim'.counts.evictions ≤ sim.counts.evictions :=
  simulate_inclusion (s := 4) (E := 1) (b := 4) (by decide) (by decide) (by decide) (by decide)
    (by decide) (by decide) (List.take_prefix 7 sampleTrace)

end Run

end Cachelab
end SystemsLabs
