import Mathlib.Data.List.Nodup
import Mathlib.Data.Fintype.Basic
import Mathlib.Logic.Function.Basic
import Mathlib.Tactic

/-!
# Least recently used replacement

A set of a cache keeps its entries in recency order, most recently used first. An access
moves the entry it finds to the front, and a new entry that meets a full set pushes out the
last one. `run` serves a list of accesses to a cache of many sets.

The whole theory rests on one fact. The entries of a set with `E` lines are the first `E`
of the list that a set of unbounded size would keep (`run_sets`). So a larger set holds
what a smaller one holds at every moment, and counts no fewer hits and no more misses.
-/

namespace SystemsLabs
namespace Caching

/-- What a cache counts while it serves accesses. -/
@[ext] structure Stats where
  hits : ℕ
  misses : ℕ
  evictions : ℕ
deriving DecidableEq

namespace Stats

/-- The counts before the first access. -/
def zero : Stats := ⟨0, 0, 0⟩

def hit (n : Stats) : Stats := { n with hits := n.hits + 1 }

def miss (n : Stats) : Stats := { n with misses := n.misses + 1 }

def evict (n : Stats) : Stats := { n with evictions := n.evictions + 1 }

/-- At least as many hits, and neither more misses nor more evictions. -/
structure Better (n' n : Stats) : Prop where
  hits : n.hits ≤ n'.hits
  misses : n'.misses ≤ n.misses
  evictions : n'.evictions ≤ n.evictions

end Stats

/-- The entries of one set, most recently used first. -/
@[ext] structure Recency (α : Type*) where
  entries : List α
  nodup : entries.Nodup

namespace Recency

variable {α : Type*}

instance : Membership α (Recency α) := ⟨fun l x => x ∈ l.entries⟩

lemma mem_entries {l : Recency α} {x : α} : x ∈ l ↔ x ∈ l.entries := Iff.rfl

instance [DecidableEq α] (l : Recency α) (x : α) : Decidable (x ∈ l) :=
  inferInstanceAs (Decidable (x ∈ l.entries))

/-- A set that has not been used yet. -/
def empty : Recency α := ⟨[], List.nodup_nil⟩

@[simp] lemma entries_empty : (empty : Recency α).entries = [] := rfl

/-- The `E` most recently used entries. -/
def take (E : ℕ) (l : Recency α) : Recency α := ⟨l.entries.take E, l.nodup.take⟩

@[simp] lemma entries_take (E : ℕ) (l : Recency α) : (l.take E).entries = l.entries.take E := rfl

/-- More lines hold everything that fewer lines hold. -/
lemma mem_take_mono {E E' : ℕ} (hE : E ≤ E') {l : Recency α} {x : α} (hx : x ∈ l.take E) :
    x ∈ l.take E' :=
  (List.take_prefix_take_left hE).subset hx

variable [DecidableEq α]

/-- The access to `x` in a set that never has to give up an entry. -/
def promote (l : Recency α) (x : α) : Recency α where
  entries := x :: l.entries.erase x
  nodup := List.nodup_cons.2 ⟨l.nodup.not_mem_erase, l.nodup.erase x⟩

/-- The access to `x` in a set of at most `E` lines. -/
def touch (E : ℕ) (l : Recency α) (x : α) : Recency α :=
  if x ∈ l then l.promote x
  else if l.entries.length < E then l.promote x
  else (⟨l.entries.dropLast, l.nodup.sublist (List.dropLast_sublist _)⟩ : Recency α).promote x

/-- What the access to `x` adds to the counts. -/
def count (E : ℕ) (l : Recency α) (x : α) (n : Stats) : Stats :=
  if x ∈ l then n.hit else if l.entries.length < E then n.miss else n.miss.evict

@[simp] lemma entries_promote (l : Recency α) (x : α) :
    (l.promote x).entries = x :: l.entries.erase x := rfl

/-- A hit moves the element to the front. -/
lemma entries_touch_of_mem {E : ℕ} {l : Recency α} {x : α} (hx : x ∈ l) :
    (l.touch E x).entries = x :: l.entries.erase x := by
  rw [touch, if_pos hx, entries_promote]

/-- A miss adds it where there is room. -/
lemma entries_touch_of_lt {E : ℕ} {l : Recency α} {x : α} (hx : x ∉ l)
    (hl : l.entries.length < E) : (l.touch E x).entries = x :: l.entries := by
  rw [touch, if_neg hx, if_pos hl, entries_promote, List.erase_of_not_mem hx]

/-- A miss drops the oldest element where there is none. -/
lemma entries_touch_of_full {E : ℕ} {l : Recency α} {x : α} (hx : x ∉ l)
    (hl : ¬l.entries.length < E) : (l.touch E x).entries = x :: l.entries.dropLast := by
  rw [touch, if_neg hx, if_neg hl, entries_promote]
  rw [List.erase_of_not_mem fun h => hx (List.dropLast_subset _ h)]

lemma count_of_mem {E : ℕ} {l : Recency α} {x : α} (hx : x ∈ l) (n : Stats) :
    l.count E x n = n.hit := if_pos hx

lemma count_of_lt {E : ℕ} {l : Recency α} {x : α} (hx : x ∉ l) (hl : l.entries.length < E)
    (n : Stats) : l.count E x n = n.miss := by rw [count, if_neg hx, if_pos hl]

lemma count_of_full {E : ℕ} {l : Recency α} {x : α} (hx : x ∉ l) (hl : ¬l.entries.length < E)
    (n : Stats) : l.count E x n = n.miss.evict := by rw [count, if_neg hx, if_neg hl]

/-- What was used last is in the set. -/
lemma mem_touch_self (E : ℕ) (l : Recency α) (x : α) : x ∈ l.touch E x := by
  rw [touch]
  split_ifs <;> exact List.mem_cons_self

/-- To use again what was used last changes nothing. -/
lemma touch_touch (E : ℕ) (l : Recency α) (x : α) : (l.touch E x).touch E x = l.touch E x := by
  ext1
  have h : ∃ t, (l.touch E x).entries = x :: t := by
    rw [touch]
    split_ifs <;> exact ⟨_, rfl⟩
  obtain ⟨t, ht⟩ := h
  rw [entries_touch_of_mem (mem_touch_self E l x), ht, List.erase_cons_head]

/-- The capacity is not exceeded. -/
lemma length_touch_le {E : ℕ} (hE : 1 ≤ E) {l : Recency α} (hl : l.entries.length ≤ E) (x : α) :
    (l.touch E x).entries.length ≤ E := by
  by_cases hx : x ∈ l
  · have hpos := List.length_pos_of_mem hx
    rw [entries_touch_of_mem hx, List.length_cons, List.length_erase_of_mem hx]
    omega
  by_cases hlt : l.entries.length < E
  · rw [entries_touch_of_lt hx hlt, List.length_cons]
    omega
  · rw [entries_touch_of_full hx hlt, List.length_cons, List.length_dropLast]
    omega

/-- An entry outside the first `k` leaves them as they are when it is taken out. -/
lemma take_erase_of_not_mem {k : ℕ} {l : List α} {x : α} (hx : x ∉ l.take k) :
    (l.erase x).take k = l.take k := by
  induction l generalizing k with
  | nil => rfl
  | cons y l ih =>
    cases k with
    | zero => simp
    | succ k =>
      rw [List.take_succ_cons, List.mem_cons, not_or] at hx
      rw [List.erase_cons_tail (by simpa using fun h => hx.1 h.symm), List.take_succ_cons,
        List.take_succ_cons, ih hx.2]

/-- An entry among the first `k + 1` gives its place to the ones before it. -/
lemma take_erase_of_mem {k : ℕ} {l : List α} {x : α} (hx : x ∈ l.take (k + 1)) :
    (l.erase x).take k = (l.take (k + 1)).erase x := by
  induction l generalizing k with
  | nil => simp at hx
  | cons y l ih =>
    rw [List.take_succ_cons] at hx ⊢
    by_cases hxy : y = x
    · rw [hxy, List.erase_cons_head, List.erase_cons_head]
    rw [List.erase_cons_tail (by simpa using hxy), List.erase_cons_tail (by simpa using hxy)]
    have hx' : x ∈ l.take k := (List.mem_cons.1 hx).resolve_left fun h => hxy h.symm
    cases k with
    | zero => simp at hx'
    | succ k => rw [List.take_succ_cons, ih hx']

/-- A set of `E` lines keeps the first `E` entries of the unbounded set. -/
theorem touch_take {E : ℕ} (hE : 1 ≤ E) (l : Recency α) (x : α) :
    (l.take E).touch E x = (l.promote x).take E := by
  obtain ⟨k, rfl⟩ : ∃ k, E = k + 1 := ⟨E - 1, by omega⟩
  ext1
  rw [entries_take, entries_promote, List.take_succ_cons]
  by_cases hx : x ∈ l.take (k + 1)
  · rw [entries_touch_of_mem hx, entries_take, take_erase_of_mem hx]
  have hxk : x ∉ l.entries.take k := fun h => hx (mem_take_mono (Nat.le_succ k) h)
  rw [take_erase_of_not_mem hxk]
  -- A miss: the set has room exactly when the unbounded set is still that short.
  by_cases hl : (l.take (k + 1)).entries.length < k + 1
  · rw [entries_touch_of_lt hx hl, entries_take]
    rw [entries_take, List.length_take] at hl
    rw [List.take_of_length_le (by omega), List.take_of_length_le (by omega)]
  · rw [entries_touch_of_full hx hl, entries_take]
    rw [entries_take, List.length_take] at hl
    have hk : min (min (k + 1) l.entries.length - 1) (k + 1) = k := by omega
    rw [List.dropLast_eq_take, List.length_take, List.take_take, hk]

/-- With more lines an access to the same history goes no worse. -/
theorem count_better {E E' : ℕ} (hE : E ≤ E') (l : Recency α) (x : α) {n n' : Stats}
    (h : n'.Better n) : ((l.take E').count E' x n').Better ((l.take E).count E x n) := by
  obtain ⟨hh, hm, he⟩ := h
  by_cases hx : x ∈ l.take E
  · rw [count_of_mem hx, count_of_mem (mem_take_mono hE hx)]
    exact ⟨by simp only [Stats.hit]; omega, hm, he⟩
  have hmiss : ((l.take E).count E x n).misses = n.misses + 1 ∧
      ((l.take E).count E x n).hits = n.hits ∧
      n.evictions ≤ ((l.take E).count E x n).evictions := by
    rw [count, if_neg hx]
    split_ifs
    · exact ⟨rfl, rfl, le_rfl⟩
    · exact ⟨rfl, rfl, Nat.le_succ _⟩
  obtain ⟨h1, h2, h3⟩ := hmiss
  by_cases hx' : x ∈ l.take E'
  · rw [count_of_mem hx']
    exact ⟨by simp only [Stats.hit]; omega, by simp only [Stats.hit]; omega, he.trans h3⟩
  by_cases hl' : (l.take E').entries.length < E'
  · rw [count_of_lt hx' hl']
    exact ⟨by simp only [Stats.miss]; omega, by simp only [Stats.miss]; omega, he.trans h3⟩
  · -- Both miss, and the larger set is full: then the smaller one is full too.
    have hl : ¬(l.take E).entries.length < E := by
      rw [entries_take, List.length_take] at hl' ⊢
      omega
    rw [count_of_full hx' hl', count_of_full hx hl]
    exact ⟨hh, Nat.succ_le_succ hm, Nat.succ_le_succ he⟩

end Recency

/-- The sets of a cache, and what it has counted. -/
@[ext] structure Cache (ι α : Type*) where
  sets : ι → Recency α
  stats : Stats

namespace Cache

variable {ι α : Type*}

/-- A cache that has served nothing yet. -/
def empty : Cache ι α := ⟨fun _ => Recency.empty, Stats.zero⟩

variable [DecidableEq ι] [DecidableEq α]

/-- The access to entry `a.2` in set `a.1`. -/
def access (E : ℕ) (c : Cache ι α) (a : ι × α) : Cache ι α where
  sets := Function.update c.sets a.1 ((c.sets a.1).touch E a.2)
  stats := (c.sets a.1).count E a.2 c.stats

/-- The cache after it has served `as`. -/
def run (E : ℕ) (as : List (ι × α)) : Cache ι α := as.foldl (access E) empty

@[simp] lemma run_nil (E : ℕ) : run E ([] : List (ι × α)) = empty := rfl

/-- A run goes on where the one before it has ended. -/
lemma run_append (E : ℕ) (as bs : List (ι × α)) :
    run E (as ++ bs) = bs.foldl (access E) (run E as) := List.foldl_append

lemma run_concat (E : ℕ) (as : List (ι × α)) (a : ι × α) :
    run E (as ++ [a]) = (run E as).access E a := run_append E as [a]

lemma sets_access_self (E : ℕ) (c : Cache ι α) (i : ι) (x : α) :
    (c.access E (i, x)).sets i = (c.sets i).touch E x := Function.update_self ..

/-- An access touches one set only. -/
lemma sets_access_of_ne (E : ℕ) (c : Cache ι α) {i j : ι} (h : j ≠ i) (x : α) :
    (c.access E (i, x)).sets j = c.sets j := Function.update_of_ne h ..

/-- The same access made twice only counts one more hit. -/
lemma access_access (E : ℕ) (c : Cache ι α) (a : ι × α) :
    (c.access E a).access E a = { c.access E a with stats := (c.access E a).stats.hit } := by
  obtain ⟨i, x⟩ := a
  have hset := sets_access_self E c i x
  ext1
  · funext j
    rcases eq_or_ne j i with rfl | hj
    · rw [sets_access_self, hset, Recency.touch_touch]
    · rw [sets_access_of_ne E _ hj]
  · show ((c.access E (i, x)).sets i).count E x _ = _
    rw [hset, Recency.count_of_mem (Recency.mem_touch_self E _ x)]

/-- Every access is either a hit or a miss, and evicts only on a miss. -/
theorem run_total (E : ℕ) (as : List (ι × α)) :
    (run E as).stats.hits + (run E as).stats.misses = as.length ∧
      (run E as).stats.evictions ≤ (run E as).stats.misses := by
  induction as using List.reverseRecOn with
  | nil => exact ⟨rfl, le_rfl⟩
  | append_singleton as a ih =>
    obtain ⟨ht, he⟩ := ih
    rw [run_concat, List.length_append, List.length_singleton, ← ht]
    simp only [access, Recency.count, Stats.hit, Stats.miss, Stats.evict]
    split_ifs
    · exact ⟨by dsimp only; omega, he⟩
    · exact ⟨by dsimp only; omega, by dsimp only; omega⟩
    · exact ⟨by dsimp only; omega, by dsimp only; omega⟩

/-- No set ever holds more than its lines. -/
theorem run_length_le {E : ℕ} (hE : 1 ≤ E) (as : List (ι × α)) (i : ι) :
    ((run E as).sets i).entries.length ≤ E := by
  induction as using List.reverseRecOn with
  | nil => exact Nat.zero_le E
  | append_singleton as a ih =>
    obtain ⟨j, x⟩ := a
    rw [run_concat]
    rcases eq_or_ne i j with rfl | hij
    · rw [sets_access_self]
      exact Recency.length_touch_le hE ih x
    · rw [sets_access_of_ne E _ hij]
      exact ih

/-- What sets of unbounded size would hold after `as`. -/
def history (as : List (ι × α)) : ι → Recency α :=
  as.foldl (fun h a => Function.update h a.1 ((h a.1).promote a.2)) fun _ => Recency.empty

/-- The last access is the first in its history. -/
lemma history_concat (as : List (ι × α)) (a : ι × α) :
    history (as ++ [a]) = Function.update (history as) a.1 ((history as a.1).promote a.2) :=
  List.foldl_append

/-- A set of `E` lines holds the first `E` entries of its history. -/
theorem run_sets {E : ℕ} (hE : 1 ≤ E) (as : List (ι × α)) (i : ι) :
    (run E as).sets i = (history as i).take E := by
  induction as using List.reverseRecOn generalizing i with
  | nil => ext1; exact List.take_nil.symm
  | append_singleton as a ih =>
    obtain ⟨j, x⟩ := a
    rw [run_concat, history_concat]
    rcases eq_or_ne i j with rfl | hij
    · rw [sets_access_self, Function.update_self, ih, Recency.touch_take hE]
    · rw [sets_access_of_ne E _ hij, Function.update_of_ne hij, ih]

/-- **Inclusion.** What a cache holds, one with more lines in every set holds too. -/
theorem mem_run_mono {E E' : ℕ} (hE : 1 ≤ E) (h : E ≤ E') (as : List (ι × α)) {i : ι} {x : α}
    (hx : x ∈ (run E as).sets i) : x ∈ (run E' as).sets i := by
  rw [run_sets hE] at hx
  rw [run_sets (hE.trans h)]
  exact Recency.mem_take_mono h hx

/-- More lines in every set never cost a hit, a miss or an eviction. -/
theorem run_better {E E' : ℕ} (hE : 1 ≤ E) (h : E ≤ E') (as : List (ι × α)) :
    (run E' as).stats.Better (run E as).stats := by
  induction as using List.reverseRecOn with
  | nil => exact ⟨le_rfl, le_rfl, le_rfl⟩
  | append_singleton as a ih =>
    rw [run_concat, run_concat]
    show (((run E' as).sets a.1).count E' a.2 _).Better (((run E as).sets a.1).count E a.2 _)
    rw [run_sets hE, run_sets (hE.trans h)]
    exact Recency.count_better h _ a.2 ih

end Cache
end Caching
end SystemsLabs
