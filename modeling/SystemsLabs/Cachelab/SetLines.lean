import SystemsLabs.Cachelab.Csim

/-!
# The lines of a set

A set of the simulator is a list of lines and a counter. Each access raises the counter and
gives the new value to the line that it uses, so the priorities in a set are distinct, the
counter is the largest of them, and it belongs to the line used last. The least priority, which
the walk over a full set finds, is then that of one line only, and `replaceInLine` writes over
this line (`set_invariant`).
-/

namespace SystemsLabs
namespace Cachelab

/-! ## Traces, set by set -/

/-- The lines of a trace that the loop does not skip. -/
def dataLines (trace : List TraceLine) : List TraceLine := trace.filter (·.id ≠ 'I')

/-- The accesses of a trace to one set. -/
def setAccesses (s b : ℤ) (i : ℕ) (trace : List TraceLine) : List TraceLine :=
  (dataLines trace).filter fun line => setIndex s b line.addr = i

/-- The tag of the last access to a set. -/
def lastTag (s b : ℤ) (i : ℕ) (trace : List TraceLine) : Option (BitVec 32) :=
  (setAccesses s b i trace).getLast?.map fun line => tagOf s b line.addr

/-- The lines of a set, from `cache[i]` along `next`. -/
def Sim.lines (sim : Sim) (i : ℕ) : List Line := (sim.cache i).getD []

/-- The rounds on the set `i` that do `misses++`. -/
def missesIn (s E b : ℤ) (i : ℕ) : Sim → List TraceLine → ℕ
  | _, [] => 0
  | sim, line :: rest =>
    match step s E b sim line with
    | none => 0
    | some sim' =>
      (if setIndex s b line.addr = i ∧ sim'.counts.misses ≠ sim.counts.misses then 1 else 0)
        + missesIn s E b i sim' rest

/-- What holds of a set with `E` places after so many misses, its counter being `k` and the tag
of the last access `last`. -/
structure SetInv (E : ℕ) (lines : List Line) (k : ℤ) (misses : ℕ)
    (last : Option (BitVec 32)) : Prop where
  length : lines.length = min E misses
  tags : (lines.map Line.tag).Nodup
  pris : (lines.map Line.pri).Nodup
  bound : ∀ x ∈ lines, 1 ≤ x.pri ∧ x.pri ≤ k
  unused : last = none → lines = [] ∧ k = 0
  top : ∀ tag ∈ last, ⟨tag, k⟩ ∈ lines

/-- Exactly one of the lines has the priority `p`, and `new` has been written over this line and
no other. -/
def Overwrites (lines lines' : List Line) (p : ℤ) (new : Line) : Prop :=
  ∃ before x after, lines = before ++ x :: after ∧ lines' = before ++ new :: after ∧
    x.pri = p ∧ ∀ y ∈ before ++ after, y.pri ≠ p

/-- If the next round does `evictions++`, then `minPri` is the priority of one line, which the
new one takes the place of. -/
def EvictsOne (s E b : ℤ) (sim : Sim) (line : TraceLine) : Prop :=
  ∀ sim' ∈ step s E b sim line, sim'.counts.evictions ≠ sim.counts.evictions →
    let i := setIndex s b line.addr
    let w := walk E (tagOf s b line.addr) (wrap (sim.initSet i + 1)) (sim.lines i) 0
      (sim.initSet i)
    Overwrites (sim.lines i) (sim'.lines i) w.minPri ⟨tagOf s b line.addr, sim'.initSet i⟩

/-! ## The invariant of a set -/

section Nodup
variable {α : Type} {f : Line → α} {lines lines' rest pre post : List Line} {x : Line}

lemma nodup_map_cons_iff :
    ((x :: rest).map f).Nodup ↔ (rest.map f).Nodup ∧ ∀ y ∈ rest, f y ≠ f x := by
  rw [List.map_cons, List.nodup_cons, List.mem_map, and_comm]
  exact and_congr_right' ⟨fun h y hy heq => h ⟨y, hy, heq⟩, fun h ⟨y, hy, heq⟩ => h y hy heq⟩

lemma nodup_map_middle_iff :
    ((pre ++ x :: post).map f).Nodup ↔
      ((pre ++ post).map f).Nodup ∧ ∀ y ∈ pre ++ post, f y ≠ f x := by
  rw [(List.perm_middle.map f).nodup_iff, nodup_map_cons_iff]

/-- A line among some of the others, in any order. -/
lemma nodup_map_of_perm (hperm : lines'.Perm (x :: rest)) (hrest : rest.Sublist lines)
    (hnodup : (lines.map f).Nodup) (hx : ∀ y ∈ rest, f y ≠ f x) : (lines'.map f).Nodup := by
  rw [(hperm.map f).nodup_iff, nodup_map_cons_iff]
  exact ⟨hnodup.sublist (hrest.map f), hx⟩

end Nodup

namespace SetInv

variable {E misses : ℕ} {lines : List Line} {k : ℤ} {last : Option (BitVec 32)}

lemma empty (E : ℕ) : SetInv E [] 0 0 none :=
  ⟨(Nat.min_zero E).symm, List.nodup_nil, List.nodup_nil, by simp, fun _ => ⟨rfl, rfl⟩, by simp⟩

/-- Distinct priorities up to `k` belong to at most `k` lines. -/
lemma length_le (h : SetInv E lines k misses last) (hk : 0 ≤ k) : (lines.length : ℤ) ≤ k := by
  have hsub : (lines.map Line.pri).toFinset ⊆ Finset.Icc 1 k := by
    intro p hp
    obtain ⟨x, hx, rfl⟩ := List.mem_map.1 (List.mem_toFinset.1 hp)
    exact Finset.mem_Icc.2 (h.bound x hx)
  have hcard := Finset.card_le_card hsub
  rw [List.toFinset_card_of_nodup h.pris, List.length_map, Int.card_Icc] at hcard
  omega

lemma counter_nonneg (h : SetInv E lines k misses last) : 0 ≤ k := by
  cases last with
  | none => exact (h.unused rfl).2.ge
  | some tag =>
    have := h.bound _ (h.top tag rfl)
    omega

/-- A set with a counter has been used. -/
lemma exists_last (h : SetInv E lines k misses last) (hk : k ≠ 0) : ∃ tag, last = some tag := by
  cases last with
  | none => exact absurd (h.unused rfl).2 hk
  | some tag => exact ⟨tag, rfl⟩

/-- The line used now gets the next priority, and others may have left. -/
lemma use {rest lines' : List Line} {tag : BitVec 32} {misses' : ℕ}
    (h : SetInv E lines k misses last) (hrest : rest.Sublist lines)
    (htag : ∀ y ∈ rest, y.tag ≠ tag) (hperm : lines'.Perm (⟨tag, k + 1⟩ :: rest))
    (hlen : lines'.length = min E misses') : SetInv E lines' (k + 1) misses' (some tag) := by
  have hk := h.counter_nonneg
  have hold : ∀ y ∈ rest, 1 ≤ y.pri ∧ y.pri ≤ k := fun y hy => h.bound y (hrest.subset hy)
  constructor
  · exact hlen
  · exact nodup_map_of_perm hperm hrest h.tags htag
  · refine nodup_map_of_perm hperm hrest h.pris fun y hy => ?_
    show y.pri ≠ k + 1
    have := hold y hy
    omega
  · -- the counter has moved on by one, and only the new line has reached it
    intro y hy
    rcases List.mem_cons.1 (hperm.subset hy) with rfl | hy
    · exact ⟨by show 1 ≤ k + 1; omega, le_rfl⟩
    · have := hold y hy
      omega
  · intro hnone
    cases hnone
  · intro t ht
    obtain rfl := Option.some.inj ht
    exact hperm.symm.subset List.mem_cons_self

/-- A new line behind the others. -/
lemma insert (h : SetInv E lines k misses last) (hlt : lines.length < E) {tag : BitVec 32}
    (htag : ∀ y ∈ lines, y.tag ≠ tag) :
    SetInv E (lines ++ [⟨tag, k + 1⟩]) (k + 1) (misses + 1) (some tag) := by
  refine h.use (List.Sublist.refl lines) htag (List.perm_append_singleton _ lines) ?_
  have := h.length
  rw [List.length_append, List.length_singleton]
  omega

/-- A line in the place of another one. -/
lemma overwrite {pre post : List Line} {x : Line}
    (h : SetInv E (pre ++ x :: post) k misses last) {tag : BitVec 32}
    (htag : ∀ y ∈ pre ++ post, y.tag ≠ tag) {misses' : ℕ}
    (hm : min E misses' = min E misses) :
    SetInv E (pre ++ ⟨tag, k + 1⟩ :: post) (k + 1) misses' (some tag) := by
  have hrest : (pre ++ post).Sublist (pre ++ x :: post) :=
    (List.sublist_cons_self x post).append_left pre
  refine h.use hrest htag List.perm_middle ?_
  have := h.length
  rw [List.length_append, List.length_cons] at this ⊢
  omega

/-- The tags before and after a line differ from its own. -/
lemma tag_ne {pre post : List Line} {x : Line} (h : SetInv E (pre ++ x :: post) k misses last) :
    ∀ y ∈ pre ++ post, y.tag ≠ x.tag := by
  have hnodup := h.tags
  rw [nodup_map_middle_iff] at hnodup
  exact hnodup.2

/-- The priorities before and after a line differ from its own. -/
lemma pri_ne {pre post : List Line} {x : Line} (h : SetInv E (pre ++ x :: post) k misses last) :
    ∀ y ∈ pre ++ post, y.pri ≠ x.pri := by
  have hnodup := h.pris
  rw [nodup_map_middle_iff] at hnodup
  exact hnodup.2

end SetInv

/-! ## One access -/

/-- What a round counts. -/
inductive Outcome
  | hit
  | miss
  | evict

namespace Outcome

/-- The counts after a round, without the second hit of `M`. -/
def count : Outcome → Counts → Counts
  | .hit, n => n.hit
  | .miss, n => n.miss
  | .evict, n => n.miss.evict

def misses : Outcome → ℕ
  | .hit => 0
  | .miss => 1
  | .evict => 1

/-- A counter that is raised changes, also when it wraps. -/
lemma wrap_succ_ne (x : ℤ) : wrap (x + 1) ≠ x := by
  intro h
  have hmod := Int.bmod_emod (x := x + 1) (m := 2 ^ 32)
  rw [← wrap, h] at hmod
  omega

variable (o : Outcome) (id : Char) (n : Counts)

lemma misses_count :
    (if ((o.count n).modify id).misses ≠ n.misses then 1 else 0) = o.misses := by
  have hmodify : ∀ n' : Counts, (n'.modify id).misses = n'.misses := by
    intro n'
    rw [Counts.modify]
    split_ifs <;> rfl
  rw [hmodify]
  cases o with
  | hit => exact if_neg fun h => h rfl
  | miss => exact if_pos (wrap_succ_ne n.misses)
  | evict => exact if_pos (wrap_succ_ne n.misses)

lemma evictions_count : ((o.count n).modify id).evictions ≠ n.evictions ↔ o = .evict := by
  have hmodify : ∀ n' : Counts, (n'.modify id).evictions = n'.evictions := by
    intro n'
    rw [Counts.modify]
    split_ifs <;> rfl
  rw [hmodify]
  cases o with
  | hit => exact ⟨fun h => absurd rfl h, fun h => nomatch h⟩
  | miss => exact ⟨fun h => absurd rfl h, fun h => nomatch h⟩
  | evict => exact ⟨fun _ => rfl, fun _ => wrap_succ_ne n.evictions⟩

end Outcome

/-- What the loop body makes of a set: the next lines, what it counts, and which line goes. -/
def Accessed (E : ℕ) (id : Char) (tag : BitVec 32) (cache : Option (List Line))
    (lines : List Line) (k : ℤ) (misses : ℕ) : Prop :=
  ∃ (lines' : List Line) (o : Outcome),
    (∀ n, access E id tag cache k n = some (lines', k + 1, (o.count n).modify id)) ∧
    SetInv E lines' (k + 1) (misses + o.misses) (some tag) ∧
    (o = .evict → Overwrites lines lines' (walk E tag (k + 1) lines 0 k).minPri ⟨tag, k + 1⟩)

section Access

variable {E : ℕ} {id : Char} {tag : BitVec 32} {lines : List Line} {k : ℤ} {misses : ℕ}
variable {last : Option (BitVec 32)}

/-- The branch of an empty set. -/
lemma accessed_first (hE : 1 ≤ E) (h : SetInv E [] 0 misses last)
    (cache : Option (List Line)) : Accessed E id tag cache [] 0 misses := by
  refine ⟨[⟨tag, 0 + 1⟩], .miss, ?_, ?_, fun heq => nomatch heq⟩
  · intro n
    rw [access, if_pos rfl, wrap_of_lt (by omega) (by omega)]
    rfl
  · exact h.insert hE (by simp)

/-- The branch of a hit. -/
lemma accessed_found (h : SetInv E lines k misses last) (hk : 0 < k) (hkn : k + 1 < 2 ^ 31)
    (htag : ∃ x ∈ lines, x.tag = tag) : Accessed E id tag (some lines) lines k misses := by
  obtain ⟨x, hx, rfl⟩ := htag
  have hlen := h.length_le hk.le
  have hle : lines.length ≤ E := h.length.le.trans (Nat.min_le_left _ _)
  obtain ⟨pre, post, rfl⟩ := List.append_of_mem hx
  have hne := h.tag_ne
  rw [List.length_append, List.length_cons] at hle hlen
  push_cast at hlen
  have hpre : ∀ y ∈ pre, y.tag ≠ x.tag := fun y hy => hne y (List.mem_append_left post hy)
  obtain ⟨hhit, hlines⟩ := walk_append (E := E) hpre (rfl : x.tag = x.tag) 0 le_rfl (by omega)
    (by omega) (k + 1) k post
  refine ⟨pre ++ ⟨x.tag, k + 1⟩ :: post, .hit, ?_, ?_, fun heq => nomatch heq⟩
  · intro n
    rw [access, if_neg hk.ne', Option.bind_some, wrap_of_lt (by omega) hkn]
    dsimp only
    rw [if_pos hhit, hlines]
    rfl
  · exact h.overwrite hne rfl

/-- The branch of a miss in a set with room. -/
lemma accessed_room (h : SetInv E lines k misses last) (hk : 0 < k) (hkn : k + 1 < 2 ^ 31)
    (htag : ∀ y ∈ lines, y.tag ≠ tag) (hlt : lines.length < E) :
    Accessed E id tag (some lines) lines k misses := by
  have hlen := h.length_le hk.le
  have hne : lines ≠ [] := by
    obtain ⟨t, ht⟩ := h.exists_last hk.ne'
    exact List.ne_nil_of_mem (h.top t ht)
  have hw := walk_missed (E := E) htag 0 le_rfl (by omega) (by omega) (k + 1) k
  have hcount := hw.count
  refine ⟨lines ++ [⟨tag, k + 1⟩], .miss, ?_, h.insert hlt htag, fun heq => nomatch heq⟩
  intro n
  rw [access, if_neg hk.ne', Option.bind_some, wrap_of_lt (by omega) hkn]
  dsimp only
  rw [if_neg (by rw [hw.hit]; exact Bool.false_ne_true), if_pos (by omega), hw.lines,
    insertInLine_of_ne_nil hne, Option.map_some]
  rfl

/-- The branch of a miss in a full set: `minPri` starts at the counter, which is a priority in
the set, too, so the walk always ends with the priority of a line. -/
lemma accessed_full (h : SetInv E lines k misses last) (hk : 0 < k) (hkn : k + 1 < 2 ^ 31)
    (htag : ∀ y ∈ lines, y.tag ≠ tag) (hfull : lines.length = E) :
    Accessed E id tag (some lines) lines k misses := by
  have hlen := h.length_le hk.le
  have hw := walk_missed (E := E) htag 0 le_rfl (by omega) (by omega) (k + 1) k
  have hcount := hw.count
  obtain ⟨x, hx, hmin⟩ : ∃ x ∈ lines, x.pri = (walk E tag (k + 1) lines 0 k).minPri := by
    rcases hw.attained with hseed | hline
    · -- no line is below the counter: the line used last has it
      obtain ⟨t, ht⟩ := h.exists_last hk.ne'
      exact ⟨_, h.top t ht, hseed.symm⟩
    · exact hline
  obtain ⟨pre, post, rfl⟩ := List.append_of_mem hx
  have hpri := h.pri_ne
  refine ⟨pre ++ ⟨tag, k + 1⟩ :: post, .evict, ?_, ?_, fun _ => ?_⟩
  · intro n
    rw [access, if_neg hk.ne', Option.bind_some, wrap_of_lt (by omega) hkn]
    dsimp only
    rw [if_neg (by rw [hw.hit]; exact Bool.false_ne_true), if_neg (by omega), if_pos (by omega),
      hw.lines, ← hmin, replaceInLine_append fun y hy => hpri y (List.mem_append_left post hy)]
    rfl
  · -- a full set stays as long as it is
    have hmisses := h.length
    refine h.overwrite (fun y hy => htag y ?_) (show min E (misses + 1) = _ by omega)
    rcases List.mem_append.1 hy with hy | hy
    · exact List.mem_append_left _ hy
    · exact List.mem_append_right pre (List.mem_cons_of_mem x hy)
  · exact ⟨pre, x, post, rfl, rfl, hmin, hmin ▸ hpri⟩

/-- The loop body keeps the invariant of the set that it works on. -/
theorem accessed (hE : 1 ≤ E) (h : SetInv E lines k misses last) {cache : Option (List Line)}
    (hcache : k ≠ 0 → cache = some lines) (hkn : k + 1 < 2 ^ 31) :
    Accessed E id tag cache lines k misses := by
  -- the cases are the branches of the loop body, `initSet[set] == 0` first
  have hk := h.counter_nonneg
  rcases hk.eq_or_lt with rfl | hpos
  · have hlen := h.length_le le_rfl
    obtain rfl : lines = [] := List.length_eq_zero_iff.1 (by omega)
    exact accessed_first hE h cache
  rw [hcache hpos.ne']
  by_cases htag : ∃ x ∈ lines, x.tag = tag
  · exact accessed_found h hpos hkn htag
  have hmiss : ∀ y ∈ lines, y.tag ≠ tag := fun y hy heq => htag ⟨y, hy, heq⟩
  have hle : lines.length ≤ E := h.length.le.trans (Nat.min_le_left _ _)
  rcases hle.lt_or_eq with hlt | hfull
  · exact accessed_room h hpos hkn hmiss hlt
  · exact accessed_full h hpos hkn hmiss hfull

end Access

/-! ## Whole traces -/

section Traces

variable {s E b : ℕ} {trace : List TraceLine} {line : TraceLine} {sim sim' : Sim}

lemma dataLines_concat (trace : List TraceLine) (line : TraceLine) :
    dataLines (trace ++ [line]) = dataLines trace ++ if line.id = 'I' then [] else [line] := by
  rw [dataLines, List.filter_append, List.filter_singleton]
  by_cases hI : line.id = 'I'
  · simp [hI, dataLines]
  · simp [hI, dataLines]

/-- The last access of a set is that of the last line on it. -/
lemma lastTag_concat (s b : ℤ) (i : ℕ) (trace : List TraceLine) (line : TraceLine) :
    lastTag s b i (trace ++ [line]) =
      if line.id ≠ 'I' ∧ setIndex s b line.addr = i then some (tagOf s b line.addr)
      else lastTag s b i trace := by
  rw [lastTag, setAccesses, dataLines_concat, List.filter_append]
  by_cases hI : line.id = 'I'
  · rw [if_pos hI, if_neg fun h => h.1 hI, List.filter_nil, List.append_nil]
    rfl
  rw [if_neg hI]
  by_cases hi : setIndex s b line.addr = i
  · rw [if_pos ⟨hI, hi⟩, List.filter_cons_of_pos (by simpa using hi), List.filter_nil,
      List.getLast?_concat, Option.map_some]
  · rw [if_neg fun h => hi h.2, List.filter_cons_of_neg (by simpa using hi), List.filter_nil,
      List.append_nil]
    rfl

lemma simulate_concat {s E b : ℤ} (hrun : simulate s E b trace = some sim) :
    simulate s E b (trace ++ [line]) = step s E b sim line := by
  rw [simulate, List.foldlM_append]
  show (simulate s E b trace).bind _ = _
  rw [hrun, Option.bind_some, List.foldlM_cons]
  exact bind_pure (step s E b sim line)

lemma missesIn_concat {s E b : ℤ} (i : ℕ) {start : Sim}
    (hrun : trace.foldlM (step s E b) start = some sim) (hstep : step s E b sim line = some sim') :
    missesIn s E b i start (trace ++ [line]) = missesIn s E b i start trace +
      if setIndex s b line.addr = i ∧ sim'.counts.misses ≠ sim.counts.misses then 1 else 0 := by
  induction trace generalizing start with
  | nil =>
    cases hrun
    simp only [List.nil_append, missesIn, hstep]
    exact Nat.add_comm _ _
  | cons l trace ih =>
    rw [List.foldlM_cons] at hrun
    cases hl : step s E b start l with
    | none =>
      rw [hl] at hrun
      cases hrun
    | some mid =>
      rw [hl] at hrun
      rw [List.cons_append, missesIn, missesIn, hl]
      dsimp only
      rw [ih hrun, Nat.add_assoc]

/-- The simulator has run over a trace, and every set is as it should be. -/
structure Served (s E b : ℕ) (trace : List TraceLine) (sim : Sim) : Prop where
  run : simulate s E b trace = some sim
  sets : ∀ i, SetInv E (sim.lines i) (sim.initSet i) (missesIn s E b i Sim.start trace)
    (lastTag s b i trace)
  stored : ∀ i, sim.initSet i ≠ 0 → sim.cache i = some (sim.lines i)
  counter : ∀ i, sim.initSet i ≤ (dataLines trace).length

lemma served_start (s E b : ℕ) : Served s E b [] Sim.start :=
  ⟨rfl, fun _ => SetInv.empty E, fun _ h => absurd rfl h, fun _ => le_rfl⟩

/-- An instruction load is skipped. -/
lemma Served.skip (h : Served s E b trace sim) (hI : line.id = 'I') :
    Served s E b (trace ++ [line]) sim := by
  have hstep : step s E b sim line = some sim := if_pos hI
  refine ⟨(simulate_concat h.run).trans hstep, fun i => ?_, h.stored, fun i => ?_⟩
  · rw [missesIn_concat i h.run hstep, lastTag_concat, if_neg fun hi => hi.2 rfl,
      if_neg fun hi => hi.1 hI]
    exact h.sets i
  · rw [dataLines_concat, if_pos hI, List.append_nil]
    exact h.counter i

lemma Sim.lines_store_self (sim : Sim) (i : ℕ) (lines : List Line) (k : ℤ) (n : Counts) :
    (sim.store i lines k n).lines i = lines := by
  rw [Sim.lines, Sim.cache_store_self, Option.getD_some]

lemma Sim.lines_store_of_ne (sim : Sim) {i j : ℕ} (lines : List Line) (k : ℤ) (n : Counts)
    (h : j ≠ i) : (sim.store i lines k n).lines j = sim.lines j := by
  rw [Sim.lines, Sim.cache_store_of_ne _ _ _ _ h, ← Sim.lines]

/-- The round of an access stores the set that the loop body leaves. -/
lemma Served.store (h : Served s E b trace sim) (hI : line.id ≠ 'I') {lines : List Line}
    {o : Outcome}
    (hstep : step s E b sim line = some (sim.store (setIndex s b line.addr) lines
      (sim.initSet (setIndex s b line.addr) + 1) ((o.count sim.counts).modify line.id)))
    (hinv : SetInv E lines (sim.initSet (setIndex s b line.addr) + 1)
      (missesIn s E b (setIndex s b line.addr) Sim.start trace + o.misses)
      (some (tagOf s b line.addr))) :
    Served s E b (trace ++ [line]) (sim.store (setIndex s b line.addr) lines
      (sim.initSet (setIndex s b line.addr) + 1) ((o.count sim.counts).modify line.id)) := by
  have hlen : (dataLines (trace ++ [line])).length = (dataLines trace).length + 1 := by
    rw [dataLines_concat, if_neg hI, List.length_append, List.length_singleton]
  set i := setIndex s b line.addr with hi
  refine ⟨(simulate_concat h.run).trans hstep, fun j => ?_, fun j => ?_, fun j => ?_⟩
  · -- the set of the access, and the others, which neither the store nor the line touches
    rcases eq_or_ne j i with rfl | hj
    · have hmisses : (if i = i ∧ ((o.count sim.counts).modify line.id).misses ≠ sim.counts.misses
          then 1 else 0) = o.misses := by
        simp only [true_and]
        exact o.misses_count line.id sim.counts
      rw [lastTag_concat, if_pos ⟨hI, rfl⟩, missesIn_concat i h.run hstep,
        Sim.lines_store_self, Sim.initSet_store_self]
      show SetInv E lines _ (_ + if i = i ∧ ((o.count sim.counts).modify line.id).misses ≠
        sim.counts.misses then 1 else 0) _
      rw [hmisses]
      exact hinv
    · rw [lastTag_concat, if_neg fun hc => hj (hi.trans hc.2).symm,
        missesIn_concat j h.run hstep, if_neg fun hc => hj (hi.trans hc.1).symm,
        Sim.lines_store_of_ne _ _ _ _ hj, Sim.initSet_store_of_ne _ _ _ _ hj]
      exact h.sets j
  · rcases eq_or_ne j i with rfl | hj
    · intro _
      rw [Sim.lines_store_self, Sim.cache_store_self]
    · rw [Sim.lines_store_of_ne _ _ _ _ hj, Sim.initSet_store_of_ne _ _ _ _ hj,
        Sim.cache_store_of_ne _ _ _ _ hj]
      exact h.stored j
  · have hj := h.counter j
    rw [hlen]
    push_cast
    rcases eq_or_ne j i with rfl | hne
    · rw [Sim.initSet_store_self]
      omega
    · rw [Sim.initSet_store_of_ne _ _ _ _ hne]
      omega

/-- One round keeps every set as it should be, and evicts one line if it evicts. -/
theorem served_step (hs : s ≤ 5) (hE : 1 ≤ E) (hsb : s + b ≤ 31) (h : Served s E b trace sim)
    (line : TraceLine) (hn : (dataLines (trace ++ [line])).length < 2 ^ 31 - 1) :
    (∃ sim', Served s E b (trace ++ [line]) sim') ∧ EvictsOne s E b sim line := by
  by_cases hI : line.id = 'I'
  · -- a skipped line evicts nothing
    refine ⟨⟨sim, h.skip hI⟩, ?_⟩
    intro sim' hstep hne
    have hsame : step s E b sim line = some sim := if_pos hI
    cases hsame.symm.trans hstep
    exact absurd rfl hne
  have hcounter := h.counter (setIndex s b line.addr)
  rw [dataLines_concat, if_neg hI, List.length_append, List.length_singleton] at hn
  have hidx : setIndex s b line.addr < 2 ^ s := by
    rw [setIndex_eq (by omega) (by omega)]
    exact Nat.mod_lt _ (by positivity)
  -- `initSet` has 32 entries, and `s` is at most 5
  have hbounds : setIndex s b line.addr < 32 ∧ (setIndex s b line.addr : ℤ) < oneShl s := by
    have hS : 2 ^ s ≤ 32 := Nat.pow_le_pow_right (by norm_num) hs
    rw [oneShl_of_lt (by omega)]
    omega
  obtain ⟨lines, o, haccess, hinv, hevict⟩ : Accessed E line.id (tagOf s b line.addr)
      (sim.cache (setIndex s b line.addr)) _ _ _ :=
    accessed hE (h.sets (setIndex s b line.addr)) (h.stored _) (by omega)
  have hstep : step s E b sim line = some (sim.store (setIndex s b line.addr) lines
      (sim.initSet (setIndex s b line.addr) + 1) ((o.count sim.counts).modify line.id)) := by
    rw [step, if_neg hI]
    dsimp only
    rw [if_pos hbounds, haccess, Option.map_some]
  refine ⟨⟨_, h.store hI hstep hinv⟩, ?_⟩
  intro sim' hsim' hne
  cases hstep.symm.trans hsim'
  have ho : o = .evict := (o.evictions_count line.id sim.counts).1 hne
  have hk := (h.sets (setIndex s b line.addr)).counter_nonneg
  dsimp only
  rw [Sim.lines_store_self, Sim.initSet_store_self, wrap_of_lt (by omega) (by omega)]
  exact hevict ho

/-- Every set is as it should be after every trace. -/
theorem exists_served (hs : s ≤ 5) (hE : 1 ≤ E) (hsb : s + b ≤ 31) (trace : List TraceLine)
    (hn : (dataLines trace).length < 2 ^ 31 - 1) : ∃ sim, Served s E b trace sim := by
  -- by induction on the end of the trace, where `served_step` adds a round
  induction trace using List.reverseRecOn with
  | nil => exact ⟨Sim.start, served_start s E b⟩
  | append_singleton trace line ih =>
    have hle : (dataLines trace).length ≤ (dataLines (trace ++ [line])).length := by
      rw [dataLines_concat, List.length_append]
      exact Nat.le_add_right _ _
    obtain ⟨sim, h⟩ := ih (by omega)
    exact (served_step hs hE hsb h line hn).1

lemma dataLines_length_le {pre : List TraceLine} (hpre : pre <+: trace) :
    (dataLines pre).length ≤ (dataLines trace).length :=
  (hpre.sublist.filter _).length_le

end Traces

/-- **The lines of a set.** After every prefix of a trace each set has as many lines as it has
had misses, but at most `E`; their tags are distinct, their priorities are distinct and between
one and the counter, and the line used last has the counter for its priority. If the next
access evicts, the least priority is that of one line, which is written over. -/
theorem set_invariant {s E b : ℕ} (hs : s ≤ 5) (hE : 1 ≤ E) (hsb : s + b ≤ 31)
    {trace : List TraceLine} (hn : (dataLines trace).length < 2 ^ 31 - 1) {pre : List TraceLine}
    (hpre : pre <+: trace) :
    ∃ sim, simulate s E b pre = some sim ∧
      (∀ i < 2 ^ s, SetInv E (sim.lines i) (sim.initSet i) (missesIn s E b i Sim.start pre)
        (lastTag s b i pre)) ∧
      ∀ line, pre ++ [line] <+: trace → EvictsOne s E b sim line := by
  obtain ⟨sim, h⟩ := exists_served hs hE hsb pre ((dataLines_length_le hpre).trans_lt hn)
  refine ⟨sim, h.run, fun i _ => h.sets i, ?_⟩
  intro line hline
  exact (served_step hs hE hsb h line ((dataLines_length_le hline).trans_lt hn)).2

/-- A trace that fills a set of two lines and then evicts the one not used since. -/
def conflictTrace : List TraceLine := [⟨'L', 0x10⟩, ⟨'S', 0x110⟩, ⟨'M', 0x10⟩, ⟨'L', 0x210⟩]

theorem set_invariant_conflict :
    ∃ sim, simulate 4 2 4 (conflictTrace.take 3) = some sim ∧
      (∀ i < 2 ^ 4, SetInv 2 (sim.lines i) (sim.initSet i)
        (missesIn 4 2 4 i Sim.start (conflictTrace.take 3)) (lastTag 4 4 i (conflictTrace.take 3))) ∧
      ∀ line, conflictTrace.take 3 ++ [line] <+: conflictTrace → EvictsOne 4 2 4 sim line :=
  set_invariant (s := 4) (E := 2) (b := 4) (by decide) (by decide) (by decide) (by decide)
    (List.take_prefix 3 conflictTrace)

end Cachelab
end SystemsLabs
