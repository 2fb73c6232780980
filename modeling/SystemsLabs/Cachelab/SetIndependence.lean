import SystemsLabs.Cachelab.SetLines
import SystemsLabs.Runs.Reordering

/-!
# Sets do not share anything

A round of the simulator reads and writes one set, and all it does to the counts is to raise
some of them. So two rounds on different sets may change places, and the outcome of a trace
depends on what it does to each set only.
-/

namespace SystemsLabs
namespace Cachelab

open Runs

/-- What a round can do to the counts. -/
inductive Bumps : (Counts → Counts) → Prop
  | refl : Bumps fun n => n
  | hit {f} (h : Bumps f) : Bumps fun n => (f n).hit
  | miss {f} (h : Bumps f) : Bumps fun n => (f n).miss
  | evict {f} (h : Bumps f) : Bumps fun n => (f n).evict

namespace Bumps

variable {f g : Counts → Counts}

lemma modify (h : Bumps f) (id : Char) : Bumps fun n => (f n).modify id := by
  unfold Counts.modify
  split_ifs
  · exact h.hit
  · exact h

/-- What commutes with raising each count commutes with raising some of them. -/
lemma commute_of {c : Counts → Counts} (h : Bumps f) (hhit : Function.Commute c Counts.hit)
    (hmiss : Function.Commute c Counts.miss) (hevict : Function.Commute c Counts.evict) :
    Function.Commute f c := by
  induction h with
  | refl => exact fun _ => rfl
  | hit _ ih => exact fun n => (congrArg Counts.hit (ih n)).trans (hhit _).symm
  | miss _ ih => exact fun n => (congrArg Counts.miss (ih n)).trans (hmiss _).symm
  | evict _ ih => exact fun n => (congrArg Counts.evict (ih n)).trans (hevict _).symm

/-- Raising some counts and raising others commute. -/
lemma commute (hf : Bumps f) (hg : Bumps g) : Function.Commute f g := by
  apply hf.commute_of
  · exact hg.commute_of (fun _ => rfl) (fun _ => rfl) fun _ => rfl
  · exact hg.commute_of (fun _ => rfl) (fun _ => rfl) fun _ => rfl
  · exact hg.commute_of (fun _ => rfl) (fun _ => rfl) fun _ => rfl

end Bumps

/-- The loop body as what it does to the set and what it does to the counts. -/
lemma access_eq (E : ℤ) (id : Char) (tag : BitVec 32) (cache : Option (List Line)) (k : ℤ) :
    ∃ (r : Option (List Line × ℤ)) (f : Counts → Counts), Bumps f ∧
      ∀ n, access E id tag cache k n = r.map fun p => (p.1, p.2, f n) := by
  have hrefl := Bumps.refl
  by_cases hk : k = 0
  · exact ⟨some ([⟨tag, wrap (k + 1)⟩], wrap (k + 1)), _, hrefl.miss.modify id,
      fun _ => if_pos hk⟩
  cases cache with
  | none => exact ⟨none, _, hrefl, fun _ => if_neg hk⟩
  | some lines =>
    simp only [access, if_neg hk, Option.bind_some]
    set w := walk E tag (wrap (k + 1)) lines 0 k
    by_cases hhit : w.hit = true
    · exact ⟨some (w.lines, wrap (k + 1)), _, hrefl.hit.modify id, fun _ => if_pos hhit⟩
    by_cases hroom : w.count < E
    · refine ⟨(insertInLine tag (wrap (k + 1)) w.lines).map fun lines => (lines, wrap (k + 1)), _,
        hrefl.miss.modify id, fun n => ?_⟩
      rw [if_neg hhit, if_pos hroom, Option.map_map]
      rfl
    -- neither fuller nor emptier than `E`: the last branch, which the invariant rules out
    by_cases hfull : w.count = E
    · refine ⟨some (replaceInLine w.minPri (wrap (k + 1)) tag w.lines, wrap (k + 1)), _,
        hrefl.miss.evict.modify id, fun n => ?_⟩
      rw [if_neg hhit, if_neg hroom, if_pos hfull]
      rfl
    · refine ⟨some (w.lines, k), _, hrefl.modify id, fun n => ?_⟩
      rw [if_neg hhit, if_neg hroom, if_neg hfull]
      rfl

/-- A round as what it does to its set, which depends on nothing but the set, and what it does to
the counts. -/
lemma step_eq (s E b : ℤ) {line : TraceLine} (hI : line.id ≠ 'I') :
    ∃ (set : Option (List Line) → ℤ → Option (List Line × ℤ))
      (count : Option (List Line) → ℤ → Counts → Counts), (∀ cache k, Bumps (count cache k)) ∧
      ∀ sim, step s E b sim line =
        (set (sim.cache (setIndex s b line.addr)) (sim.initSet (setIndex s b line.addr))).map
          fun p => sim.store (setIndex s b line.addr) p.1 p.2
            (count (sim.cache (setIndex s b line.addr)) (sim.initSet (setIndex s b line.addr))
              sim.counts) := by
  by_cases hbound : setIndex s b line.addr < 32 ∧ (setIndex s b line.addr : ℤ) < oneShl s
  · choose r f hf haccess using access_eq E line.id (tagOf s b line.addr)
    refine ⟨r, f, hf, fun sim => ?_⟩
    rw [step, if_neg hI]
    dsimp only
    rw [if_pos hbound, haccess, Option.map_map]
    rfl
  · refine ⟨fun _ _ => none, fun _ _ n => n, fun _ _ => .refl, fun sim => ?_⟩
    rw [step, if_neg hI]
    dsimp only
    rw [if_neg hbound]
    rfl

/-- Stores to different sets may change places. -/
lemma Sim.store_comm (sim : Sim) {i j : ℕ} (h : i ≠ j) (lines lines' : List Line) (k k' : ℤ)
    (n n' m : Counts) :
    (sim.store i lines k n).store j lines' k' m = (sim.store j lines' k' n').store i lines k m := by
  rw [store, store, store, store]
  dsimp only
  rw [Function.update_comm h, Function.update_comm h]

/-- Rounds on different sets may change places. -/
theorem step_independent (s E b : ℤ) :
    Independent (step s E b) fun line => setIndex s b line.addr := by
  intro sim line line' hne
  by_cases hI : line.id = 'I'
  · have hskip : ∀ t, step s E b t line = some t := fun t => if_pos hI
    simp only [hskip, Option.bind_some, Option.bind_fun_some]
  by_cases hI' : line'.id = 'I'
  · have hskip : ∀ t, step s E b t line' = some t := fun t => if_pos hI'
    simp only [hskip, Option.bind_some, Option.bind_fun_some]
  obtain ⟨set, count, hcount, hstep⟩ := step_eq s E b hI
  obtain ⟨set', count', hcount', hstep'⟩ := step_eq s E b hI'
  dsimp only at hne
  generalize setIndex s b line.addr = i at hne hstep
  generalize setIndex s b line'.addr = j at hne hstep'
  -- neither round changes what the other one reads
  have hleft : ∀ lines k n, step s E b (sim.store i lines k n) line' =
      (set' (sim.cache j) (sim.initSet j)).map fun q =>
        (sim.store i lines k n).store j q.1 q.2 (count' (sim.cache j) (sim.initSet j) n) := by
    intro lines k n
    rw [hstep', Sim.cache_store_of_ne _ _ _ _ hne.symm, Sim.initSet_store_of_ne _ _ _ _ hne.symm]
    rfl
  have hright : ∀ lines k n, step s E b (sim.store j lines k n) line =
      (set (sim.cache i) (sim.initSet i)).map fun p =>
        (sim.store j lines k n).store i p.1 p.2 (count (sim.cache i) (sim.initSet i) n) := by
    intro lines k n
    rw [hstep, Sim.cache_store_of_ne _ _ _ _ hne, Sim.initSet_store_of_ne _ _ _ _ hne]
    rfl
  rw [hstep sim, hstep' sim, Option.bind_map, Option.bind_map]
  simp only [Function.comp_def, hleft, hright]
  -- a round that goes wrong goes wrong second, too
  cases set (sim.cache i) (sim.initSet i) with
  | none => simp only [Option.bind_none, Option.map_none, Option.bind_fun_none]
  | some p =>
    cases set' (sim.cache j) (sim.initSet j) with
    | none => simp only [Option.bind_some, Option.map_none, Option.bind_none]
    | some q =>
      have hcounts := (hcount (sim.cache i) (sim.initSet i)).commute
        (hcount' (sim.cache j) (sim.initSet j)) sim.counts
      simp only [Option.bind_some, Option.map_some]
      rw [hcounts, Sim.store_comm sim hne]

/-- A run only depends on what the trace does to each set. -/
theorem simulate_eq (s E b : ℤ) {trace trace' : List TraceLine}
    (h : ∀ i, setAccesses s b i trace = setAccesses s b i trace') :
    simulate s E b trace = simulate s E b trace' := by
  have hskip : ∀ sim (line : TraceLine), decide (line.id ≠ 'I') = false →
      step s E b sim line = some sim := by
    intro sim line hI
    exact if_pos (by simpa using hI)
  calc simulate s E b trace
      = after (step s E b) Sim.start (dataLines trace) := (after_filter _ hskip trace _).symm
    _ = after (step s E b) Sim.start (dataLines trace') := (step_independent s E b).after_eq h _
    _ = simulate s E b trace' := after_filter _ hskip trace' _

/-- **Sets are independent.** Two traces with the same accesses to every set, in the same order
for each set but in any order otherwise, lead to the same lines, tags, priorities and counts,
and the program prints the same for them. -/
theorem sets_independent {s E b : ℕ} (hs : s ≤ 5) (hE : 1 ≤ E) (hsb : s + b ≤ 31)
    {trace trace' : List TraceLine} (hn : (dataLines trace).length < 2 ^ 31 - 1)
    (h : ∀ i, setAccesses s b i trace = setAccesses s b i trace') :
    ∃ sim, simulate s E b trace = some sim ∧ simulate s E b trace' = some sim ∧
      ∀ fopen options t, Args.parse options = ⟨s, E, b, some t⟩ →
        fopen t = some trace ∨ fopen t = some trace' →
          main fopen options =
            some (.printSummary sim.counts.hits sim.counts.misses sim.counts.evictions) := by
  obtain ⟨sim, hserved⟩ := exists_served hs hE hsb trace hn
  have hsim := hserved.run
  have hsim' := (simulate_eq s E b h).symm.trans hsim
  refine ⟨sim, hsim, hsim', ?_⟩
  intro fopen options t hargs hopen
  rcases hopen with hopen | hopen
  · exact main_of_simulate hs hargs hopen hsim
  · exact main_of_simulate hs hargs hopen hsim'

/-- The trace of the conflict with an access to another set before or within it. -/
theorem sets_independent_conflict :
    ∃ sim, simulate 4 2 4 (⟨'M', 0x20⟩ :: conflictTrace) = some sim ∧
      simulate 4 2 4 (⟨'L', 0x10⟩ :: ⟨'M', 0x20⟩ :: conflictTrace.tail) = some sim ∧
      ∀ fopen options t, Args.parse options = ⟨4, 2, 4, some t⟩ →
        fopen t = some (⟨'M', 0x20⟩ :: conflictTrace) ∨
          fopen t = some (⟨'L', 0x10⟩ :: ⟨'M', 0x20⟩ :: conflictTrace.tail) →
        main fopen options =
          some (.printSummary sim.counts.hits sim.counts.misses sim.counts.evictions) := by
  refine sets_independent (s := 4) (E := 2) (b := 4) (by decide) (by decide) (by decide)
    (by decide) ?_
  intro i
  have h1 : setIndex 4 4 16#32 = 1 := by decide
  have h2 : setIndex 4 4 32#32 = 2 := by decide
  rcases eq_or_ne i 2 with rfl | hi
  · simp [setAccesses, dataLines, conflictTrace, h1, h2]
  · simp [setAccesses, dataLines, conflictTrace, List.filter_cons, h2, hi.symm]

end Cachelab
end SystemsLabs
