import Mathlib.Tactic

/-!
# csim.c

The cache simulator. `int` values are integers that `wrap` brings back into range after an
arithmetic operation, `unsigned` values are bit vectors, and shift counts are taken modulo
32. The list of a set is the list of its lines from `cache[setIndex]` along `next`, and
`none` while that pointer has not been written. A run that reads such a pointer, indexes an
array out of its bounds or follows `NULL` goes wrong, which is `none` again.
-/

namespace SystemsLabs
namespace Cachelab

/-! ## int arithmetic -/

/-- The `int` that an arithmetic operation leaves. -/
def wrap (x : ℤ) : ℤ := x.bmod (2 ^ 32)

/-- The bits of a shift count that count. -/
def shiftCount (c : ℤ) : ℕ := (c % 32).toNat

/-- `1 << c`. -/
def oneShl (c : ℤ) : ℤ := wrap (2 ^ shiftCount c)

lemma wrap_of_lt {x : ℤ} (h0 : 0 ≤ x) (h : x < 2 ^ 31) : wrap x = x := by
  rw [wrap, Int.bmod_def, Int.emod_eq_of_lt h0 (by omega), if_pos (by omega)]

lemma wrap_succ {n : ℕ} (h : n + 1 < 2 ^ 31) : wrap (n + 1) = (n + 1 : ℕ) := by
  rw [wrap_of_lt (by omega) (by omega), Nat.cast_succ]

lemma shiftCount_of_lt {c : ℕ} (h : c < 32) : shiftCount c = c := by
  rw [shiftCount]
  omega

lemma oneShl_of_lt {c : ℕ} (h : c < 31) : oneShl c = (2 ^ c : ℕ) := by
  have hpow : (2 : ℤ) ^ c < 2 ^ 31 := pow_lt_pow_right₀ (by norm_num) h
  rw [oneShl, shiftCount_of_lt (by omega), wrap_of_lt (by positivity) hpow]
  push_cast
  rfl

/-- The low `c` bits, also for `c = 31`, where `1 << c` is negative. -/
lemma toNat_mask {c : ℤ} (k : ℕ) (hc : shiftCount c = k) (hk : k < 32) :
    (BitVec.ofInt 32 (wrap (oneShl c - 1))).toNat = 2 ^ k - 1 := by
  have hpow : 2 ^ k ≤ 2 ^ 31 := Nat.pow_le_pow_right (by norm_num) (by omega)
  have hpos : 1 ≤ 2 ^ k := Nat.one_le_two_pow
  have hcast : (2 : ℤ) ^ k - 1 = (2 ^ k - 1 : ℕ) := by
    push_cast [hpos]
    rfl
  rw [BitVec.toNat_ofInt, oneShl, hc, wrap, wrap, Int.bmod_sub_bmod]
  rw [Int.bmod_emod, hcast, Int.emod_eq_of_lt (by omega) (by omega), Int.toNat_natCast]

/-! ## Lines -/

/-- `struct line`, without `next`. -/
structure Line where
  tag : BitVec 32
  pri : ℤ
deriving DecidableEq

/-- `replaceInLine(start, pri, newpri, newtag)`: the first line of priority `pri`. -/
def replaceInLine (pri newpri : ℤ) (newtag : BitVec 32) : List Line → List Line
  | [] => []
  | temp :: rest =>
    if temp.pri = pri then { temp with pri := newpri, tag := newtag } :: rest
    else temp :: replaceInLine pri newpri newtag rest

/-- The search stops at the only line of the priority it looks for. -/
lemma replaceInLine_append {ls : List Line} {x : Line} (h : ∀ y ∈ ls, y.pri ≠ x.pri) (newpri : ℤ)
    (newtag : BitVec 32) (rest : List Line) :
    replaceInLine x.pri newpri newtag (ls ++ x :: rest) = ls ++ ⟨newtag, newpri⟩ :: rest := by
  induction ls with
  | nil => exact if_pos rfl
  | cons y ls ih =>
    rw [List.cons_append, replaceInLine, if_neg (h y List.mem_cons_self)]
    rw [ih fun z hz => h z (List.mem_cons_of_mem y hz), List.cons_append]

/-- `insertInLine(start, tag, pri)`: behind the last line, and there has to be one. -/
def insertInLine (tag : BitVec 32) (pri : ℤ) : List Line → Option (List Line)
  | [] => none
  | [last] => some [last, ⟨tag, pri⟩]
  | start :: next => (insertInLine tag pri next).map (start :: ·)

lemma insertInLine_of_ne_nil {ls : List Line} (h : ls ≠ []) (tag : BitVec 32) (pri : ℤ) :
    insertInLine tag pri ls = some (ls ++ [⟨tag, pri⟩]) := by
  induction ls with
  | nil => exact absurd rfl h
  | cons start next ih =>
    cases next with
    | nil => rfl
    | cons l ls =>
      rw [insertInLine, ih (List.cons_ne_nil l ls), Option.map_some]
      · rfl
      · exact List.cons_ne_nil l ls

/-! ## The simulation loop -/

/-- `hits`, `misses` and `evictions`. -/
structure Counts where
  hits : ℤ
  misses : ℤ
  evictions : ℤ
deriving DecidableEq

namespace Counts

/-- `hits++`. -/
def hit (n : Counts) : Counts := { n with hits := wrap (n.hits + 1) }

/-- `misses++`. -/
def miss (n : Counts) : Counts := { n with misses := wrap (n.misses + 1) }

/-- `evictions++`. -/
def evict (n : Counts) : Counts := { n with evictions := wrap (n.evictions + 1) }

/-- `if (id == 'M') hits++`. -/
def modify (id : Char) (n : Counts) : Counts := if id = 'M' then n.hit else n

end Counts

/-- What the walk over a set leaves: its lines and the locals `hit`, `count`, `minPri`. -/
structure Walk where
  lines : List Line
  hit : Bool
  count : ℤ
  minPri : ℤ

/-- The walk over a set, with `count` and `minPri` so far; a hit takes the priority `pri`. -/
def walk (E : ℤ) (tag : BitVec 32) (pri : ℤ) : List Line → ℤ → ℤ → Walk
  | [], count, minPri => ⟨[], false, count, minPri⟩
  | temp :: next, count, minPri =>
    if count < E then
      if temp.tag = tag then ⟨{ temp with pri := pri } :: next, true, count, minPri⟩
      else
        let w := walk E tag pri next (wrap (count + 1))
          (if temp.pri < minPri then temp.pri else minPri)
        { w with lines := temp :: w.lines }
    else ⟨temp :: next, false, count, minPri⟩

/-- The walk stops at the line that holds the tag. -/
lemma walk_append {E : ℤ} {tag : BitVec 32} {ls : List Line} (h : ∀ y ∈ ls, y.tag ≠ tag)
    {x : Line} (hx : x.tag = tag) (count : ℤ) (h0 : 0 ≤ count) (hE : count + ls.length < E)
    (hlt : count + ls.length < 2 ^ 31) (pri minPri : ℤ) (rest : List Line) :
    (walk E tag pri (ls ++ x :: rest) count minPri).hit = true ∧
      (walk E tag pri (ls ++ x :: rest) count minPri).lines
        = ls ++ { x with pri := pri } :: rest := by
  induction ls generalizing count minPri with
  | nil =>
    rw [List.nil_append, walk, if_pos (by simpa using hE), if_pos hx]
    exact ⟨rfl, rfl⟩
  | cons y ls ih =>
    rw [List.length_cons] at hE hlt
    rw [List.cons_append, walk, if_pos (by omega), if_neg (h y List.mem_cons_self),
      wrap_of_lt (by omega) (by omega)]
    obtain ⟨hhit, hlines⟩ := ih (fun z hz => h z (List.mem_cons_of_mem y hz))
      (count + 1) (by omega) (by push_cast at hE; omega) (by push_cast at hlt; omega)
      (if y.pri < minPri then y.pri else minPri)
    exact ⟨hhit, congrArg (y :: ·) hlines⟩

/-- What the walk finds out about a set that does not hold the tag. -/
structure Walk.Missed (w : Walk) (ls : List Line) (count minPri : ℤ) : Prop where
  hit : w.hit = false
  lines : w.lines = ls
  count : w.count = count + ls.length
  le : w.minPri ≤ minPri ∧ ∀ x ∈ ls, w.minPri ≤ x.pri
  attained : w.minPri = minPri ∨ ∃ x ∈ ls, x.pri = w.minPri

lemma walk_missed {E : ℤ} {tag : BitVec 32} {ls : List Line} (h : ∀ y ∈ ls, y.tag ≠ tag)
    (count : ℤ) (h0 : 0 ≤ count) (hE : count + ls.length ≤ E) (hlt : count + ls.length < 2 ^ 31)
    (pri minPri : ℤ) : (walk E tag pri ls count minPri).Missed ls count minPri := by
  induction ls generalizing count minPri with
  | nil => exact ⟨rfl, rfl, by simp [walk], ⟨le_rfl, by simp⟩, Or.inl rfl⟩
  | cons y ls ih =>
    rw [List.length_cons] at hE hlt
    push_cast at hE hlt
    rw [walk, if_pos (by omega), if_neg (h y List.mem_cons_self),
      wrap_of_lt (by omega) (by omega)]
    -- the rest of the walk starts with the smaller of the two priorities
    have hw := ih (fun z hz => h z (List.mem_cons_of_mem y hz)) (count + 1)
      (by omega) (by omega) (by omega) (if y.pri < minPri then y.pri else minPri)
    set m := if y.pri < minPri then y.pri else minPri with hm
    have hmy : m ≤ y.pri ∧ m ≤ minPri ∧ (m = y.pri ∨ m = minPri) := by
      rw [hm]
      split_ifs <;> omega
    constructor
    · exact hw.hit
    · exact congrArg (y :: ·) hw.lines
    · rw [List.length_cons]
      have := hw.count
      push_cast
      omega
    · refine ⟨hw.le.1.trans hmy.2.1, ?_⟩
      intro x hx
      rcases List.mem_cons.1 hx with rfl | hx
      · exact hw.le.1.trans hmy.1
      · exact hw.le.2 x hx
    · rcases hw.attained with hatt | ⟨x, hx, hatt⟩
      · rcases hmy.2.2 with hy | hy
        · exact Or.inr ⟨y, List.mem_cons_self, (hatt.trans hy).symm⟩
        · exact Or.inl (hatt.trans hy)
      · exact Or.inr ⟨x, List.mem_cons_of_mem y hx, hatt⟩

/-- The loop body on the selected set: `lines` is `cache[setIndex]` and `initSet` is
`initSet[setIndex]`, and both are returned as it leaves them. -/
def access (E : ℤ) (id : Char) (tag : BitVec 32) (lines : Option (List Line)) (initSet : ℤ)
    (n : Counts) : Option (List Line × ℤ × Counts) :=
  if initSet = 0 then
    -- Case 1: Set is empty
    some ([⟨tag, wrap (initSet + 1)⟩], wrap (initSet + 1), n.miss.modify id)
  else
    -- Case 2: Set is not empty; every branch that takes a priority takes `++initSet`
    lines.bind fun lines =>
      let w := walk E tag (wrap (initSet + 1)) lines 0 initSet
      if w.hit then some (w.lines, wrap (initSet + 1), n.hit.modify id)
      else if w.count < E then
        (insertInLine tag (wrap (initSet + 1)) w.lines).map fun lines =>
          (lines, wrap (initSet + 1), n.miss.modify id)
      else if w.count = E then
        some (replaceInLine w.minPri (wrap (initSet + 1)) tag w.lines, wrap (initSet + 1),
          n.miss.evict.modify id)
      else some (w.lines, initSet, n.modify id)

/-- A line of the trace as `fscanf` reads it; its size is read and not used. -/
structure TraceLine where
  id : Char
  addr : BitVec 32

/-- The variables that the loop carries. -/
structure Sim where
  cache : ℕ → Option (List Line)
  initSet : ℕ → ℤ
  counts : Counts

/-- Before the first line: `cache` is not initialised, the static `initSet` is zero. -/
def Sim.start : Sim := ⟨fun _ => none, fun _ => 0, ⟨0, 0, 0⟩⟩

/-- The stores of a round to `cache[i]`, `initSet[i]` and the counts. -/
def Sim.store (sim : Sim) (i : ℕ) (lines : List Line) (initSet : ℤ) (n : Counts) : Sim where
  cache := Function.update sim.cache i (some lines)
  initSet := Function.update sim.initSet i initSet
  counts := n

section Store

variable (sim : Sim) (lines : List Line) (k : ℤ) (n : Counts) {i j : ℕ}

lemma Sim.cache_store_self : (sim.store i lines k n).cache i = some lines :=
  Function.update_self ..

lemma Sim.cache_store_of_ne (h : j ≠ i) : (sim.store i lines k n).cache j = sim.cache j :=
  Function.update_of_ne h ..

lemma Sim.initSet_store_self : (sim.store i lines k n).initSet i = k :=
  Function.update_self ..

lemma Sim.initSet_store_of_ne (h : j ≠ i) : (sim.store i lines k n).initSet j = sim.initSet j :=
  Function.update_of_ne h ..

end Store

/-- `(S - 1) & (addr >> b)`. -/
def setIndex (s b : ℤ) (addr : BitVec 32) : ℕ :=
  (BitVec.ofInt 32 (wrap (oneShl s - 1)) &&& (addr >>> shiftCount b)).toNat

/-- `((1 << (64 - (s + b))) - 1) & (addr >> (s + b))`. -/
def tagOf (s b : ℤ) (addr : BitVec 32) : BitVec 32 :=
  BitVec.ofInt 32 (wrap (oneShl (64 - (s + b)) - 1)) &&& (addr >>> shiftCount (s + b))

/-- A set index is made of the `s` bits above the block offset. -/
lemma setIndex_eq {s b : ℕ} (hs : s < 32) (hb : b < 32) (addr : BitVec 32) :
    setIndex s b addr = addr.toNat / 2 ^ b % 2 ^ s := by
  rw [setIndex, BitVec.toNat_and, toNat_mask s (shiftCount_of_lt hs) hs, shiftCount_of_lt hb,
    BitVec.toNat_ushiftRight, Nat.shiftRight_eq_div_pow, Nat.and_comm,
    Nat.and_two_pow_sub_one_eq_mod]

/-- A tag is made of all bits above those of the set index. -/
lemma toNat_tagOf {s b : ℕ} (h1 : 1 ≤ s + b) (h : s + b < 32) (addr : BitVec 32) :
    (tagOf s b addr).toNat = addr.toNat / 2 ^ (s + b) := by
  have hc : shiftCount (64 - ((s : ℤ) + b)) = 32 - (s + b) := by
    rw [shiftCount]
    omega
  have hsb : shiftCount ((s : ℤ) + b) = s + b := by
    exact_mod_cast shiftCount_of_lt h
  -- the mask keeps as many bits as the shift has left
  have hlt : addr.toNat / 2 ^ (s + b) < 2 ^ (32 - (s + b)) := by
    rw [Nat.div_lt_iff_lt_mul (by positivity), ← pow_add, Nat.sub_add_cancel h.le]
    exact addr.isLt
  rw [tagOf, BitVec.toNat_and, toNat_mask _ hc (by omega), hsb, BitVec.toNat_ushiftRight,
    Nat.shiftRight_eq_div_pow, Nat.and_comm, Nat.and_two_pow_sub_one_eq_mod, Nat.mod_eq_of_lt hlt]

/-- One round of the loop. `initSet` has 32 entries and `cache` has `S`. -/
def step (s E b : ℤ) (sim : Sim) (line : TraceLine) : Option Sim :=
  if line.id = 'I' then some sim
  else
    let i := setIndex s b line.addr
    if i < 32 ∧ i < oneShl s then
      (access E line.id (tagOf s b line.addr) (sim.cache i) (sim.initSet i) sim.counts).map
        fun r => sim.store i r.1 r.2.1 r.2.2
    else none

/-- The loop over the lines of a trace. -/
def simulate (s E b : ℤ) (trace : List TraceLine) : Option Sim :=
  trace.foldlM (step s E b) Sim.start

/-! ## main -/

/-- An option as `getopt` reports it, a number after `atoi`. -/
inductive Opt
  | s (n : ℤ)
  | E (n : ℤ)
  | b (n : ℤ)
  | t (name : String)
  | v
  | h
  | unknown

/-- The locals that the options set; `t` is not initialised. -/
structure Args where
  s : ℤ := -1
  E : ℤ := -1
  b : ℤ := -1
  t : Option String := none

/-- The switch in the option loop. -/
def Args.set (a : Args) : Opt → Args
  | .s n => { a with s := n }
  | .E n => { a with E := n }
  | .b n => { a with b := n }
  | .t name => { a with t := some name }
  | .v | .h | .unknown => a

/-- The option loop. -/
def Args.parse (options : List Opt) : Args := options.foldl Args.set {}

/-- How a run of the program ends. -/
inductive Exit
  | message (text : String)
  | printSummary (hits misses evictions : ℤ)
deriving DecidableEq

/-- `main`, where `fopen` gives the lines of a trace file that can be opened. -/
def main (fopen : String → Option (List TraceLine)) (options : List Opt) : Option Exit :=
  let a := Args.parse options
  if a.s < 0 ∨ a.E < 0 ∨ a.b < 0 then
    some (.message "Invalid inputs. Please try with valid inputs\n")
  else
    a.t.bind fun t =>
      match fopen t with
      | none =>
        some (.message
          "Cannot open file. Please check if the filename entered is correct.\n")
      | some trace =>
        -- an array of `S` pointers is declared first
        if oneShl a.s ≤ 0 then none
        else
          (simulate a.s a.E a.b trace).map fun sim =>
            .printSummary sim.counts.hits sim.counts.misses sim.counts.evictions

/-- What `main` prints after a run. -/
lemma main_of_simulate {s E b : ℕ} (hs : s ≤ 5) {fopen : String → Option (List TraceLine)}
    {options : List Opt} {t : String} {trace : List TraceLine} {sim : Sim}
    (hargs : Args.parse options = ⟨s, E, b, some t⟩) (hopen : fopen t = some trace)
    (hsim : simulate s E b trace = some sim) :
    main fopen options =
      some (.printSummary sim.counts.hits sim.counts.misses sim.counts.evictions) := by
  have hS : ¬ oneShl s ≤ 0 := by
    rw [oneShl_of_lt (by omega)]
    have := Nat.two_pow_pos s
    omega
  rw [main, hargs]
  dsimp only
  rw [if_neg (by omega), Option.bind_some, hopen]
  dsimp only
  rw [if_neg hS, hsim, Option.map_some]

end Cachelab
end SystemsLabs
