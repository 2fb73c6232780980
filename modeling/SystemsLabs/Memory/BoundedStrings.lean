import Mathlib.Data.List.TakeWhile
import SystemsLabs.Memory.Pointers

/-!
# Strings read within bounds

The functions of `Pointers` one character after the other, where each access behind a bound fails.
Where the array has a NUL at the bound, all of them stop in time and give what the others give.
-/

namespace SystemsLabs
namespace Memory

section Functions

variable (array : List Char) (bound : ℕ)

/-- The character at `i`. -/
def loadWithin (i : ℕ) : Option Char := if i ≤ bound then array[i]? else none

/-- The array with another character at `i`. -/
def storeWithin (i : ℕ) (c : Char) : Option (List Char) :=
  if i ≤ bound then some (array.set i c) else none

/-- From `i` on, the first of `fuel` characters that passes the test. -/
def walk (stop : Char → Bool) : (fuel i : ℕ) → Option ℕ
  | 0, _ => none
  | fuel + 1, i => do
    let c ← loadWithin array bound i
    if stop c then some i else walk stop fuel (i + 1)

/-- `strspn(buf, accept)`, as the pointer behind the run. -/
def spanWithin (buf : ℕ) (accept : List Char) : Option ℕ :=
  walk array bound (fun c => c ∉ accept) (bound + 1) buf

/-- `strcspn(buf, reject)`, as the pointer behind the run. -/
def cspanWithin (buf : ℕ) (reject : List Char) : Option ℕ :=
  walk array bound (fun c => c ∈ reject ∨ c = '\x00') (bound + 1) buf

/-- `strchr(buf, q)`. -/
def chrWithin (buf : ℕ) (q : Char) : Option (Option ℕ) := do
  let i ← walk array bound (fun c => c = q ∨ c = '\x00') (bound + 1) buf
  let c ← loadWithin array bound i
  if c = q then some (some i) else some none

/-- `!strcmp(p, s)`. -/
def cmpWithin : (p : ℕ) → (s : List Char) → Option Bool
  | p, [] => (loadWithin array bound p).map fun c => c = '\x00'
  | p, x :: s => do
    let c ← loadWithin array bound p
    if c = x then cmpWithin (p + 1) s else some false

end Functions

variable {array accept reject s : List Char} {bound buf fuel i p : ℕ} {q c : Char}
  {stop : Char → Bool}

/-- A read within the bound succeeds. -/
lemma loadWithin_of_getElem? (h : array[i]? = some c) (hi : i ≤ bound) :
    loadWithin array bound i = some c := by
  rw [loadWithin, if_pos hi, h]

lemma drop_eq_cons (h : array[i]? = some c) : array.drop i = c :: array.drop (i + 1) := by
  obtain ⟨hlt, rfl⟩ := List.getElem?_eq_some_iff.1 h
  exact List.drop_eq_getElem_cons hlt

/-- No character in front of the first one that passes the test is behind the bound. -/
lemma walk_eq (hend : bound < array.length)
    (hrun : i + ((array.drop i).takeWhile fun c => !stop c).length ≤ bound)
    (hfuel : ((array.drop i).takeWhile fun c => !stop c).length < fuel) :
    walk array bound stop fuel i = some (i + ((array.drop i).takeWhile fun c => !stop c).length) := by
  induction fuel generalizing i with
  | zero => omega
  | succ fuel ih =>
    obtain ⟨c, hget⟩ : ∃ c, array[i]? = some c := ⟨_, List.getElem?_eq_getElem (by omega)⟩
    rw [walk, loadWithin_of_getElem? hget (by omega)]
    rw [drop_eq_cons hget] at hrun hfuel ⊢
    simp only [Option.bind_eq_bind, Option.bind_some]
    by_cases hstop : stop c = true
    · rw [if_pos hstop, List.takeWhile_cons_of_neg (by simp [hstop])]
      rfl
    · rw [List.takeWhile_cons_of_pos (by simp [hstop]), List.length_cons] at hrun hfuel ⊢
      rw [if_neg hstop, ih (by omega) (by omega)]
      congr 1
      omega

/-- A run ends before the NUL if it does not contain it. -/
lemma takeWhile_drop_le {p : Char → Bool} (hnul : array[bound]? = some '\x00') (hbuf : buf ≤ bound)
    (hp : p '\x00' = false) : buf + ((array.drop buf).takeWhile p).length ≤ bound := by
  have hlt : bound < array.length := (List.getElem?_eq_some_iff.1 hnul).1
  have hdrop : (array.drop buf)[bound - buf]? = some '\x00' := by
    rw [List.getElem?_drop, Nat.add_sub_cancel' hbuf, hnul]
  by_contra hlong
  have hmem : '\x00' ∈ (array.drop buf).takeWhile p := by
    obtain ⟨more, hmore⟩ := List.takeWhile_prefix p (l := array.drop buf)
    rw [← hmore, List.getElem?_append_left (by omega)] at hdrop
    exact List.mem_of_getElem? hdrop
  rw [List.mem_takeWhile_imp hmem] at hp
  cases hp

/-- A span ends at the NUL at the latest. -/
lemma strcspn_le (hnul : array[bound]? = some '\x00') (hbuf : buf ≤ bound) :
    buf + strcspn array buf reject ≤ bound :=
  takeWhile_drop_le hnul hbuf (by simp)

/-- A character that is found stands in front of the NUL. -/
lemma strchr_le (hnul : array[bound]? = some '\x00') (hbuf : buf ≤ bound)
    (hi : strchr array buf q = some i) : i ≤ bound := by
  have hle := takeWhile_drop_le (p := fun c => c ≠ '\x00') hnul hbuf (by simp)
  rw [strchr, Option.map_eq_some_iff] at hi
  obtain ⟨k, hk, rfl⟩ := hi
  have hlt := (List.findIdx?_eq_some_iff_getElem.1 hk).1
  rw [stringAt] at hlt
  omega

/-- Where the NUL stops the walk, it succeeds. -/
lemma walk_of_nul (hnul : array[bound]? = some '\x00') (hbuf : buf ≤ bound)
    (hstop : stop '\x00' = true) : walk array bound stop (bound + 1) buf =
      some (buf + ((array.drop buf).takeWhile fun c => !stop c).length) := by
  have hle := takeWhile_drop_le (p := fun c => !stop c) hnul hbuf (by simp [hstop])
  exact walk_eq (List.getElem?_eq_some_iff.1 hnul).1 hle (by omega)

/-- `strspn` reads no further than to the NUL. -/
lemma spanWithin_eq (hnul : array[bound]? = some '\x00') (hbuf : buf ≤ bound)
    (haccept : '\x00' ∉ accept) :
    spanWithin array bound buf accept = some (buf + strspn array buf accept) := by
  rw [spanWithin, walk_of_nul hnul hbuf (by simpa using haccept), strspn]
  simp

/-- `strcspn` reads no further than to the NUL. -/
lemma cspanWithin_eq (hnul : array[bound]? = some '\x00') (hbuf : buf ≤ bound) :
    cspanWithin array bound buf reject = some (buf + strcspn array buf reject) := by
  rw [cspanWithin, walk_of_nul hnul hbuf (by simp), strcspn]
  simp

/-- What stops the search of a character in a list that ends with NUL. -/
lemma findIdx?_takeWhile (hq : q ≠ '\x00') : ∀ l : List Char,
    (l.takeWhile fun c => c ≠ '\x00').findIdx? (fun c => c = q) =
      if l[(l.takeWhile fun c => !decide (c = q ∨ c = '\x00')).length]? = some q then
        some (l.takeWhile fun c => !decide (c = q ∨ c = '\x00')).length
      else none
  | [] => by simp
  | c :: l => by
    have ih := findIdx?_takeWhile hq l
    by_cases hc : c = '\x00'
    · rw [List.takeWhile_cons_of_neg (by simp [hc]), List.takeWhile_cons_of_neg (by simp [hc])]
      simp [hc, hq.symm]
    · by_cases hcq : c = q
      · rw [List.takeWhile_cons_of_pos (by simpa using hc),
          List.takeWhile_cons_of_neg (by simp [hcq])]
        simp [List.findIdx?_cons, hcq]
      · rw [List.takeWhile_cons_of_pos (by simpa using hc),
          List.takeWhile_cons_of_pos (by simp [hc, hcq]), List.findIdx?_cons, ih]
        simp only [hcq, decide_false, Bool.false_eq_true, if_false, List.length_cons,
          List.getElem?_cons_succ]
        split_ifs <;> rfl

/-- `strchr` reads no further than to the NUL. -/
lemma chrWithin_eq (hnul : array[bound]? = some '\x00') (hbuf : buf ≤ bound) (hq : q ≠ '\x00') :
    chrWithin array bound buf q = some (strchr array buf q) := by
  have hle := takeWhile_drop_le (p := fun c => !decide (c = q ∨ c = '\x00')) hnul hbuf (by simp)
  have hlt := (List.getElem?_eq_some_iff.1 hnul).1
  rw [chrWithin, walk_of_nul hnul hbuf (by simp), strchr, stringAt, findIdx?_takeWhile hq,
    List.getElem?_drop]
  generalize ((array.drop buf).takeWhile fun c => !decide (c = q ∨ c = '\x00')).length = n at hle
  obtain ⟨c, hget⟩ : ∃ c, array[buf + n]? = some c := ⟨_, List.getElem?_eq_getElem (by omega)⟩
  simp only [Option.bind_eq_bind, Option.bind_some, loadWithin_of_getElem? hget hle, hget,
    Option.some.injEq]
  split_ifs <;> rfl

lemma stringAt_nul (h : array[p]? = some '\x00') : stringAt array p = [] := by
  rw [stringAt, drop_eq_cons h, List.takeWhile_cons_of_neg (by simp)]

lemma stringAt_cons (h : array[p]? = some c) (hc : c ≠ '\x00') :
    stringAt array p = c :: stringAt array (p + 1) := by
  rw [stringAt, drop_eq_cons h, List.takeWhile_cons_of_pos (by simpa using hc), stringAt]

/-- `strcmp` reads no further than to the NUL. -/
lemma cmpWithin_eq (hnul : array[bound]? = some '\x00') (hp : p ≤ bound) (hs : '\x00' ∉ s) :
    cmpWithin array bound p s = some (decide (stringAt array p = s)) := by
  have hlt := (List.getElem?_eq_some_iff.1 hnul).1
  induction s generalizing p with
  | nil =>
    obtain ⟨c, hget⟩ : ∃ c, array[p]? = some c := ⟨_, List.getElem?_eq_getElem (by omega)⟩
    rw [cmpWithin, loadWithin_of_getElem? hget hp]
    by_cases hc : c = '\x00'
    · rw [stringAt_nul (by rw [hget, hc])]
      simp [hc]
    · rw [stringAt_cons hget hc]
      simp [hc]
  | cons x s ih =>
    obtain ⟨hx, hs⟩ := not_or.1 (mt List.mem_cons.2 hs)
    obtain ⟨c, hget⟩ : ∃ c, array[p]? = some c := ⟨_, List.getElem?_eq_getElem (by omega)⟩
    rw [cmpWithin, loadWithin_of_getElem? hget hp]
    simp only [Option.bind_eq_bind, Option.bind_some]
    by_cases hc : c = '\x00'
    · rw [stringAt_nul (by rw [hget, hc]), if_neg (by rw [hc]; exact hx)]
      simp
    · have hne : p ≠ bound := by
        rintro rfl
        rw [hget] at hnul
        exact hc (Option.some.inj hnul)
      rw [stringAt_cons hget hc]
      split_ifs with hcx
      · rw [ih (by omega) hs]
        simp [hcx]
      · simp [hcx]

end Memory
end SystemsLabs
