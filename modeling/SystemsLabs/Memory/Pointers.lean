import Mathlib.Tactic

/-!
# Pointers into an array of characters

A pointer is an index, and the string that it points to ends before the first NUL. The functions
look for a character, or skip a run of characters, from a pointer on. The lemmas say what they
find where the array is known from the pointer on, whatever stands in front.
-/

namespace SystemsLabs
namespace Memory

/-- The string that a pointer points to. -/
def stringAt (array : List Char) (p : ℕ) : List Char := (array.drop p).takeWhile (· ≠ '\x00')

/-- `strspn(buf, accept)`, where `accept` has no NUL. -/
def strspn (array : List Char) (buf : ℕ) (accept : List Char) : ℕ :=
  ((array.drop buf).takeWhile fun c => c ∈ accept).length

/-- `strcspn(buf, reject)`. -/
def strcspn (array : List Char) (buf : ℕ) (reject : List Char) : ℕ :=
  ((array.drop buf).takeWhile fun c => c ∉ reject ∧ c ≠ '\x00').length

/-- `strchr(buf, c)` for another character than NUL. -/
def strchr (array : List Char) (buf : ℕ) (c : Char) : Option ℕ :=
  ((stringAt array buf).findIdx? (· = c)).map (buf + ·)

/-- The string `s` begins at `p`, and its NUL is part of `array`. -/
def Ends (array : List Char) (p : ℕ) (s : List Char) : Prop :=
  ∃ pre post, array = pre ++ (s ++ '\x00' :: post) ∧ pre.length = p ∧ '\x00' ∉ s

variable {s d t w accept reject array : List Char} {p : ℕ} {q : Char}

/-- The run of accepted characters is skipped. -/
lemma strspn_append (hw : ∀ c ∈ w, c ∈ accept) (htail : ∀ c ∈ t.head?, c ∉ accept) :
    strspn (d ++ (w ++ t)) d.length accept = w.length := by
  have htake : t.takeWhile (fun c => c ∈ accept) = [] := by
    cases t with
    | nil => rfl
    | cons c t => exact List.takeWhile_cons_of_neg (by simpa using htail c rfl)
  have haccept : ∀ c ∈ w, decide (c ∈ accept) = true := fun c hc => decide_eq_true (hw c hc)
  rw [strspn, List.drop_left, List.takeWhile_append_of_pos haccept, htake, List.append_nil]

/-- The first rejected character is found. -/
lemma strcspn_append (hs : '\x00' ∉ s) (hreject : ∀ c ∈ s, c ∉ reject)
    (htail : ∀ c ∈ t.head?, c ∈ reject ∨ c = '\x00') :
    strcspn (d ++ (s ++ t)) d.length reject = s.length := by
  have hin : ∀ c ∈ s, decide (c ∉ reject ∧ c ≠ '\x00') = true := by
    intro c hc
    rw [decide_eq_true_iff]
    exact ⟨hreject c hc, ne_of_mem_of_not_mem hc hs⟩
  have htake : t.takeWhile (fun c => c ∉ reject ∧ c ≠ '\x00') = [] := by
    cases t with
    | nil => rfl
    | cons c t =>
      apply List.takeWhile_cons_of_neg
      rw [decide_eq_true_iff, not_and_or, not_not, not_not]
      exact htail c rfl
  rw [strcspn, List.drop_left, List.takeWhile_append_of_pos hin, htake, List.append_nil]

/-- What has no NUL is part of the string. -/
lemma stringAt_append_of_noNul (hs : '\x00' ∉ s) (t : List Char) :
    stringAt (d ++ (s ++ t)) d.length = s ++ stringAt t 0 := by
  have hne : ∀ c ∈ s, decide (c ≠ '\x00') = true := fun c hc =>
    decide_eq_true (ne_of_mem_of_not_mem hc hs)
  rw [stringAt, List.drop_left, List.takeWhile_append_of_pos hne]
  rfl

lemma stringAt_append (hs : '\x00' ∉ s) : stringAt (d ++ (s ++ '\x00' :: t)) d.length = s := by
  rw [stringAt_append_of_noNul hs, stringAt, List.drop_zero, List.takeWhile_cons_of_neg (by simp),
    List.append_nil]

lemma findIdx?_eq_none (h : q ∉ s) : s.findIdx? (fun c => decide (c = q)) = none := by
  rw [List.findIdx?_eq_none_iff]
  intro c hc
  exact decide_eq_false (ne_of_mem_of_not_mem hc h)

/-- The first of the characters is found. -/
lemma strchr_append (hs : '\x00' ∉ s) (hq : q ∉ s) (hnul : q ≠ '\x00') :
    strchr (d ++ (s ++ q :: t)) d.length q = some (d.length + s.length) := by
  have htail : stringAt (q :: t) 0 = q :: stringAt t 0 :=
    List.takeWhile_cons_of_pos (decide_eq_true hnul)
  rw [strchr, stringAt_append_of_noNul hs, htail, List.findIdx?_append, findIdx?_eq_none hq,
    List.findIdx?_cons]
  simp

/-- A character that the string does not have. -/
lemma strchr_none (hs : '\x00' ∉ s) (hq : q ∉ s) :
    strchr (d ++ (s ++ '\x00' :: t)) d.length q = none := by
  rw [strchr, stringAt_append hs, findIdx?_eq_none hq, Option.map_none]

lemma Ends.append (h : Ends array p s) (more : List Char) : Ends (array ++ more) p s := by
  obtain ⟨pre, post, rfl, hp, hs⟩ := h
  exact ⟨pre, post ++ more, by simp, hp, hs⟩

lemma Ends.stringAt_eq (h : Ends array p s) : stringAt array p = s := by
  obtain ⟨pre, post, rfl, rfl, hs⟩ := h
  exact stringAt_append hs

/-- The first character of a string. -/
lemma Ends.getD_eq (h : Ends array p s) : array.getD p '\x00' = s.head?.getD '\x00' := by
  obtain ⟨pre, post, rfl, rfl, -⟩ := h
  cases s <;> simp

end Memory
end SystemsLabs
