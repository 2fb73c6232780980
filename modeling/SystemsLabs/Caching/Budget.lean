import Mathlib.Data.List.Infix
import Mathlib.Tactic

/-!
# A recency list with a budget

A store keeps entries in recency order, most recently used first, and the sizes of its
entries add up to at most its capacity. Using an entry moves it to the front. A new entry goes
to the front, and as few as possible of the least recently used ones make room for it: what
stays is the longest prefix that fits in (`fit`).
-/

namespace SystemsLabs
namespace Caching

section Fit
variable {α : Type*} (size : α → ℕ)

/-- The sum of the sizes. -/
def total (l : List α) : ℕ := (l.map size).sum

/-- The longest prefix that fits into a budget. -/
def fit : ℕ → List α → List α
  | _, [] => []
  | budget, x :: l => if size x ≤ budget then x :: fit (budget - size x) l else []

variable {size} {budget : ℕ} {l q : List α} {x : α}

@[simp] lemma total_nil : total size [] = 0 := rfl

@[simp] lemma total_cons : total size (x :: l) = size x + total size l := by
  rw [total, List.map_cons, List.sum_cons, total]

@[simp] lemma total_append : total size (l ++ q) = total size l + total size q := by
  rw [total, List.map_append, List.sum_append, total, total]

/-- What fits is a front piece. -/
lemma fit_front : ∀ (budget : ℕ) (l : List α), fit size budget l <+: l
  | _, [] => List.prefix_rfl
  | budget, x :: l => by
    rw [fit]
    split_ifs
    · exact (List.prefix_cons_inj x).2 (fit_front _ l)
    · exact List.nil_prefix

/-- What fits stays within the budget. -/
lemma total_fit_le : total size (fit size budget l) ≤ budget := by
  induction l generalizing budget with
  | nil => exact Nat.zero_le _
  | cons x l ih =>
    rw [fit]
    split_ifs with hx
    · rw [total_cons]
      have := @ih (budget - size x)
      omega
    · exact Nat.zero_le _

/-- Every prefix that fits is part of the longest one. -/
lemma prefix_fit (hq : q <+: l) (hb : total size q ≤ budget) : q <+: fit size budget l := by
  induction l generalizing budget q with
  | nil => rwa [fit]
  | cons x l ih =>
    cases q with
    | nil => exact List.nil_prefix
    | cons y q =>
      obtain ⟨rfl, htail⟩ := List.cons_prefix_cons.1 hq
      rw [total_cons] at hb
      rw [fit, if_pos (by omega)]
      exact (List.prefix_cons_inj y).2 (ih htail (by omega))

/-- A list that fits stays as it is. -/
lemma fit_of_total_le (h : total size l ≤ budget) : fit size budget l = l :=
  (fit_front budget l).eq_of_length_le (prefix_fit List.prefix_rfl h).length_le

/-- A list that does not fit loses its last entry. -/
lemma fit_concat (h : budget < total size (l ++ [x])) :
    fit size budget (l ++ [x]) = fit size budget l := by
  induction l generalizing budget with
  | nil =>
    rw [total_append, total_nil, total_cons, total_nil] at h
    rw [List.nil_append, fit, fit, if_neg (by omega)]
  | cons y l ih =>
    rw [List.cons_append, total_cons] at h
    rw [List.cons_append, fit, fit]
    split_ifs
    · rw [ih (by omega)]
    · rfl

/-- Entries of the same sizes fit in the same way. -/
lemma fit_map {β : Type*} {size' : β → ℕ} {f : α → β} (h : ∀ x ∈ l, size' (f x) = size x) :
    (fit size budget l).map f = fit size' budget (l.map f) := by
  induction l generalizing budget with
  | nil => rfl
  | cons x l ih =>
    rw [List.map_cons, fit, fit, h x List.mem_cons_self]
    split_ifs
    · rw [List.map_cons, ih fun y hy => h y (List.mem_cons_of_mem x hy)]
    · rfl

end Fit

/-- The entries of a store, most recently used first. -/
@[ext] structure Store {α : Type*} (size : α → ℕ) (capacity : ℕ) where
  entries : List α
  fits : total size entries ≤ capacity

namespace Store

variable {α : Type*} {size : α → ℕ} {capacity : ℕ}

/-- A store that holds nothing yet. -/
def empty (size : α → ℕ) (capacity : ℕ) : Store size capacity := ⟨[], Nat.zero_le _⟩

/-- The first entry that passes a test goes to the front. -/
def toFront (p : α → Bool) (l : List α) : List α :=
  match l.find? p with
  | none => l
  | some x => x :: l.eraseP p

/-- Where nothing passes the test, nothing moves. -/
lemma toFront_of_not_mem {p : α → Bool} {l : List α} (h : ∀ x ∈ l, ¬ p x) : toFront p l = l := by
  rw [toFront, List.find?_eq_none.2 h]

/-- The test is passed first behind `l₁`. -/
lemma toFront_append {p : α → Bool} {l₁ l₂ : List α} {x : α} (h : ∀ y ∈ l₁, ¬ p y) (hx : p x) :
    toFront p (l₁ ++ x :: l₂) = x :: (l₁ ++ l₂) := by
  rw [toFront, List.find?_append, List.find?_eq_none.2 h, List.find?_cons_of_pos hx,
    Option.none_or, List.eraseP_append_right _ h, List.eraseP_cons_of_pos hx]

/-- Moving an element brings in no other one. -/
lemma toFront_subset (p : α → Bool) (l : List α) : toFront p l ⊆ l := by
  cases h : l.find? p with
  | none =>
    rw [toFront, h]
    exact List.Subset.refl l
  | some x =>
    rw [toFront, h]
    exact List.cons_subset.2 ⟨List.mem_of_find?_eq_some h, List.eraseP_subset⟩

/-- Moving an element changes no size. -/
lemma total_toFront (p : α → Bool) (l : List α) : total size (toFront p l) = total size l := by
  cases h : l.find? p with
  | none => rw [toFront, h]
  | some x =>
    obtain ⟨hx, l₁, l₂, rfl, hl₁⟩ := List.find?_eq_some_iff_append.1 h
    rw [toFront_append (fun y hy => by simpa using hl₁ y hy) hx]
    simp only [total_cons, total_append]
    omega

/-- The entry that passes a test is used. -/
def use (s : Store size capacity) (p : α → Bool) : Store size capacity where
  entries := toFront p s.entries
  fits := (total_toFront p s.entries).trans_le s.fits

/-- The entries that stay when a new one needs `n` of the capacity. -/
def kept (s : Store size capacity) (n : ℕ) : List α := fit size (capacity - n) s.entries

/-- A new entry comes, and the least recently used ones make room for it. -/
def add (s : Store size capacity) (x : α) (h : size x ≤ capacity) : Store size capacity where
  entries := x :: s.kept (size x)
  fits := by
    have hkept : total size (s.kept (size x)) ≤ capacity - size x := total_fit_le
    rw [total_cons]
    omega

@[simp] lemma entries_use (s : Store size capacity) (p : α → Bool) :
    (s.use p).entries = toFront p s.entries := rfl

@[simp] lemma entries_add (s : Store size capacity) (x : α) (h : size x ≤ capacity) :
    (s.add x h).entries = x :: s.kept (size x) := rfl

/-- What is kept was in the store. -/
lemma kept_subset (s : Store size capacity) (n : ℕ) : s.kept n ⊆ s.entries :=
  (fit_front _ _).subset

end Store

end Caching
end SystemsLabs
