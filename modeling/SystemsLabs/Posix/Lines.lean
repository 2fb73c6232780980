import Mathlib.Data.List.Basic
import Mathlib.Tactic

/-!
# Reading lines of bounded length

`fgets(s, n, stream)` reads up to and with the next newline, but at most `n - 1` elements. It
learns that the stream has ended only when it wants more than there is.
-/

namespace SystemsLabs
namespace Posix

variable {α : Type*} [DecidableEq α] (newline : α)

/-- What `fgets` has read, what is left of the stream, and whether it has met the end. -/
structure Got (α : Type*) where
  line : List α
  rest : List α
  atEnd : Bool

/-- At most `k` elements of the stream, up to and with a newline. -/
def getLine : (k : ℕ) → List α → Got α
  | 0, input => ⟨[], input, false⟩
  | _ + 1, [] => ⟨[], [], true⟩
  | k + 1, c :: input =>
    if c = newline then ⟨[c], input, false⟩
    else
      let got := getLine k input
      { got with line := c :: got.line }

/-- `fgets(s, n, stream)`; it returns `NULL` where it meets the end and has read nothing. -/
def fgets (n : ℕ) (input : List α) : Got α := getLine newline (n - 1) input

variable {newline} {k : ℕ} {c : α} {line input rest : List α}

lemma getLine_cons_of_ne (hc : c ≠ newline) : getLine newline (k + 1) (c :: input) =
    { getLine newline k input with line := c :: (getLine newline k input).line } := by
  rw [getLine, if_neg hc]

/-- A line is read up to what stands in front of the newline. -/
lemma getLine_append (hline : newline ∉ line) : getLine newline (line.length + k) (line ++ rest) =
    { getLine newline k rest with line := line ++ (getLine newline k rest).line } := by
  induction line with
  | nil => simp
  | cons c line ih =>
    have hc : c ≠ newline := by
      rintro rfl
      exact hline List.mem_cons_self
    have hlen : (c :: line).length + k = line.length + k + 1 := by
      rw [List.length_cons]
      omega
    rw [hlen, List.cons_append, getLine_cons_of_ne hc,
      ih fun h => hline (List.mem_cons_of_mem c h), List.cons_append]

/-- A line that fits is read with its newline. -/
lemma getLine_line (hline : newline ∉ line) (hk : line.length < k) :
    getLine newline k (line ++ newline :: rest) = ⟨line ++ [newline], rest, false⟩ := by
  obtain ⟨j, rfl⟩ : ∃ j, k = line.length + (j + 1) := ⟨k - line.length - 1, by omega⟩
  rw [getLine_append hline, getLine, if_pos rfl]

/-- The rest of the stream without a newline, if it is shorter than what is wanted. -/
lemma getLine_tail (hline : newline ∉ line) (hk : line.length < k) :
    getLine newline k line = ⟨line, [], true⟩ := by
  obtain ⟨j, rfl⟩ : ∃ j, k = line.length + (j + 1) := ⟨k - line.length - 1, by omega⟩
  have h : getLine newline (line.length + (j + 1)) (line ++ []) = _ := getLine_append hline
  rw [List.append_nil] at h
  rw [h, getLine, List.append_nil]

/-- A line that does not fit is cut. -/
lemma getLine_cut (hline : newline ∉ line) (hk : k ≤ line.length) :
    getLine newline k (line ++ rest) = ⟨line.take k, line.drop k ++ rest, false⟩ := by
  have htake : (line.take k).length = k := by
    rw [List.length_take]
    omega
  have hmem : newline ∉ line.take k := fun h => hline (List.mem_of_mem_take h)
  have h : getLine newline ((line.take k).length + 0) (line.take k ++ (line.drop k ++ rest)) = _ :=
    getLine_append hmem
  rw [htake, ← List.append_assoc, List.take_append_drop, Nat.add_zero, getLine, List.append_nil] at h
  exact h

/-- What is read and what is left are the input. -/
lemma line_append_rest (k : ℕ) (input : List α) :
    (getLine newline k input).line ++ (getLine newline k input).rest = input := by
  induction k generalizing input with
  | zero => rfl
  | succ k ih =>
    cases input with
    | nil => rfl
    | cons c input =>
      rw [getLine]
      split_ifs
      · rfl
      · exact congrArg (c :: ·) (ih input)

/-- No more than the bound is read. -/
lemma length_line_le (k : ℕ) (input : List α) : (getLine newline k input).line.length ≤ k := by
  induction k generalizing input with
  | zero => exact le_rfl
  | succ k ih =>
    cases input with
    | nil => exact Nat.zero_le _
    | cons c input =>
      rw [getLine]
      split_ifs
      · exact Nat.succ_le_succ (Nat.zero_le k)
      · exact Nat.succ_le_succ (ih input)

/-- Only the last element can be a newline. -/
lemma newline_notMem_dropLast (k : ℕ) (input : List α) :
    newline ∉ (getLine newline k input).line.dropLast := by
  induction k generalizing input with
  | zero => exact List.not_mem_nil
  | succ k ih =>
    cases input with
    | nil => exact List.not_mem_nil
    | cons c input =>
      by_cases hc : c = newline
      · rw [getLine, if_pos hc]
        exact List.not_mem_nil
      · have hih := ih input
        rw [getLine_cons_of_ne hc]
        cases hgot : (getLine newline k input).line with
        | nil => exact List.not_mem_nil
        | cons d line =>
          rw [hgot] at hih
          rw [List.dropLast_cons_cons, List.mem_cons, not_or]
          exact ⟨fun h => hc h.symm, hih⟩

/-- Where the end is not met, something has been read. -/
lemma line_ne_nil (h : (getLine newline (k + 1) input).atEnd = false) :
    (getLine newline (k + 1) input).line ≠ [] := by
  cases input with
  | nil => cases h
  | cons c input =>
    rw [getLine]
    split_ifs <;> simp

end Posix
end SystemsLabs
