import Mathlib.Tactic

/-!
# Strings in arrays of fixed size

The functions of the C library that write a string do not look at the size of the array they
write to. Here they fail where the string and its NUL do not fit.
-/

namespace SystemsLabs
namespace Memory

/-- An array of `size` characters that holds the string `text`. -/
structure Buffer (size : ℕ) where
  text : List Char
  fits : text.length < size

namespace Buffer

variable {size : ℕ}

/-- `sprintf(buf, …)`, where `s` is the formatted text; `strcpy(buf, s)` is `sprintf(buf, "%s", s)`. -/
def sprintf (size : ℕ) (s : List Char) : Option (Buffer size) :=
  if h : s.length < size then some ⟨s, h⟩ else none

/-- `strcpy(buf, s)`. -/
def strcpy (size : ℕ) (s : List Char) : Option (Buffer size) := sprintf size s

/-- `strcat(buf, s)`. -/
def strcat (buf : Buffer size) (s : List Char) : Option (Buffer size) := sprintf size (buf.text ++ s)

lemma sprintf_of_lt {s : List Char} (h : s.length < size) : sprintf size s = some ⟨s, h⟩ := dif_pos h

/-- Exactly the strings that leave room for the NUL can be written. -/
lemma isSome_sprintf (s : List Char) : (sprintf size s).isSome ↔ s.length < size := by
  unfold sprintf
  split_ifs with h <;> simp [h]

lemma isSome_strcpy (s : List Char) : (strcpy size s).isSome ↔ s.length < size := isSome_sprintf s

/-- A string that is written on fails as the whole of it does. -/
lemma sprintf_bind_strcat (s t : List Char) :
    ((sprintf size s).bind fun buf => buf.strcat t) = sprintf size (s ++ t) := by
  by_cases hs : s.length < size
  · rw [sprintf_of_lt hs, Option.bind_some, strcat]
  · have hst : ¬ (s ++ t).length < size := by
      rw [List.length_append]
      omega
    rw [sprintf, dif_neg hs, Option.bind_none, sprintf, dif_neg hst]

end Buffer

end Memory
end SystemsLabs
