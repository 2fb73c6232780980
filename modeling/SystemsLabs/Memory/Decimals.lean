import Mathlib.Tactic

/-!
# Numbers as decimal text

What `%d` makes of an `int`: its digits, behind a minus if it is negative.
-/

namespace SystemsLabs
namespace Memory

/-- `sprintf(buf, "%d", n)`. -/
def decimal (n : ℤ) : List Char :=
  if n < 0 then '-' :: Nat.toDigits 10 n.natAbs else Nat.toDigits 10 n.natAbs

variable {n : ℤ} {c : Char}

lemma mem_decimal (h : c ∈ decimal n) : c = '-' ∨ c.isDigit := by
  unfold decimal at h
  split_ifs at h
  · rcases List.mem_cons.1 h with rfl | h
    · exact .inl rfl
    · exact .inr (Nat.isDigit_of_mem_toDigits (by decide) (by decide) h)
  · exact .inr (Nat.isDigit_of_mem_toDigits (by decide) (by decide) h)

/-- Other characters do not occur in a number. -/
lemma notMem_decimal (hc : c ≠ '-') (hdigit : c.isDigit = false) : c ∉ decimal n := by
  intro h
  rcases mem_decimal h with rfl | h
  · exact hc rfl
  · rw [hdigit] at h
    cases h

/-- An `int` has ten digits and a sign at most. -/
lemma length_decimal_le (hlow : -2 ^ 31 ≤ n) (hhigh : n < 2 ^ 31) : (decimal n).length ≤ 11 := by
  have hdigits : (Nat.toDigits 10 n.natAbs).length ≤ 10 := by
    rw [Nat.length_toDigits_le_iff (by decide) (by decide)]
    omega
  unfold decimal
  split_ifs
  · rw [List.length_cons]
    omega
  · omega

end Memory
end SystemsLabs
