import Mathlib.Data.Nat.Size
import Mathlib.Order.Bounds.Basic
import Mathlib.Tactic

/-!
# Two's complement width

The number of bits that a number needs in two's complement is one more than the binary length
of the number itself, or of its complement if it is negative.
-/

namespace SystemsLabs
namespace Integers

/-! ## Binary length -/

/-- Dividing by a power of two drops that many bits. -/
lemma size_div_two_pow (n w : ℕ) : (n / 2 ^ w).size = n.size - w := by
  refine eq_of_forall_ge_iff fun c => ?_
  rw [Nat.size_le, Nat.div_lt_iff_lt_mul (by positivity), ← pow_add, ← Nat.size_le]
  omega

/-- The predecessor of a power of two is shorter by one, that of any other number as long. -/
lemma size_eq_size_pred {n : ℕ} (hn : 0 < n) :
    n.size = (n - 1).size + if n.isPowerOfTwo then 1 else 0 := by
  have hlt : n - 1 < 2 ^ (n - 1).size := Nat.lt_size_self (n - 1)
  split_ifs with hpow
  · obtain ⟨k, rfl⟩ := hpow
    have hle : (2 ^ k - 1).size ≤ k := Nat.size_le.2 (by omega)
    have hge : k ≤ (2 ^ k - 1).size := (Nat.pow_le_pow_iff_right one_lt_two).1 (by omega)
    rw [Nat.size_pow]
    omega
  · have hne : n ≠ 2 ^ (n - 1).size := fun h => hpow ⟨_, h⟩
    have hle : n.size ≤ (n - 1).size := Nat.size_le.2 (by omega)
    have hge : (n - 1).size ≤ n.size := Nat.size_le_size (Nat.sub_le n 1)
    omega

/-! ## Width -/

/-- The number itself, or its complement if it is negative. -/
def foldSign (a : ℤ) : ℕ := if 0 ≤ a then a.toNat else (-a - 1).toNat

/-- The bits that a number needs in two's complement. -/
def width (a : ℤ) : ℕ := (foldSign a).size + 1

lemma foldSign_lt_iff (a : ℤ) (m : ℕ) : foldSign a < m ↔ -m ≤ a ∧ a < m := by
  unfold foldSign
  split_ifs <;> omega

/-- The width is the least number of bits that hold the number. -/
theorem isLeast_width (a : ℤ) :
    IsLeast {k : ℕ | 1 ≤ k ∧ -2 ^ (k - 1) ≤ a ∧ a < 2 ^ (k - 1)} (width a) := by
  have hfits : ∀ k : ℕ, -2 ^ k ≤ a ∧ a < 2 ^ k ↔ (foldSign a).size ≤ k := by
    intro k
    rw [Nat.size_le, foldSign_lt_iff]
    push_cast
    rfl
  constructor
  · exact ⟨Nat.le_add_left 1 _, (hfits _).2 le_rfl⟩
  · rintro k ⟨hk, hrange⟩
    have := (hfits (k - 1)).1 hrange
    unfold width
    omega

end Integers
end SystemsLabs
