import Mathlib.Data.Rat.Floor
import Mathlib.Tactic

/-!
# Binary floating point formats

A pattern of a format has a sign, a biased exponent and a fraction. It stands for a rational
number unless its exponent is the largest one. The numbers of a format are whole multiples of
its least positive number, the quantum, which makes rounding and truncation questions about
integers.
-/

namespace SystemsLabs
namespace Floats

/-- The widths of the exponent and of the fraction. -/
structure Format where
  expBits : ℕ
  fracBits : ℕ

namespace Format

/-- What a stored exponent exceeds the true one by. -/
def bias (F : Format) : ℤ := 2 ^ (F.expBits - 1) - 1

/-- The least positive number. -/
def quantum (F : Format) : ℚ := 2 ^ (1 - F.bias - F.fracBits)

/-- There is a least positive value. -/
lemma quantum_pos (F : Format) : 0 < F.quantum := by
  unfold quantum
  positivity

end Format

/-- A finite number of a format. -/
@[ext] structure Datum (F : Format) where
  sign : Bool
  exp : ℕ
  frac : ℕ
  exp_lt : exp + 1 < 2 ^ F.expBits
  frac_lt : frac < 2 ^ F.fracBits

variable {F : Format}

namespace Datum

/-- The absolute value: denormal if the stored exponent is zero, else normal. -/
def magnitude (d : Datum F) : ℚ :=
  if d.exp = 0 then d.frac / 2 ^ F.fracBits * 2 ^ (1 - F.bias)
  else (1 + d.frac / 2 ^ F.fracBits) * 2 ^ (d.exp - F.bias)

/-- The number that a datum stands for. -/
def value (d : Datum F) : ℚ := if d.sign then -d.magnitude else d.magnitude

/-- The fraction with the leading bit. -/
def significand (d : Datum F) : ℕ := if d.exp = 0 then d.frac else 2 ^ F.fracBits + d.frac

/-- The absolute value in quanta. -/
def units (d : Datum F) : ℕ := d.significand * 2 ^ (d.exp - 1)

/-- The pattern of a datum. -/
def encode (d : Datum F) : ℕ :=
  2 ^ F.fracBits * (2 ^ F.expBits * d.sign.toNat + d.exp) + d.frac

end Datum

/-- The datum of a pattern, if it is finite. -/
def decode (F : Format) (u : ℕ) : Option (Datum F) :=
  if h : u / 2 ^ F.fracBits % 2 ^ F.expBits + 1 < 2 ^ F.expBits then
    some ⟨u.testBit (F.expBits + F.fracBits), u / 2 ^ F.fracBits % 2 ^ F.expBits,
      u % 2 ^ F.fracBits, h, Nat.mod_lt _ (by positivity)⟩
  else none

/-! ## Patterns -/

/-- The fields of a pattern come back. -/
@[simp] theorem decode_encode (d : Datum F) : decode F d.encode = some d := by
  have hexp : d.encode / 2 ^ F.fracBits = 2 ^ F.expBits * d.sign.toNat + d.exp := by
    rw [Datum.encode, Nat.mul_add_div (by positivity), Nat.div_eq_of_lt d.frac_lt, add_zero]
  have hlt : d.exp < 2 ^ F.expBits := lt_trans (Nat.lt_succ_self _) d.exp_lt
  have hsign : d.encode.testBit (F.expBits + F.fracBits) = d.sign := by
    rw [← Nat.testBit_div_two_pow, hexp, Nat.testBit, Nat.shiftRight_eq_div_pow,
      Nat.mul_add_div (by positivity), Nat.div_eq_of_lt hlt]
    cases d.sign <;> rfl
  have hfrac : d.encode % 2 ^ F.fracBits = d.frac := by
    rw [Datum.encode, Nat.mul_add_mod, Nat.mod_eq_of_lt d.frac_lt]
  have hmod : d.encode / 2 ^ F.fracBits % 2 ^ F.expBits = d.exp := by
    rw [hexp, Nat.mul_add_mod, Nat.mod_eq_of_lt hlt]
  rw [decode, dif_pos (by rw [hmod]; exact d.exp_lt)]
  exact congrArg some (Datum.ext hsign hmod hfrac)

/-- The patterns that are no numbers have all bits of the exponent set. -/
theorem decode_eq_none_iff {u : ℕ} :
    decode F u = none ↔ u / 2 ^ F.fracBits % 2 ^ F.expBits = 2 ^ F.expBits - 1 := by
  have hlt : u / 2 ^ F.fracBits % 2 ^ F.expBits < 2 ^ F.expBits := Nat.mod_lt _ (by positivity)
  unfold decode
  split_ifs with hfin
  · exact iff_of_false not_false (by omega)
  · exact iff_of_true rfl (by omega)

/-- The fields are those of the pattern. -/
theorem fields_of_decode {u : ℕ} {d : Datum F} (h : decode F u = some d) :
    d.sign = u.testBit (F.expBits + F.fracBits) ∧
      d.exp = u / 2 ^ F.fracBits % 2 ^ F.expBits ∧ d.frac = u % 2 ^ F.fracBits := by
  rw [decode] at h
  split_ifs at h with hfin
  obtain rfl := Option.some.inj h
  exact ⟨rfl, rfl, rfl⟩

/-! ## Quanta -/

/-- The magnitude in units of the least positive value. -/
theorem Datum.magnitude_eq (d : Datum F) : d.magnitude = d.units * F.quantum := by
  have hpow : (2 : ℚ) ^ (1 - F.bias) = 2 ^ F.fracBits * F.quantum := by
    rw [Format.quantum, ← zpow_natCast, ← zpow_add₀ two_ne_zero]
    congr 1
    omega
  unfold Datum.magnitude Datum.units Datum.significand
  split_ifs with hexp
  · rw [hexp, hpow]
    push_cast
    field_simp
  · have hsplit : (2 : ℚ) ^ ((d.exp : ℤ) - F.bias) = 2 ^ (d.exp - 1) * 2 ^ (1 - F.bias) := by
      rw [← zpow_natCast, ← zpow_add₀ two_ne_zero]
      congr 1
      omega
    rw [hsplit, hpow]
    push_cast
    field_simp

/-- The number in quanta. -/
def Datum.signedUnits (d : Datum F) : ℤ := if d.sign then -d.units else d.units

/-- The value in these units. -/
theorem Datum.value_eq (d : Datum F) : d.value = d.signedUnits * F.quantum := by
  rw [Datum.value, Datum.signedUnits, Datum.magnitude_eq]
  split_ifs <;> push_cast <;> ring

/-- The significand has one bit more than the fraction. -/
lemma Datum.significand_lt (d : Datum F) : d.significand < 2 * 2 ^ F.fracBits := by
  have hfrac := d.frac_lt
  unfold Datum.significand
  split_ifs <;> omega

/-- Below the second exponent the exponent is a digit of the significand. -/
lemma Datum.significand_of_exp_le {d : Datum F} (h : d.exp ≤ 1) :
    d.significand = 2 ^ F.fracBits * d.exp + d.frac := by
  unfold Datum.significand
  split_ifs with hexp
  · rw [hexp, mul_zero, zero_add]
  · rw [show d.exp = 1 by omega, mul_one]

/-- The least exponents have no shift. -/
lemma Datum.units_of_exp_le {d : Datum F} (h : d.exp ≤ 1) : d.units = d.significand := by
  rw [Datum.units, Nat.sub_eq_zero_of_le h, pow_zero, mul_one]

/-- Other numbers have a leading bit and a shift. -/
lemma Datum.units_of_exp_pos {d : Datum F} (h : d.exp ≠ 0) :
    d.units = (2 ^ F.fracBits + d.frac) * 2 ^ (d.exp - 1) := by
  rw [Datum.units, Datum.significand, if_neg h]

/-- The exponent bounds the number. -/
lemma Datum.units_lt {d : Datum F} {k : ℕ} (h : d.exp ≤ k + 1) :
    d.units < 2 * 2 ^ F.fracBits * 2 ^ k :=
  Nat.mul_lt_mul_of_lt_of_le d.significand_lt (Nat.pow_le_pow_right two_pos (by omega))
    (by positivity)

/-- With the exponent the number of units doubles. -/
lemma Datum.le_units {d : Datum F} {k : ℕ} (h : k + 1 ≤ d.exp) :
    2 ^ F.fracBits * 2 ^ k ≤ d.units := by
  rw [Datum.units_of_exp_pos (by omega)]
  exact Nat.mul_le_mul (Nat.le_add_right _ _) (Nat.pow_le_pow_right two_pos (by omega))

/-- Every small number of quanta has a pattern, which counts them. -/
lemma exists_of_units (hF : 2 < 2 ^ F.expBits) (s : Bool) {n : ℕ} (hn : n < 2 * 2 ^ F.fracBits) :
    ∃ r : Datum F, r.sign = s ∧ r.significand = n ∧ r.units = n ∧
      r.encode = 2 ^ F.fracBits * (2 ^ F.expBits * s.toNat) + n := by
  have hdiv : n / 2 ^ F.fracBits ≤ 1 := Nat.lt_succ_iff.1 (Nat.div_lt_of_lt_mul (by omega))
  have hsum := Nat.div_add_mod n (2 ^ F.fracBits)
  let r : Datum F :=
    ⟨s, n / 2 ^ F.fracBits, n % 2 ^ F.fracBits, by omega, Nat.mod_lt _ (by positivity)⟩
  have hsig : r.significand = n := (Datum.significand_of_exp_le hdiv).trans hsum
  refine ⟨r, rfl, hsig, (Datum.units_of_exp_le hdiv).trans hsig, ?_⟩
  rw [Datum.encode, mul_add, add_assoc]
  exact congrArg _ hsum

/-- Above the first exponent the exponent counts the doublings. -/
lemma exists_exp_pred {d : Datum F} (h : 2 ≤ d.exp) :
    ∃ r : Datum F, r.sign = d.sign ∧ 2 * r.units = d.units ∧
      r.encode = 2 ^ F.fracBits * (2 ^ F.expBits * d.sign.toNat + (d.exp - 1)) + d.frac := by
  have hlt := d.exp_lt
  refine ⟨⟨d.sign, d.exp - 1, d.frac, by omega, d.frac_lt⟩, rfl, ?_, rfl⟩
  obtain ⟨k, hk⟩ : ∃ k, d.exp = k + 2 := ⟨d.exp - 2, by omega⟩
  rw [Datum.units_of_exp_pos (by omega : d.exp ≠ 0),
    Datum.units_of_exp_pos (show d.exp - 1 ≠ 0 by omega)]
  simp only [hk, Nat.add_sub_cancel, Nat.add_succ_sub_one, pow_succ]
  ring

/-! ## Rounding to nearest even -/

/-- `d` is the number of the format nearest to `x`, with an even significand if another one is as
near. -/
structure IsNearestEven (x : ℚ) (d : Datum F) : Prop where
  nearest : ∀ c : Datum F, |d.value - x| ≤ |c.value - x|
  even : ∀ c : Datum F, c.value ≠ d.value → |c.value - x| = |d.value - x| → Even d.significand

/-- An exact value is the nearest one. -/
theorem isNearestEven_of_eq {x : ℚ} {d : Datum F} (h : d.value = x) : IsNearestEven x d where
  nearest c := by
    rw [h, sub_self, abs_zero]
    exact abs_nonneg _
  even c hne htie := by
    rw [h, sub_self, abs_zero, abs_eq_zero, sub_eq_zero] at htie
    exact absurd (htie.trans h.symm) hne

/-- Halfway between two neighbouring multiples of the quantum an even one is nearest. -/
theorem isNearestEven_of_half {n : ℤ} {d : Datum F} (hn : Odd n)
    (hd : |2 * d.signedUnits - n| = 1) (heven : Even d.significand) :
    IsNearestEven (n * F.quantum / 2) d where
  nearest c := by
    have hdist : ∀ c : Datum F,
        |c.value - n * F.quantum / 2| = |2 * c.signedUnits - n| * (F.quantum / 2) := by
      intro c
      have hq : |F.quantum / 2| = F.quantum / 2 := abs_of_pos (half_pos F.quantum_pos)
      rw [Datum.value_eq, ← hq, Int.cast_abs, ← abs_mul]
      push_cast
      congr 1
      ring
    -- in half quanta every number is even, so none is nearer to an odd one than its neighbours
    have hc : 1 ≤ |2 * c.signedUnits - n| := by
      obtain ⟨k, rfl⟩ := hn
      exact Int.one_le_abs (by omega)
    rw [hdist, hdist, hd]
    refine mul_le_mul_of_nonneg_right ?_ (half_pos F.quantum_pos).le
    exact_mod_cast hc
  even _ _ _ := heven

/-- Half of a number, rounded in quanta. -/
theorem isNearestEven_div_two {d d' : Datum F} (hsign : d'.sign = d.sign)
    (h : 2 * d'.units = d.units ∨
      Even d'.significand ∧ (2 * d'.units = d.units + 1 ∨ 2 * d'.units + 1 = d.units)) :
    IsNearestEven (d.value / 2) d' := by
  rcases h with hexact | ⟨heven, hround⟩
  · refine isNearestEven_of_eq ?_
    have hsigned : 2 * d'.signedUnits = d.signedUnits := by
      rw [Datum.signedUnits, Datum.signedUnits, hsign]
      split_ifs <;> omega
    rw [Datum.value_eq, Datum.value_eq, ← hsigned]
    push_cast
    ring
  · have hodd : Odd d.signedUnits := by
      unfold Datum.signedUnits
      split_ifs
      · rw [odd_neg, Int.odd_coe_nat, Nat.odd_iff]
        omega
      · rw [Int.odd_coe_nat, Nat.odd_iff]
        omega
    have hdist : |2 * d'.signedUnits - d.signedUnits| = 1 := by
      rw [abs_eq zero_le_one, Datum.signedUnits, Datum.signedUnits, hsign]
      split_ifs <;> omega
    rw [Datum.value_eq d]
    exact isNearestEven_of_half hodd hdist heven

/-! ## Truncation -/

/-- The integer part, toward zero. -/
def trunc (x : ℚ) : ℤ := if 0 ≤ x then ⌊x⌋ else ⌈x⌉

/-- Truncation is the same on both sides of zero. -/
lemma trunc_neg (x : ℚ) : trunc (-x) = -trunc x := by
  rw [trunc, trunc, Int.floor_neg, Int.ceil_neg]
  -- floor and ceiling change places, except at zero
  rcases lt_trichotomy x 0 with hx | rfl | hx
  · rw [if_pos (by linarith), if_neg (by linarith)]
  · rfl
  · rw [if_neg (by linarith), if_pos (by linarith)]

/-- Where a whole number of quanta is one, quanta are counted out. -/
theorem trunc_value {k : ℕ} (hk : F.quantum * 2 ^ k = 1) (d : Datum F) :
    trunc d.value = if d.sign then -((d.units / 2 ^ k : ℕ) : ℤ) else (d.units / 2 ^ k : ℕ) := by
  have hmag : trunc d.magnitude = (d.units / 2 ^ k : ℕ) := by
    have hdiv : d.magnitude = (d.units : ℚ) / (2 ^ k : ℕ) := by
      rw [Datum.magnitude_eq, eq_div_iff (by positivity), mul_assoc]
      push_cast
      rw [hk, mul_one]
    rw [trunc, hdiv, if_pos (by positivity), Rat.floor_natCast_div_natCast]
    rfl
  rw [Datum.value]
  split_ifs
  · rw [trunc_neg, hmag]
  · exact hmag

end Floats
end SystemsLabs
