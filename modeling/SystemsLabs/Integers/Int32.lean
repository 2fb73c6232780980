import Mathlib.Tactic

/-!
# Words as C computes with them

An `int` or an `unsigned` is a word of 32 bits. Sums wrap, a right shift of an `int` keeps the
sign, and the truth values that `!` yields are the words zero and one. `flag` makes such a word,
and the simp lemmas about it turn masks that are computed from truth values into truth values
again. A shift by a count that is not below the width is undefined, so a shift by a variable
count may fail.
-/

namespace SystemsLabs
namespace Integers

/-- The truth value of `p`. -/
def flag (p : Prop) [Decidable p] : BitVec 32 := if p then 1#32 else 0#32

/-- `!x`. -/
def lnot (x : BitVec 32) : BitVec 32 := flag (x = 0#32)

/-- `x << c`. -/
def shl (x c : BitVec 32) : Option (BitVec 32) :=
  if c.toNat < 32 then some (x <<< c.toNat) else none

/-- `x >> c` for an `int`. -/
def sar (x c : BitVec 32) : Option (BitVec 32) :=
  if c.toNat < 32 then some (x.sshiftRight c.toNat) else none

section Flags
variable {p q : Prop} [Decidable p] [Decidable q]

lemma flag_pos (hp : p) : flag p = 1#32 := if_pos hp

lemma flag_neg (hp : ¬ p) : flag p = 0#32 := if_neg hp

lemma flag_congr (h : p ↔ q) : flag p = flag q := by
  unfold flag
  simp only [h]

/-- `!` negates a truth value. -/
@[simp] lemma lnot_flag : lnot (flag p) = flag (¬ p) := by
  by_cases hp : p
  · rw [flag_pos hp, flag_neg (not_not.2 hp)]
    rfl
  · rw [flag_neg hp, flag_pos hp]
    rfl

@[simp] lemma flag_and : flag p &&& flag q = flag (p ∧ q) := by
  by_cases hp : p
  · by_cases hq : q
    · rw [flag_pos hp, flag_pos hq, flag_pos ⟨hp, hq⟩]
      rfl
    · have hpq : ¬ (p ∧ q) := fun h => hq h.2
      rw [flag_neg hq, flag_neg hpq]
      exact BitVec.and_zero
  · have hpq : ¬ (p ∧ q) := fun h => hp h.1
    rw [flag_neg hp, flag_neg hpq]
    exact BitVec.zero_and

@[simp] lemma flag_or : flag p ||| flag q = flag (p ∨ q) := by
  by_cases hp : p
  · rw [flag_pos hp, flag_pos (Or.inl hp)]
    by_cases hq : q
    · rw [flag_pos hq]
      rfl
    · rw [flag_neg hq]
      rfl
  · rw [flag_neg hp, BitVec.zero_or]
    exact flag_congr (or_iff_right hp).symm

/-- `~0 + p` is the mask that keeps a word unless `p` holds. -/
@[simp] lemma and_mask (x : BitVec 32) :
    x &&& (~~~0#32 + flag p) = if p then 0#32 else x := by
  split_ifs with hp
  · rw [flag_pos hp]
    exact BitVec.and_zero
  · rw [flag_neg hp]
    exact BitVec.and_allOnes

/-- The mask on the other side. -/
@[simp] lemma mask_and (x : BitVec 32) :
    (~~~0#32 + flag p) &&& x = if p then 0#32 else x := by
  rw [BitVec.and_comm, and_mask]

@[simp] lemma lnot_lnot (x : BitVec 32) : lnot (lnot x) = flag (x ≠ 0#32) := lnot_flag

end Flags

section Signs
variable (x y : BitVec 32)

/-- The sign bit says whether a word is negative. -/
@[simp] lemma lnot_sign : lnot (x &&& 1#32 <<< 31) = flag (0 ≤ x.toInt) := by
  have hmask : (1#32 <<< 31) = BitVec.twoPow 32 31 := rfl
  have hsign : (0 ≤ x.toInt) ↔ x.getLsbD 31 = false := by
    have hmsb := BitVec.msb_eq_getLsbD_last x
    rw [show 32 - 1 = 31 from rfl] at hmsb
    rw [← hmsb, BitVec.msb_eq_toInt, decide_eq_false_iff_not, not_lt]
  rw [lnot, hmask, BitVec.and_twoPow, flag_congr hsign]
  cases x.getLsbD 31 <;> rfl

/-- A word without its sign bit. -/
lemma toNat_and_not_sign : (x &&& ~~~(1#32 <<< 31)).toNat = x.toNat % 2 ^ 31 := by
  rw [BitVec.toNat_and]
  exact Nat.and_two_pow_sub_one_eq_mod x.toNat 31

/-- `x + (~y + 1)`. -/
lemma add_not_add_one : x + (~~~y + 1#32) = x - y := by
  rw [BitVec.sub_eq_add_neg, BitVec.neg_eq_not_add]

/-- A word is an `int`. -/
lemma toInt_bounds : -2 ^ 31 ≤ x.toInt ∧ x.toInt < 2 ^ 31 :=
  ⟨BitVec.le_toInt x, BitVec.toInt_lt⟩

/-- The value of a sum or a difference that leaves the range comes back from the other end. -/
lemma bmod_cases {a : ℤ} (h1 : -2 ^ 32 ≤ a) (h2 : a < 2 ^ 32) :
    a.bmod (2 ^ 32) =
      if a < -2 ^ 31 then a + 2 ^ 32 else if a < 2 ^ 31 then a else a - 2 ^ 32 := by
  rw [Int.bmod_def]
  push_cast
  split_ifs <;> omega

/-- A sum wraps around once at most. -/
lemma toInt_add : (x + y).toInt =
    if x.toInt + y.toInt < -2 ^ 31 then x.toInt + y.toInt + 2 ^ 32
    else if x.toInt + y.toInt < 2 ^ 31 then x.toInt + y.toInt
    else x.toInt + y.toInt - 2 ^ 32 := by
  have hx := toInt_bounds x
  have hy := toInt_bounds y
  rw [BitVec.toInt_add]
  exact bmod_cases (by omega) (by omega)

/-- A difference wraps around once at most. -/
lemma toInt_sub : (x - y).toInt =
    if x.toInt - y.toInt < -2 ^ 31 then x.toInt - y.toInt + 2 ^ 32
    else if x.toInt - y.toInt < 2 ^ 31 then x.toInt - y.toInt
    else x.toInt - y.toInt - 2 ^ 32 := by
  have hx := toInt_bounds x
  have hy := toInt_bounds y
  rw [BitVec.toInt_sub]
  exact bmod_cases (by omega) (by omega)

/-- A word that is not negative is shifted as a number. -/
lemma toNat_sshiftRight {x : BitVec 32} (hx : x.toNat < 2 ^ 31) (n : ℕ) :
    (x.sshiftRight n).toNat = x.toNat / 2 ^ n := by
  have hmsb : x.msb = false := by
    rw [BitVec.msb_eq_false_iff_two_mul_lt]
    omega
  rw [BitVec.sshiftRight_eq_of_msb_false hmsb, BitVec.toNat_ushiftRight,
    Nat.shiftRight_eq_div_pow]

/-- A shift to the right of a number that is not negative divides it. -/
lemma exists_sar {x c : BitVec 32} (hc : c.toNat < 32) (hx : x.toNat < 2 ^ 31) :
    ∃ y, sar x c = some y ∧ y.toNat = x.toNat / 2 ^ c.toNat :=
  ⟨_, if_pos hc, toNat_sshiftRight hx c.toNat⟩

end Signs

section Fields
variable {x y : BitVec 32}

/-- Bit fields that do not overlap are added. -/
lemma toNat_or {i a : ℕ} (hx : x.toNat = 2 ^ i * a) (hy : y.toNat < 2 ^ i) :
    (x ||| y).toNat = x.toNat + y.toNat := by
  rw [BitVec.toNat_or, hx, Nat.two_pow_add_eq_or_of_lt hy]

/-- A sum without overflow. -/
lemma toNat_add (h : x.toNat + y.toNat < 2 ^ 32) : (x + y).toNat = x.toNat + y.toNat := by
  rw [BitVec.toNat_add, Nat.mod_eq_of_lt h]

/-- A shift to the left without overflow multiplies. -/
lemma toNat_shiftLeft {n : ℕ} (h : x.toNat * 2 ^ n < 2 ^ 32) :
    (x <<< n).toNat = x.toNat * 2 ^ n := by
  rw [BitVec.toNat_shiftLeft, Nat.shiftLeft_eq, Nat.mod_eq_of_lt h]

/-- Such a shift is defined. -/
lemma exists_shl {c : BitVec 32} (hc : c.toNat < 32) (hx : x.toNat * 2 ^ c.toNat < 2 ^ 32) :
    ∃ y, shl x c = some y ∧ y.toNat = x.toNat * 2 ^ c.toNat :=
  ⟨_, if_pos hc, toNat_shiftLeft hx⟩

/-- A word without a sign bit is the number that it is. -/
lemma toInt_eq_toNat (h : x.toNat < 2 ^ 31) : x.toInt = x.toNat :=
  BitVec.toInt_eq_toNat_of_lt (by omega)

lemma toNat_of_toInt {n : ℕ} (h : x.toInt = n) : x.toNat = n := by
  have hcond := BitVec.toInt_eq_toNat_cond x
  have hlt := x.isLt
  split_ifs at hcond <;> omega

end Fields

end Integers
end SystemsLabs
