import SystemsLabs.Integers.Int32
import SystemsLabs.Integers.Width

/-!
# bits.c, howManyBits

The function replaces its argument by the absolute value, adds one bit for the sign where the
absolute value does not fill its bits by itself, and finds the length by halving: if the upper
half of the bits that are left is not zero, it goes on with the upper half.
-/

namespace SystemsLabs
namespace Datalab

open Integers

/-- A halving step: `tmp = (test + !(x >> w)) & w; x >>= tmp; count += tmp;`. -/
def halve (test w x count : BitVec 32) : Option (BitVec 32 × BitVec 32) := do
  let upper ← sar x w
  let tmp := (test + lnot upper) &&& w
  let x ← sar x tmp
  pure (x, count + tmp)

/-- `howManyBits(x)`. -/
def howManyBits (x : BitVec 32) : Option (BitVec 32) := do
  let test := ~~~0#32
  let sign := lnot ((1#32 <<< 31) &&& x)
  let count := 1#32
  let x := (((test + sign) &&& (~~~x + 1#32)) ||| ((test + lnot sign) &&& x)) &&&
    ~~~(1#32 <<< 31)
  let count := count &&& (lnot (lnot (x &&& (x + test))) ||| (sign &&& lnot (lnot x)))
  let count := count + lnot x + ((test + lnot (lnot x &&& lnot sign)) &&& 31#32)
  let (x, count) ← halve test 16#32 x count
  let (x, count) ← halve test 8#32 x count
  let (x, count) ← halve test 4#32 x count
  let (x, count) ← halve test 2#32 x count
  let (x, count) ← halve test 1#32 x count
  pure (count + (x &&& 1#32))

/-! ## Halving -/

/-- In the middle of the halving `w` bits of `x` are left, and their length makes `total` with what
has been counted. -/
structure Halving (total w : ℕ) (x count : BitVec 32) : Prop where
  small : x.toNat < 2 ^ 31
  left : x.toNat < 2 ^ w
  counts : count.toNat + x.toNat.size = total

lemma Halving.step {total : ℕ} {x count : BitVec 32} (w : ℕ) (h : Halving total (2 * w) x count)
    (hw : w < 32) (htotal : total < 2 ^ 32) :
    ∃ x' count', halve (~~~0#32) (BitVec.ofNat 32 w) x count = some (x', count') ∧
      Halving total w x' count' := by
  have hcounts := h.counts
  have hwnat : (BitVec.ofNat 32 w).toNat = w := by
    rw [BitVec.toNat_ofNat]
    omega
  have hcount : (BitVec.ofNat 32 w).toNat < 32 := hwnat.trans_lt hw
  obtain ⟨upper, hsar, hupper⟩ := exists_sar hcount h.small
  rw [hwnat] at hupper
  have hzero : upper = 0#32 ↔ x.toNat < 2 ^ w := by
    rw [← BitVec.toNat_inj, BitVec.toNat_ofNat, hupper, Nat.zero_mod, Nat.div_eq_zero_iff]
    exact or_iff_right (by positivity)
  have hsize := size_div_two_pow x.toNat w
  simp only [halve, hsar, lnot, mask_and, hzero, Option.bind_eq_bind, Option.bind_some]
  split_ifs with hsmall
  · -- nothing is above: `x` stays
    obtain ⟨y, hy, hynat⟩ := exists_sar (c := 0#32) (by decide) h.small
    rw [BitVec.toNat_ofNat, Nat.zero_mod, pow_zero, Nat.div_one] at hynat
    refine ⟨y, count + 0#32, by rw [hy]; rfl, ?_⟩
    rw [BitVec.add_zero]
    exact ⟨hynat.trans_lt h.small, hynat.trans_lt hsmall, by rw [hynat]; exact hcounts⟩
  · have hlong : w < x.toNat.size := Nat.lt_size.2 (not_lt.1 hsmall)
    have hsum : (count + BitVec.ofNat 32 w).toNat = count.toNat + w := by
      rw [BitVec.toNat_add, hwnat, Nat.mod_eq_of_lt (by omega)]
    refine ⟨upper, count + BitVec.ofNat 32 w, by rw [hsar]; rfl, ?_, ?_, ?_⟩
    · rw [hupper]
      exact (Nat.div_le_self _ _).trans_lt h.small
    · rw [hupper, Nat.div_lt_iff_lt_mul (by positivity), ← pow_add, ← two_mul]
      exact h.left
    · rw [hsum, hupper]
      omega

/-- The five steps and the last bit count the length of `x`. -/
lemma exists_halves {x count : BitVec 32} (hx : x.toNat < 2 ^ 31)
    (hcount : count.toNat + x.toNat.size < 2 ^ 32) :
    ∃ r, (do
      let (x, count) ← halve (~~~0#32) 16#32 x count
      let (x, count) ← halve (~~~0#32) 8#32 x count
      let (x, count) ← halve (~~~0#32) 4#32 x count
      let (x, count) ← halve (~~~0#32) 2#32 x count
      let (x, count) ← halve (~~~0#32) 1#32 x count
      pure (count + (x &&& 1#32))) = some r ∧ r.toNat = count.toNat + x.toNat.size := by
  have hstart : Halving (count.toNat + x.toNat.size) 32 x count := ⟨hx, x.isLt, rfl⟩
  obtain ⟨x₁, c₁, h₁, hhalf₁⟩ := hstart.step 16 (by norm_num) hcount
  obtain ⟨x₂, c₂, h₂, hhalf₂⟩ := hhalf₁.step 8 (by norm_num) hcount
  obtain ⟨x₃, c₃, h₃, hhalf₃⟩ := hhalf₂.step 4 (by norm_num) hcount
  obtain ⟨x₄, c₄, h₄, hhalf₄⟩ := hhalf₃.step 2 (by norm_num) hcount
  obtain ⟨x₅, c₅, h₅, hhalf₅⟩ := hhalf₄.step 1 (by norm_num) hcount
  refine ⟨c₅ + (x₅ &&& 1#32), ?_, ?_⟩
  · simp only [h₁, h₂, h₃, h₄, h₅, Option.bind_eq_bind, Option.bind_some]
    rfl
  · -- what is left is one bit, which is its own length
    have hleft := hhalf₅.left
    have hcounts := hhalf₅.counts
    have hbit : (x₅ &&& 1#32).toNat = x₅.toNat := by
      rw [BitVec.toNat_and]
      exact (Nat.and_two_pow_sub_one_eq_mod x₅.toNat 1).trans (Nat.mod_eq_of_lt hleft)
    have hsize : x₅.toNat.size = x₅.toNat := by
      have hcases : x₅.toNat = 0 ∨ x₅.toNat = 1 := by omega
      rcases hcases with h | h
      · rw [h, Nat.size_zero]
      · rw [h, Nat.size_one]
    rw [BitVec.toNat_add, hbit, Nat.mod_eq_of_lt (by omega)]
    omega

/-! ## Before the halving -/

/-- The second value of `x`: the absolute value without its top bit. -/
def absMasked (sign x : BitVec 32) : BitVec 32 :=
  (((~~~0#32 + sign) &&& (~~~x + 1#32)) ||| ((~~~0#32 + lnot sign) &&& x)) &&& ~~~(1#32 <<< 31)

/-- The value of `count` that goes into the first step, where `x` is the second one. -/
def startCount (sign x : BitVec 32) : BitVec 32 :=
  (1#32 &&& (lnot (lnot (x &&& (x + ~~~0#32))) ||| (sign &&& lnot (lnot x)))) + lnot x +
    ((~~~0#32 + lnot (lnot x &&& lnot sign)) &&& 31#32)

section Start
variable (x : BitVec 32)

lemma toNat_absMasked :
    (absMasked (flag (0 ≤ x.toInt)) x).toNat = x.toInt.natAbs % 2 ^ 31 := by
  have hx := BitVec.toInt_eq_toNat_cond x
  have hlt := x.isLt
  rw [absMasked, lnot_flag, mask_and, mask_and]
  by_cases hsign : 0 ≤ x.toInt
  · rw [if_pos hsign, if_neg (not_not.2 hsign), BitVec.zero_or, toNat_and_not_sign]
    split_ifs at hx <;> omega
  · rw [if_neg hsign, if_pos hsign, BitVec.or_zero, toNat_and_not_sign,
      ← BitVec.neg_eq_not_add, BitVec.toNat_neg]
    split_ifs at hx <;> omega

/-- `x & (x - 1)` is zero for the powers of two. -/
lemma and_pred_eq_zero_iff {y : BitVec 32} (hy : y ≠ 0#32) :
    y &&& (y + ~~~0#32) = 0#32 ↔ y.toNat.isPowerOfTwo := by
  have hpos : y.toNat ≠ 0 := fun h => hy (BitVec.eq_of_toNat_eq h)
  have hpred : (y + ~~~0#32).toNat = y.toNat - 1 := by
    have hones : (~~~0#32).toNat = 2 ^ 32 - 1 := rfl
    rw [BitVec.toNat_add, hones]
    omega
  rw [← BitVec.toNat_inj, BitVec.toNat_and, hpred]
  exact Nat.and_sub_one_eq_zero_iff_isPowerOfTwo hpos

lemma startCount_eq {p : Prop} [Decidable p] (y : BitVec 32) :
    startCount (flag p) y = flag (y &&& (y + ~~~0#32) ≠ 0#32 ∨ p ∧ y ≠ 0#32) + flag (y = 0#32) +
      if ¬ (y = 0#32 ∧ ¬ p) then 0#32 else 31#32 := by
  have hone : ∀ q [Decidable q], 1#32 &&& flag q = flag q := by
    intro q _
    rw [← flag_pos trivial, flag_and]
    exact flag_congr (and_iff_right trivial)
  rw [startCount, lnot_lnot, lnot_lnot, show lnot y = flag (y = 0#32) from rfl]
  simp only [lnot_flag, mask_and, flag_and, flag_or, hone]

/-- The first count makes up for what the absolute value is shorter than the argument. -/
lemma toNat_startCount {y : BitVec 32} (hy : y.toNat = x.toInt.natAbs % 2 ^ 31) :
    (startCount (flag (0 ≤ x.toInt)) y).toNat + y.toNat.size = width x.toInt := by
  have hx := toInt_bounds x
  rw [startCount_eq, width, foldSign]
  -- without the top bit zero and the least number look the same, and the sign tells them apart
  by_cases hzero : y = 0#32
  · subst hzero
    rw [flag_neg (by simp), flag_pos rfl]
    rw [BitVec.toNat_ofNat, Nat.zero_mod] at hy
    by_cases hsign : 0 ≤ x.toInt
    · have hval : x.toInt = 0 := by omega
      rw [hval]
      decide
    · -- the least number
      have hval : x.toInt = -2 ^ 31 := by omega
      have hsize := size_eq_size_pred (n := 2 ^ 31) (by norm_num)
      rw [Nat.size_pow, if_pos ⟨31, rfl⟩] at hsize
      have hfold : (-(-2 ^ 31 : ℤ) - 1).toNat = 2 ^ 31 - 1 := rfl
      rw [hval, if_neg (by norm_num), if_neg (by norm_num), hfold,
        show (2 ^ 31 - 1 : ℕ).size = 31 by omega]
      rfl
  · have hval : y.toNat = x.toInt.natAbs := by
      have hne : y.toNat ≠ 0 := fun h => hzero (BitVec.eq_of_toNat_eq h)
      omega
    rw [flag_neg hzero, BitVec.add_zero, if_pos fun h => hzero h.1, BitVec.add_zero]
    by_cases hsign : 0 ≤ x.toInt
    · rw [flag_pos (Or.inr ⟨hsign, hzero⟩), if_pos hsign, hval,
        show x.toInt.natAbs = x.toInt.toNat by omega]
      exact Nat.add_comm _ _
    · have hsize := size_eq_size_pred (n := x.toInt.natAbs) (by omega)
      have hpow := and_pred_eq_zero_iff hzero
      rw [if_neg hsign, hval, show (-x.toInt - 1).toNat = x.toInt.natAbs - 1 by omega, hsize]
      rw [hval] at hpow
      split_ifs with hp
      · have hnone : ¬ (y &&& (y + ~~~0#32) ≠ 0#32 ∨ 0 ≤ x.toInt ∧ y ≠ 0#32) := by
          rintro (h | h)
          · exact h (hpow.2 hp)
          · exact hsign h.1
        rw [flag_neg hnone]
        exact Nat.zero_add _
      · have hne : y &&& (y + ~~~0#32) ≠ 0#32 := fun h => hp (hpow.1 h)
        rw [flag_pos (Or.inl hne)]
        exact Nat.add_comm _ _

end Start

lemma howManyBits_eq (x : BitVec 32) : howManyBits x = (do
    let sign := lnot ((1#32 <<< 31) &&& x)
    let (x, count) ← halve (~~~0#32) 16#32 (absMasked sign x) (startCount sign (absMasked sign x))
    let (x, count) ← halve (~~~0#32) 8#32 x count
    let (x, count) ← halve (~~~0#32) 4#32 x count
    let (x, count) ← halve (~~~0#32) 2#32 x count
    let (x, count) ← halve (~~~0#32) 1#32 x count
    pure (count + (x &&& 1#32))) := rfl

/-- **The minimal width.** `howManyBits(x)` is the least number of bits that hold `x` in two's
complement. -/
theorem howManyBits_least (x : BitVec 32) :
    ∃ r, howManyBits x = some r ∧
      IsLeast {k : ℕ | 1 ≤ k ∧ -2 ^ (k - 1) ≤ x.toInt ∧ x.toInt < 2 ^ (k - 1)} r.toNat := by
  have habs := toNat_absMasked x
  have hstart := toNat_startCount x habs
  have hwidth : width x.toInt ≤ 32 := by
    have hx := toInt_bounds x
    exact (isLeast_width x.toInt).2 ⟨by norm_num, hx.1, hx.2⟩
  have hsign : lnot ((1#32 <<< 31) &&& x) = flag (0 ≤ x.toInt) := by
    rw [BitVec.and_comm, lnot_sign]
  have hsmall : (absMasked (flag (0 ≤ x.toInt)) x).toNat < 2 ^ 31 := by omega
  have htotal : (startCount (flag (0 ≤ x.toInt)) (absMasked (flag (0 ≤ x.toInt)) x)).toNat +
      (absMasked (flag (0 ≤ x.toInt)) x).toNat.size < 2 ^ 32 := by omega
  obtain ⟨r, hrun, hr⟩ := exists_halves hsmall htotal
  refine ⟨r, ?_, ?_⟩
  · rw [howManyBits_eq]
    dsimp only
    rw [hsign]
    exact hrun
  · rw [hr, hstart]
    exact isLeast_width x.toInt

end Datalab
end SystemsLabs
