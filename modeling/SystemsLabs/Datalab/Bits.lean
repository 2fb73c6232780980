import SystemsLabs.Integers.Int32

/-!
# bits.c, the integer puzzles

An `int` is a word of 32 bits.
-/

namespace SystemsLabs
namespace Datalab

open Integers

/-! ## Signs of exact results -/

/-- `isGreater(x, y)`. -/
def isGreater (x y : BitVec 32) : BitVec 32 :=
  let check := 1#32 <<< 31
  let first := lnot (x &&& check)
  let second := lnot (y &&& check)
  let basicCheck := lnot ((x + (~~~y + 1#32) + ~~~0#32) &&& check)
  (basicCheck &&& lnot (lnot first &&& second)) ||| (first &&& lnot second)

/-- `subOK(x, y)`. -/
def subOK (x y : BitVec 32) : BitVec 32 :=
  let check := 1#32 <<< 31
  let first := lnot (x &&& check)
  let second := lnot (y &&& check)
  let basicCheck := lnot ((x + (~~~y + 1#32)) &&& check)
  lnot ((basicCheck &&& (lnot first &&& second)) ||| (first &&& lnot second &&& lnot basicCheck))

/-- `satAdd(x, y)`. -/
def satAdd (x y : BitVec 32) : BitVec 32 :=
  let check := 1#32 <<< 31
  let sum := x + y
  let first := lnot (x &&& check)
  let second := lnot (y &&& check)
  let basicCheck := lnot (sum &&& check)
  let pOverflow := basicCheck ||| lnot first ||| lnot second
  let nOverflow := lnot first &&& lnot second &&& basicCheck
  (~~~check &&& (~~~0#32 + pOverflow)) ||| (nOverflow <<< 31) |||
    (sum &&& (~~~0#32 + (lnot pOverflow ||| nOverflow)))

section Signs
variable (x y : BitVec 32)

/-- Between words of one sign `x - y - 1` does not overflow. -/
lemma isGreater_eq : isGreater x y = flag (x.toInt > y.toInt) := by
  have hx := toInt_bounds x
  have hy := toInt_bounds y
  have hsub := toInt_sub x y
  have hpred := toInt_add (x - y) (~~~0#32)
  have hone : (~~~0#32).toInt = -1 := by decide
  unfold isGreater
  simp only [add_not_add_one, lnot_sign, lnot_flag, flag_and, flag_or]
  refine flag_congr ?_
  split_ifs at hsub hpred <;> omega

/-- The difference overflows where its sign is not that of the exact one. -/
lemma subOK_eq :
    subOK x y = flag (-2 ^ 31 ≤ x.toInt - y.toInt ∧ x.toInt - y.toInt ≤ 2 ^ 31 - 1) := by
  have hx := toInt_bounds x
  have hy := toInt_bounds y
  have hsub := toInt_sub x y
  unfold subOK
  simp only [add_not_add_one, lnot_sign, lnot_flag, flag_and, flag_or]
  refine flag_congr ?_
  split_ifs at hsub <;> omega

/-- The three words that `satAdd` combines, of which two are zero. -/
lemma satAdd_eq : satAdd x y =
    if 0 ≤ x.toInt ∧ 0 ≤ y.toInt ∧ (x + y).toInt < 0 then 0x7fffffff#32
    else if x.toInt < 0 ∧ y.toInt < 0 ∧ 0 ≤ (x + y).toInt then 0x80000000#32
    else x + y := by
  unfold satAdd
  simp only [lnot_sign, lnot_flag, flag_and, flag_or, and_mask]
  by_cases hpos : 0 ≤ x.toInt ∧ 0 ≤ y.toInt ∧ (x + y).toInt < 0
  · rw [if_neg (by omega), flag_neg (by omega), if_pos (by omega), if_pos hpos]
    rfl
  by_cases hneg : x.toInt < 0 ∧ y.toInt < 0 ∧ 0 ≤ (x + y).toInt
  · rw [if_pos (by omega), flag_pos (by omega), if_pos (by omega), if_neg hpos, if_pos hneg]
    rfl
  · rw [if_pos (by omega), flag_neg (by omega), if_neg (by omega), if_neg hpos, if_neg hneg]
    exact BitVec.zero_or

/-- **The overflow-aware routines agree with the exact integers.** -/
theorem exact_results :
    (satAdd x y).toInt = max (-2 ^ 31) (min (2 ^ 31 - 1) (x.toInt + y.toInt)) ∧
      subOK x y = (if -2 ^ 31 ≤ x.toInt - y.toInt ∧ x.toInt - y.toInt ≤ 2 ^ 31 - 1 then 1 else 0) ∧
      isGreater x y = if x.toInt > y.toInt then 1 else 0 := by
  refine ⟨?_, subOK_eq x y, isGreater_eq x y⟩
  have hx := toInt_bounds x
  have hy := toInt_bounds y
  have hadd := toInt_add x y
  have hmax : (0x7fffffff#32).toInt = 2 ^ 31 - 1 := by decide
  have hmin : (0x80000000#32).toInt = -2 ^ 31 := by decide
  rw [satAdd_eq]
  -- both words have one sign and the sum has the other
  split_ifs with hpos hneg
  · rw [hmax]
    split_ifs at hadd <;> omega
  · rw [hmin]
    split_ifs at hadd <;> omega
  · split_ifs at hadd <;> omega

end Signs

end Datalab
end SystemsLabs
