import SystemsLabs.Floats.Binary
import SystemsLabs.Integers.Int32

/-!
# bits.c, the floating point puzzles

An `unsigned` argument is the pattern of a `float`. The functions take the sign, the exponent and
the fraction apart with masks and shifts.
-/

namespace SystemsLabs
namespace Datalab

open Integers Floats

/-- The format of a `float`. -/
def single : Format := ⟨8, 23⟩

/-- `float_half(uf)`. -/
def floatHalf (uf : BitVec 32) : BitVec 32 :=
  let check := 1#32 <<< 31
  let fs := uf &&& check
  let e := (uf >>> 23) &&& 0xFF#32
  let fe := e
  if e = 255#32 then uf
  else
    let temp := if e ≠ 0#32 then e - 128#32 else -127#32
    let m := uf &&& 0x7FFFFF#32
    if temp = -127#32 then
      let n1 := (fe <<< 23) ||| m
      let m1 := n1.sshiftRight 1
      (fs ||| m1) + (n1 &&& m1 &&& 1#32)
    else
      let fe := ((127#32 + temp) <<< 23) &&& ~~~check
      fs ||| fe ||| m

/-- `float_f2i(uf)`. -/
def floatF2i (uf : BitVec 32) : Option (BitVec 32) :=
  let check := 1#32 <<< 31
  let s := uf &&& check
  let e := (uf >>> 23) &&& 0xFF#32
  let m := uf &&& 0x7FFFFF#32
  if e = 255#32 then some check
  else
    let E := if e ≠ 0#32 then e - 127#32 else -126#32
    if E.toInt > 30 then some check
    else if E.toInt < 0 then some 0#32
    else do
      let exp ← (if E.toInt > 22 then shl m (E - 23#32) else sar m (23#32 - E))
      let leading ← shl 1#32 E
      let exp := exp + leading
      pure (if s ≠ 0#32 then ~~~exp + 1#32 else exp)

/-! ## Fields -/

section Fields
variable (uf : BitVec 32)

lemma expField_toNat : ((uf >>> 23) &&& 0xFF#32).toNat = uf.toNat / 2 ^ 23 % 2 ^ 8 := by
  rw [BitVec.toNat_and, BitVec.toNat_ushiftRight, Nat.shiftRight_eq_div_pow,
    ← Nat.and_two_pow_sub_one_eq_mod]
  rfl

lemma fracField_toNat : (uf &&& 0x7FFFFF#32).toNat = uf.toNat % 2 ^ 23 := by
  rw [BitVec.toNat_and, ← Nat.and_two_pow_sub_one_eq_mod]
  rfl

lemma signField_eq : uf &&& 1#32 <<< 31 = if uf.toNat.testBit 31 then 1#32 <<< 31 else 0#32 :=
  BitVec.and_twoPow uf 31

/-- What the masks yield for a finite number. -/
lemma fields_toNat {uf : BitVec 32} {d : Datum single} (hd : decode single uf.toNat = some d) :
    (uf &&& 1#32 <<< 31).toNat = 2 ^ 31 * d.sign.toNat ∧
      ((uf >>> 23) &&& 0xFF#32).toNat = d.exp ∧ (uf &&& 0x7FFFFF#32).toNat = d.frac := by
  obtain ⟨hsign, hexp, hfrac⟩ := fields_of_decode hd
  refine ⟨?_, by rw [expField_toNat, hexp]; rfl, by rw [fracField_toNat, hfrac]; rfl⟩
  have hbit : uf.toNat.testBit 31 = d.sign := hsign.symm
  rw [signField_eq, hbit]
  cases d.sign <;> rfl

lemma exp_lt (d : Datum single) : d.exp < 255 := Nat.lt_pred_of_succ_lt d.exp_lt

lemma expField_ne {uf : BitVec 32} {d : Datum single} (hd : decode single uf.toNat = some d) :
    (uf >>> 23) &&& 0xFF#32 ≠ 255#32 := by
  rw [ne_eq, ← BitVec.toNat_inj, (fields_toNat hd).2.1]
  exact (exp_lt d).ne

/-- The exponent of a pattern that is not finite. -/
lemma expField_of_decode {uf : BitVec 32} (hd : decode single uf.toNat = none) :
    (uf >>> 23) &&& 0xFF#32 = 255#32 := by
  rw [← BitVec.toNat_inj, expField_toNat]
  exact decode_eq_none_iff.1 hd

end Fields

/-! ## Halving -/

/-- The last bit that is added rounds a half to even. -/
lemma round_half (n : ℕ) :
    2 * (n / 2 + (n &&& n / 2 &&& 1)) = n ∨
      Even (n / 2 + (n &&& n / 2 &&& 1)) ∧
        (2 * (n / 2 + (n &&& n / 2 &&& 1)) = n + 1 ∨
          2 * (n / 2 + (n &&& n / 2 &&& 1)) + 1 = n) := by
  have hand := @Nat.and_mod_two_eq_one n (n / 2)
  rw [Nat.and_one_is_mod, Nat.even_iff]
  omega

lemma floatHalf_small {uf : BitVec 32} {d : Datum single} (hd : decode single uf.toNat = some d)
    (hexp : d.exp ≤ 1) :
    (floatHalf uf).toNat =
      2 ^ 31 * d.sign.toNat + (d.units / 2 + (d.units &&& d.units / 2 &&& 1)) := by
  obtain ⟨hs, he, hm⟩ := fields_toNat hd
  have hfrac : d.frac < 2 ^ 23 := d.frac_lt
  have hunits : d.units = 2 ^ 23 * d.exp + d.frac := by
    rw [Datum.units_of_exp_le hexp, Datum.significand_of_exp_le hexp]
    rfl
  have hbit : d.units &&& d.units / 2 &&& 1 ≤ 1 := Nat.and_le_right
  unfold floatHalf
  have hne255 := expField_ne hd
  generalize (uf >>> 23) &&& 0xFF#32 = e at he hne255 ⊢
  have htemp : (if e ≠ 0#32 then e - 128#32 else -127#32) = -127#32 := by
    split_ifs with hne0
    · rw [ne_eq, ← BitVec.toNat_inj, he] at hne0
      have hpos : d.exp ≠ 0 := hne0
      rw [← BitVec.toNat_inj, BitVec.toNat_sub, he]
      exact (by omega : (2 ^ 32 - 128 + d.exp) % 2 ^ 32 = 2 ^ 32 - 127)
    · rfl
  have hshift : (e <<< 23).toNat = 2 ^ 23 * d.exp := by
    rw [toNat_shiftLeft (by omega), he, mul_comm]
  simp only [if_neg hne255, htemp, if_true]
  -- `n1` counts the quanta
  have hn1 : (e <<< 23 ||| uf &&& 0x7FFFFF#32).toNat = d.units := by
    rw [toNat_or hshift (by omega), hshift, hm, hunits]
  generalize e <<< 23 ||| uf &&& 0x7FFFFF#32 = n1 at hn1 ⊢
  have hm1 : (n1.sshiftRight 1).toNat = d.units / 2 := by
    rw [toNat_sshiftRight (by omega), hn1, pow_one]
  have hround : (n1 &&& n1.sshiftRight 1 &&& 1#32).toNat = d.units &&& d.units / 2 &&& 1 := by
    rw [BitVec.toNat_and, BitVec.toNat_and, hn1, hm1]
    rfl
  have hor : ((uf &&& 1#32 <<< 31) ||| n1.sshiftRight 1).toNat =
      2 ^ 31 * d.sign.toNat + d.units / 2 := by
    rw [toNat_or hs (by omega), hs, hm1]
  have hsign : d.sign.toNat ≤ 1 := Bool.toNat_le d.sign
  rw [toNat_add (by omega), hor, hround, add_assoc]

lemma floatHalf_large {uf : BitVec 32} {d : Datum single} (hd : decode single uf.toNat = some d)
    (hexp : 2 ≤ d.exp) :
    (floatHalf uf).toNat = 2 ^ 31 * d.sign.toNat + 2 ^ 23 * (d.exp - 1) + d.frac := by
  obtain ⟨hs, he, hm⟩ := fields_toNat hd
  have hlt := exp_lt d
  have hfrac : d.frac < 2 ^ 23 := d.frac_lt
  unfold floatHalf
  have hne255 := expField_ne hd
  generalize (uf >>> 23) &&& 0xFF#32 = e at he hne255 ⊢
  have hne0 : e ≠ 0#32 := by
    rw [ne_eq, ← BitVec.toNat_inj, he]
    exact (by omega : d.exp ≠ 0)
  -- `temp == -127` holds for the exponents 0 and 1 only
  have hne127 : e - 128#32 ≠ -127#32 := by
    rw [ne_eq, ← BitVec.toNat_inj, BitVec.toNat_sub, he]
    exact (by omega : (2 ^ 32 - 128 + d.exp) % 2 ^ 32 ≠ 2 ^ 32 - 127)
  have hfe : (127#32 + (e - 128#32)).toNat = d.exp - 1 := by
    rw [BitVec.toNat_add, BitVec.toNat_sub, he]
    exact (by omega : (127 + (2 ^ 32 - 128 + d.exp) % 2 ^ 32) % 2 ^ 32 = d.exp - 1)
  have hshift : ((127#32 + (e - 128#32)) <<< 23).toNat = (d.exp - 1) * 2 ^ 23 := by
    rw [toNat_shiftLeft (by omega), hfe]
  have hfield : (127#32 + (e - 128#32)) <<< 23 &&& ~~~(1#32 <<< 31) =
      (127#32 + (e - 128#32)) <<< 23 := by
    rw [← BitVec.toNat_inj, toNat_and_not_sign, Nat.mod_eq_of_lt (by omega)]
  simp only [if_neg hne255, if_pos hne0, if_neg hne127]
  rw [hfield]
  have hor : ((uf &&& 1#32 <<< 31) ||| (127#32 + (e - 128#32)) <<< 23).toNat =
      2 ^ 23 * (2 ^ 8 * d.sign.toNat + (d.exp - 1)) := by
    rw [toNat_or hs (by omega), hs, hshift]
    ring
  rw [toNat_or hor (by omega), hor, hm]
  ring

/-- **`float_half` is exact halving with rounding to nearest even.** -/
theorem floatHalf_nearest (uf : BitVec 32) :
    match decode single uf.toNat with
    | none => floatHalf uf = uf
    | some d => ∃ r : Datum single, decode single (floatHalf uf).toNat = some r ∧
        r.sign = d.sign ∧ IsNearestEven (d.value / 2) r := by
  cases hd : decode single uf.toNat with
  | none =>
    dsimp only
    rw [floatHalf, expField_of_decode hd]
    rfl
  | some d =>
    dsimp only
    by_cases hexp : d.exp ≤ 1
    · have hlt : d.units < 2 * 2 ^ 23 := by
        rw [Datum.units_of_exp_le hexp]
        exact Datum.significand_lt d
      have hround := round_half d.units
      have hhalf := floatHalf_small hd hexp
      generalize d.units / 2 + (d.units &&& d.units / 2 &&& 1) = n at hround hhalf
      obtain ⟨r, hsign, hsig, hunits, hencode⟩ :=
        exists_of_units (F := single) (by decide) d.sign (show n < 2 * 2 ^ 23 by omega)
      refine ⟨r, ?_, hsign, isNearestEven_div_two hsign ?_⟩
      · rw [hhalf, ← decode_encode r, hencode]
        congr 1
        exact congrArg (· + n) (by rw [← mul_assoc]; rfl)
      · rwa [hunits, hsig]
    · obtain ⟨r, hsign, hunits, hencode⟩ := exists_exp_pred (not_le.1 hexp)
      refine ⟨r, ?_, hsign, isNearestEven_div_two hsign (Or.inl hunits)⟩
      rw [floatHalf_large hd (not_le.1 hexp), ← decode_encode r, hencode]
      congr 1
      exact congrArg (· + d.frac) (by rw [mul_add, ← mul_assoc]; rfl)

/-! ## Truncation -/

lemma single_quantum : single.quantum * 2 ^ 149 = 1 := by
  unfold Format.quantum Format.bias single
  norm_num

/-- `E`, the true exponent. -/
lemma expValue {e : BitVec 32} (he : e.toNat < 255) :
    (if e ≠ 0#32 then e - 127#32 else -126#32).toInt =
      if e.toNat = 0 then -126 else (e.toNat : ℤ) - 127 := by
  have hzero : e = 0#32 ↔ e.toNat = 0 := BitVec.toNat_inj.symm
  simp only [ne_eq, ite_not, hzero]
  split_ifs with h
  · rfl
  · have hsub := toInt_sub e 127#32
    have heint : e.toInt = e.toNat := toInt_eq_toNat (by omega)
    have h127 : (127#32).toInt = 127 := rfl
    rw [heint, h127] at hsub
    split_ifs at hsub <;> omega

/-- The fraction is shifted to the binary point and the leading bit is added to it. -/
lemma shifted_fraction {e m : ℕ} (he : 127 ≤ e) :
    (2 ^ 23 + m) * 2 ^ (e - 1) / 2 ^ 149 =
      (if 150 ≤ e then m * 2 ^ (e - 150) else m / 2 ^ (150 - e)) + 2 ^ (e - 127) := by
  split_ifs with hlarge
  · -- the left shift loses nothing
    obtain ⟨k, rfl⟩ := Nat.exists_eq_add_of_le hlarge
    have hpow : (2 ^ 23 + m) * 2 ^ (150 + k - 1) = (2 ^ 23 + m) * 2 ^ k * 2 ^ 149 := by
      rw [mul_assoc, ← pow_add, show k + 149 = 150 + k - 1 by omega]
    rw [hpow, Nat.mul_div_cancel _ (by positivity), show 150 + k - 150 = k by omega,
      show 150 + k - 127 = 23 + k by omega, pow_add]
    ring
  · -- the right shift cuts the fraction, and the leading bit is a multiple of what it divides by
    obtain ⟨k, hk⟩ : ∃ k, 150 = e + k := Nat.exists_eq_add_of_le (by omega)
    have hpow : (2 : ℕ) ^ 149 = 2 ^ (e - 1) * 2 ^ k := by
      rw [← pow_add, show e - 1 + k = 149 by omega]
    have hlead : (2 : ℕ) ^ 23 = 2 ^ k * 2 ^ (e - 127) := by
      rw [← pow_add, show k + (e - 127) = 23 by omega]
    calc (2 ^ 23 + m) * 2 ^ (e - 1) / 2 ^ 149
        = 2 ^ (e - 1) * (2 ^ k * 2 ^ (e - 127) + m) / (2 ^ (e - 1) * 2 ^ k) := by
          rw [← hpow, ← hlead, mul_comm]
      _ = (2 ^ k * 2 ^ (e - 127) + m) / 2 ^ k := Nat.mul_div_mul_left _ _ (by positivity)
      _ = m / 2 ^ (150 - e) + 2 ^ (e - 127) := by
          rw [Nat.mul_add_div (by positivity), show 150 - e = k by omega, add_comm]

section Truncation
variable {uf : BitVec 32} {d : Datum single}

lemma le_truncated (h : 158 ≤ d.exp) : 2 ^ 31 ≤ d.units / 2 ^ 149 := by
  have hle : 2 ^ 23 * 2 ^ 157 ≤ d.units := Datum.le_units h
  rw [Nat.le_div_iff_mul_le (by positivity), ← pow_add]
  rwa [← pow_add] at hle

lemma truncated_lt (h : d.exp < 158) : d.units / 2 ^ 149 < 2 ^ 31 := by
  have hlt : d.units < 2 * 2 ^ 23 * 2 ^ 156 := Datum.units_lt (Nat.lt_succ_iff.1 h)
  rw [Nat.div_lt_iff_lt_mul (by positivity), ← pow_add]
  rwa [← pow_succ', ← pow_add] at hlt

lemma truncated_eq_zero (h : d.exp < 127) : d.units / 2 ^ 149 = 0 := by
  have hlt : d.units < 2 * 2 ^ 23 * 2 ^ 125 := Datum.units_lt (Nat.lt_succ_iff.1 h)
  rw [Nat.div_eq_zero_iff_lt (by positivity)]
  rwa [← pow_succ', ← pow_add] at hlt

/-- The function past the test for infinities and NaNs. -/
lemma floatF2i_finite (hd : decode single uf.toNat = some d) :
    ∃ s E m : BitVec 32, s.toNat = 2 ^ 31 * d.sign.toNat ∧
      E.toInt = (if d.exp = 0 then -126 else (d.exp : ℤ) - 127) ∧ m.toNat = d.frac ∧
      floatF2i uf =
        if E.toInt > 30 then some 0x80000000#32
        else if E.toInt < 0 then some 0#32
        else (do
          let exp ← (if E.toInt > 22 then shl m (E - 23#32) else sar m (23#32 - E))
          let leading ← shl 1#32 E
          let exp := exp + leading
          pure (if s ≠ 0#32 then ~~~exp + 1#32 else exp)) := by
  obtain ⟨hs, he, hm⟩ := fields_toNat hd
  have hE := expValue (he.trans_lt (exp_lt d))
  rw [he] at hE
  refine ⟨_, _, _, hs, hE, hm, ?_⟩
  unfold floatF2i
  simp only [if_neg (expField_ne hd)]
  rfl

lemma floatF2i_large (hd : decode single uf.toNat = some d) (hexp : 158 ≤ d.exp) :
    floatF2i uf = some 0x80000000#32 := by
  obtain ⟨s, E, m, -, hE, -, heq⟩ := floatF2i_finite hd
  rw [if_neg (by omega)] at hE
  rw [heq, if_pos (by omega)]

lemma floatF2i_small (hd : decode single uf.toNat = some d) (hexp : d.exp < 127) :
    floatF2i uf = some 0#32 := by
  obtain ⟨s, E, m, -, hE, -, heq⟩ := floatF2i_finite hd
  have hneg : E.toInt < 0 := by
    rw [hE]
    split_ifs <;> omega
  rw [heq, if_neg (by omega), if_pos hneg]

/-- The fraction at the binary point. -/
lemma exists_shifted {E m : BitVec 32} (hE : E.toInt = (d.exp : ℤ) - 127) (hm : m.toNat = d.frac)
    (h1 : 127 ≤ d.exp) (h2 : d.exp < 158) :
    ∃ x, (if E.toInt > 22 then shl m (E - 23#32) else sar m (23#32 - E)) = some x ∧
      x.toNat = if 150 ≤ d.exp then d.frac * 2 ^ (d.exp - 150) else d.frac / 2 ^ (150 - d.exp) := by
  have hfrac : d.frac < 2 ^ 23 := d.frac_lt
  have hEnat : E.toNat = d.exp - 127 := toNat_of_toInt (by omega)
  by_cases hlarge : 150 ≤ d.exp
  · have hcount : (E - 23#32).toNat = d.exp - 150 := by
      rw [BitVec.toNat_sub, hEnat]
      exact (by omega : (2 ^ 32 - 23 + (d.exp - 127)) % 2 ^ 32 = d.exp - 150)
    have hfit : m.toNat * 2 ^ (E - 23#32).toNat < 2 ^ 32 := by
      rw [hm, hcount]
      calc d.frac * 2 ^ (d.exp - 150) < 2 ^ 23 * 2 ^ 7 :=
            Nat.mul_lt_mul_of_lt_of_le hfrac (Nat.pow_le_pow_right two_pos (by omega))
              (by positivity)
        _ < 2 ^ 32 := by norm_num
    obtain ⟨x, hx, hxnat⟩ := exists_shl (by omega) hfit
    refine ⟨x, by rw [if_pos (by omega), hx], ?_⟩
    rw [hxnat, hm, hcount, if_pos hlarge]
  · have hcount : (23#32 - E).toNat = 150 - d.exp := by
      rw [BitVec.toNat_sub, hEnat]
      exact (by omega : (2 ^ 32 - (d.exp - 127) + 23) % 2 ^ 32 = 150 - d.exp)
    obtain ⟨x, hx, hxnat⟩ := exists_sar (x := m) (c := 23#32 - E) (by omega) (by omega)
    refine ⟨x, by rw [if_neg (by omega), hx], ?_⟩
    rw [hxnat, hm, hcount, if_neg hlarge]

lemma exists_floatF2i (hd : decode single uf.toNat = some d) (h1 : 127 ≤ d.exp)
    (h2 : d.exp < 158) :
    ∃ r, floatF2i uf = some r ∧ r.toInt =
      if d.sign then -((d.units / 2 ^ 149 : ℕ) : ℤ) else (d.units / 2 ^ 149 : ℕ) := by
  obtain ⟨s, E, m, hs, hE, hm, heq⟩ := floatF2i_finite hd
  rw [if_neg (by omega)] at hE
  have hEnat : E.toNat = d.exp - 127 := toNat_of_toInt (by omega)
  obtain ⟨x, hx, hxnat⟩ := exists_shifted hE hm h1 h2
  have hpow : (1#32).toNat * 2 ^ E.toNat < 2 ^ 32 := by
    rw [hEnat]
    calc 1 * 2 ^ (d.exp - 127) ≤ 1 * 2 ^ 30 :=
          Nat.mul_le_mul_left 1 (Nat.pow_le_pow_right two_pos (by omega))
      _ < 2 ^ 32 := by norm_num
  obtain ⟨leading, hleading, hleadingnat⟩ := exists_shl (by omega) hpow
  have hn := truncated_lt h2
  have hunits : d.units / 2 ^ 149 = x.toNat + leading.toNat := by
    rw [Datum.units_of_exp_pos (by omega), hxnat, hleadingnat, hEnat]
    exact (shifted_fraction h1).trans (congrArg _ (one_mul _).symm)
  have hsum : (x + leading).toInt = (d.units / 2 ^ 149 : ℕ) := by
    rw [toInt_eq_toNat (by rw [toNat_add (by omega)]; omega), toNat_add (by omega), hunits]
  refine ⟨_, by rw [heq, if_neg (by omega), if_neg (by omega), hx, hleading]; rfl, ?_⟩
  have hsign : s ≠ 0#32 ↔ d.sign = true := by
    rw [ne_eq, ← BitVec.toNat_inj, hs]
    cases d.sign <;> decide
  simp only [hsign]
  split_ifs
  · rw [← BitVec.neg_eq_not_add, BitVec.toInt_neg, hsum, bmod_cases (by omega) (by omega),
      if_neg (by omega), if_pos (by omega)]
  · exact hsum

end Truncation

/-- **`float_f2i` is exact truncation.** -/
theorem floatF2i_truncates (uf : BitVec 32) :
    ∃ r, floatF2i uf = some r ∧
      match decode single uf.toNat with
      | none => r = 0x80000000#32
      | some d =>
        if -2 ^ 31 ≤ trunc d.value ∧ trunc d.value ≤ 2 ^ 31 - 1 then r.toInt = trunc d.value
        else r = 0x80000000#32 := by
  cases hd : decode single uf.toNat with
  | none =>
    refine ⟨0x80000000#32, ?_, rfl⟩
    rw [floatF2i, expField_of_decode hd]
    rfl
  | some d =>
    dsimp only
    have htrunc := trunc_value single_quantum d
    by_cases hlarge : 158 ≤ d.exp
    · -- the truncation is out of range, or it is the least `int`, which is the same word
      have hn := le_truncated hlarge
      refine ⟨_, floatF2i_large hd hlarge, ?_⟩
      have hmin : (0x80000000#32).toInt = -2 ^ 31 := rfl
      split_ifs with hrange
      · rw [hmin]
        split_ifs at htrunc <;> omega
      · rfl
    have hn := truncated_lt (not_le.1 hlarge)
    have hrange : -2 ^ 31 ≤ trunc d.value ∧ trunc d.value ≤ 2 ^ 31 - 1 := by
      split_ifs at htrunc <;> omega
    obtain ⟨r, hr, hval⟩ : ∃ r, floatF2i uf = some r ∧ r.toInt = trunc d.value := by
      rw [htrunc]
      by_cases hsmall : d.exp < 127
      · refine ⟨_, floatF2i_small hd hsmall, ?_⟩
        rw [truncated_eq_zero hsmall]
        split_ifs <;> rfl
      · exact exists_floatF2i hd (not_lt.1 hsmall) (not_le.1 hlarge)
    exact ⟨r, hr, by rwa [if_pos hrange]⟩

end Datalab
end SystemsLabs
