import SystemsLabs.Integers.Int32

/-!
# bits.c, the puzzles on bits and bytes

`byteSwap` and `rotateRight` shift by counts that depend on their arguments. The counts of
`byteSwap` are below 32 for the byte numbers that it may be called with. `rotateRight` may be
called with 0 and then shifts by 32 bits (`rotateRight_eq`).
-/

namespace SystemsLabs
namespace Datalab

open Integers

/-! ## Bytes -/

/-- `byteSwap(x, n, m)`. -/
def byteSwap (x n m : BitVec 32) : Option (BitVec 32) := do
  let s1 := n <<< 3
  let s2 := m <<< 3
  let temp1 ← shl 0xFF#32 s1
  let temp2 ← shl 0xFF#32 s2
  let byte1 ← shl (← sar (temp1 &&& x) s1) s2
  let byte2 ← shl (← sar (temp2 &&& x) s2) s1
  some ((byte1 &&& temp2) ||| (byte2 &&& temp1) ||| ((~~~temp1 &&& ~~~temp2) &&& x))

/-- The byte with the number `k`, from the low end. -/
def byteAt (x : BitVec 32) (k : ℕ) : BitVec 8 := x.extractLsb' (8 * k) 8

section Bytes
variable {x n m w : BitVec 32}

/-- The mask of a byte. -/
lemma getLsbD_mask (s i : ℕ) :
    (0xFF#32 <<< s).getLsbD i = (decide (i < 32) && decide (s ≤ i) && decide (i < s + 8)) := by
  have hbyte : ∀ j : ℕ, (0xFF#32).getLsbD j = decide (j < 8) := by
    intro j
    by_cases hj : j < 32
    · interval_cases j <;> rfl
    · rw [BitVec.getLsbD_of_ge _ _ (by omega), decide_eq_false (by omega)]
  rw [BitVec.getLsbD_shiftLeft, hbyte, Bool.eq_iff_iff]
  simp only [Bool.and_eq_true, decide_eq_true_eq, Bool.not_eq_true', decide_eq_false_iff_not]
  omega

/-- A byte that is masked out, shifted to the low end and shifted up again. -/
lemma getLsbD_moved {s₁ s₂ : ℕ} (h₁ : s₁ ≤ 24) (i : ℕ) (hi : i < 32) :
    (((0xFF#32 <<< s₁ &&& x).sshiftRight s₁) <<< s₂ &&& 0xFF#32 <<< s₂).getLsbD i =
      (decide (s₂ ≤ i) && decide (i < s₂ + 8) && x.getLsbD (s₁ + (i - s₂))) := by
  rw [BitVec.getLsbD_and, getLsbD_mask, BitVec.getLsbD_shiftLeft]
  by_cases hlow : s₂ ≤ i
  · by_cases hhigh : i < s₂ + 8
    · rw [BitVec.getLsbD_sshiftRight, if_pos (by omega), BitVec.getLsbD_and, getLsbD_mask,
        decide_eq_true (by omega : s₁ + (i - s₂) < 32)]
      simp [hi, hlow, hhigh, show i - s₂ < 8 by omega,
        show ¬ 32 ≤ i - s₂ by omega]
    · simp [hhigh]
  · simp [hlow]

/-- The shifts of `byteSwap` are by eight bits for each byte. -/
lemma byteSwap_eq (hn : n.toNat < 4) (hm : m.toNat < 4) : byteSwap x n m = some
    (((0xFF#32 <<< (8 * n.toNat) &&& x).sshiftRight (8 * n.toNat)) <<< (8 * m.toNat) &&&
        0xFF#32 <<< (8 * m.toNat) |||
      ((0xFF#32 <<< (8 * m.toNat) &&& x).sshiftRight (8 * m.toNat)) <<< (8 * n.toNat) &&&
        0xFF#32 <<< (8 * n.toNat) |||
      ~~~(0xFF#32 <<< (8 * n.toNat)) &&& ~~~(0xFF#32 <<< (8 * m.toNat)) &&& x) := by
  have hcount : ∀ {c : BitVec 32}, c.toNat < 4 → (c <<< 3).toNat = 8 * c.toNat := by
    intro c hc
    rw [toNat_shiftLeft (by omega)]
    omega
  have hshl : ∀ {c : BitVec 32} (y : BitVec 32), c.toNat < 4 →
      shl y (c <<< 3) = some (y <<< (8 * c.toNat)) := by
    intro c y hc
    rw [shl, hcount hc, if_pos (by omega)]
  have hsar : ∀ {c : BitVec 32} (y : BitVec 32), c.toNat < 4 →
      sar y (c <<< 3) = some (y.sshiftRight (8 * c.toNat)) := by
    intro c y hc
    rw [sar, hcount hc, if_pos (by omega)]
  simp only [byteSwap, hshl _ hn, hshl _ hm, hsar _ hn, hsar _ hm, Option.bind_eq_bind,
    Option.bind_some]

/-- Each bit comes from the same place in its byte. -/
lemma getLsbD_byteSwap (hn : n.toNat < 4) (hm : m.toNat < 4) (hw : byteSwap x n m = some w)
    {i : ℕ} (hi : i < 32) :
    w.getLsbD i = x.getLsbD (8 * Equiv.swap n.toNat m.toNat (i / 8) + i % 8) := by
  rw [byteSwap_eq hn hm] at hw
  cases hw
  rw [BitVec.getLsbD_or, BitVec.getLsbD_or, getLsbD_moved (by omega) i hi,
    getLsbD_moved (by omega) i hi, BitVec.getLsbD_and, BitVec.getLsbD_and, BitVec.getLsbD_not,
    BitVec.getLsbD_not, getLsbD_mask, getLsbD_mask]
  have hsplit := Nat.div_add_mod i 8
  have hmod := Nat.mod_lt i (by decide : 0 < 8)
  -- the bit is in the one byte, in the other, or in neither
  by_cases hni : i / 8 = n.toNat
  · rw [hni, Equiv.swap_apply_left]
    by_cases hmi : i / 8 = m.toNat
    · have heq : 8 * n.toNat + (i - 8 * m.toNat) = 8 * m.toNat + i % 8 := by omega
      have heq' : 8 * m.toNat + (i - 8 * n.toNat) = 8 * m.toNat + i % 8 := by omega
      simp [heq, heq', hi, show 8 * m.toNat ≤ i by omega, show i < 8 * m.toNat + 8 by omega,
        show 8 * n.toNat ≤ i by omega, show i < 8 * n.toNat + 8 by omega]
    · have heq : 8 * m.toNat + (i - 8 * n.toNat) = 8 * m.toNat + i % 8 := by omega
      have hout : ¬ (8 * m.toNat ≤ i ∧ i < 8 * m.toNat + 8) := by omega
      simp [heq, hi, hout, ← Bool.decide_and, show 8 * n.toNat ≤ i by omega,
        show i < 8 * n.toNat + 8 by omega]
  · have hout : ¬ (8 * n.toNat ≤ i ∧ i < 8 * n.toNat + 8) := by omega
    by_cases hmi : i / 8 = m.toNat
    · rw [hmi, Equiv.swap_apply_right]
      have heq : 8 * n.toNat + (i - 8 * m.toNat) = 8 * n.toNat + i % 8 := by omega
      simp [heq, hi, hout, ← Bool.decide_and, show 8 * m.toNat ≤ i by omega,
        show i < 8 * m.toNat + 8 by omega]
    · rw [Equiv.swap_apply_of_ne_of_ne hni hmi, hsplit]
      have hout' : ¬ (8 * m.toNat ≤ i ∧ i < 8 * m.toNat + 8) := by omega
      simp [hi, hout, hout', ← Bool.decide_and]

end Bytes

/-- For byte numbers up to 3 no shift is out of range, the two bytes change places, the others
stay, and to swap twice is to do nothing. -/
theorem byteSwap_swaps (x n m : BitVec 32) (hn : n.toNat < 4) (hm : m.toNat < 4) :
    ∃ w, byteSwap x n m = some w ∧
      (∀ k < 4, byteAt w k = byteAt x (Equiv.swap n.toNat m.toNat k)) ∧
      byteSwap w n m = some x := by
  have hw := byteSwap_eq (x := x) hn hm
  set w := (((0xFF#32 <<< (8 * n.toNat) &&& x).sshiftRight (8 * n.toNat)) <<< (8 * m.toNat) &&&
        0xFF#32 <<< (8 * m.toNat) |||
      ((0xFF#32 <<< (8 * m.toNat) &&& x).sshiftRight (8 * m.toNat)) <<< (8 * n.toNat) &&&
        0xFF#32 <<< (8 * n.toNat) |||
      ~~~(0xFF#32 <<< (8 * n.toNat)) &&& ~~~(0xFF#32 <<< (8 * m.toNat)) &&& x)
  have hswap : ∀ k < 4, Equiv.swap n.toNat m.toNat k < 4 := by
    intro k hk
    rw [Equiv.swap_apply_def]
    split_ifs <;> omega
  refine ⟨w, hw, ?_, ?_⟩
  · intro k hk
    apply BitVec.eq_of_getLsbD_eq
    intro j hj
    have hdiv : (8 * k + j) / 8 = k := by omega
    have hmod : (8 * k + j) % 8 = j := by omega
    rw [byteAt, byteAt, BitVec.getLsbD_extractLsb', BitVec.getLsbD_extractLsb',
      getLsbD_byteSwap hn hm hw (by omega), hdiv, hmod]
  · have hw' := byteSwap_eq (x := w) hn hm
    rw [hw']
    refine congrArg some (BitVec.eq_of_getLsbD_eq fun i hi => ?_)
    have hlt := hswap (i / 8) (by omega)
    have hdiv : (8 * Equiv.swap n.toNat m.toNat (i / 8) + i % 8) / 8
        = Equiv.swap n.toNat m.toNat (i / 8) := by omega
    have hmod : (8 * Equiv.swap n.toNat m.toNat (i / 8) + i % 8) % 8 = i % 8 := by omega
    rw [getLsbD_byteSwap hn hm hw' hi, getLsbD_byteSwap hn hm hw (by omega), hdiv, hmod,
      Equiv.swap_apply_self, Nat.div_add_mod]

/-- The second example of the comment. -/
theorem byteSwap_swaps_deadbeef : ∃ w, byteSwap 0xDEADBEEF 0 2 = some w ∧
    (∀ k < 4, byteAt w k = byteAt 0xDEADBEEF (Equiv.swap 0 2 k)) ∧
    byteSwap w 0 2 = some 0xDEADBEEF :=
  byteSwap_swaps 0xDEADBEEF 0 2 (by decide) (by decide)

/-! ## Rotation -/

/-- `rotateRight(x, n)`. -/
def rotateRight (x n : BitVec 32) : Option (BitVec 32) := do
  let leftShift := 32#32 + (~~~n + 1#32)
  let temp := (← sar (~~~(1#32 <<< 31)) n) <<< 1 ||| 1#32
  let high ← shl x leftShift
  let low ← sar x n
  some (high ||| (low &&& temp))

/-- The mask of the bits that a right shift keeps. -/
lemma getLsbD_kept {n i : ℕ} (hn : n < 32) (hi : i < 32) :
    ((~~~(1#32 <<< 31)).sshiftRight n <<< 1 ||| 1#32).getLsbD i = decide (n + i < 32) := by
  have hmax : ∀ j < 32, (~~~(1#32 <<< 31)).getLsbD j = decide (j < 31) := by
    intro j hj
    interval_cases j <;> rfl
  have hmsb : (~~~(1#32 <<< 31)).msb = false := rfl
  have hone : ∀ j < 32, (1#32).getLsbD j = decide (j = 0) := by
    intro j hj
    interval_cases j <;> rfl
  rw [BitVec.getLsbD_or, BitVec.getLsbD_shiftLeft, BitVec.getLsbD_sshiftRight, hmsb, hone i hi]
  by_cases hi0 : i = 0
  · simp [hi0, hn]
  · split_ifs with hlt
    · rw [hmax _ hlt, Bool.eq_iff_iff]
      simp only [Bool.or_eq_true, Bool.and_eq_true, decide_eq_true_eq, Bool.not_eq_true',
        decide_eq_false_iff_not]
      omega
    · simp [hi0, show ¬ n + i < 32 by omega]

/-- `rotateRight` rotates for the counts from 1 to 31. For 0, which its comment allows, it shifts
by 32 bits, and so does it for the counts from 32 on. -/
theorem rotateRight_eq (x n : BitVec 32) : rotateRight x n =
    if 0 < n.toNat ∧ n.toNat < 32 then some (x.rotateRight n.toNat) else none := by
  have hsub : (32#32 + (~~~n + 1#32)) = 32#32 - n := add_not_add_one 32#32 n
  have hlt := n.isLt
  unfold rotateRight
  rw [hsub]
  by_cases hn : n.toNat < 32
  · have hsar : ∀ y, sar y n = some (y.sshiftRight n.toNat) := fun y => if_pos hn
    have hleft : (32#32 - n).toNat = 32 - n.toNat := by
      rw [BitVec.toNat_sub]
      have h32 : (32#32).toNat = 32 := rfl
      omega
    simp only [hsar, Option.bind_eq_bind, Option.bind_some]
    by_cases hpos : 0 < n.toNat
    · rw [if_pos ⟨hpos, hn⟩, shl, hleft, if_pos (by omega), Option.bind_some]
      refine congrArg some (BitVec.eq_of_getLsbD_eq fun i hi => ?_)
      rw [BitVec.getLsbD_or, BitVec.getLsbD_and, getLsbD_kept hn hi, BitVec.getLsbD_shiftLeft,
        BitVec.getLsbD_sshiftRight, BitVec.getLsbD_rotateRight_of_lt hn]
      by_cases hlow : i < 32 - n.toNat
      · simp [hlow, hi, show n.toNat + i < 32 by omega]
      · simp [hlow, hi, show ¬ n.toNat + i < 32 by omega]
    · rw [if_neg (by omega), shl, hleft, if_neg (by omega), Option.bind_none]
  · rw [if_neg (by omega), sar, if_neg hn]
    rfl

/-! ## Tests and constants -/

/-- `evenBits()`. -/
def evenBits : BitVec 32 := 0x55#32 <<< 24 ||| 0x55#32 <<< 16 ||| 0x55#32 <<< 8 ||| 0x55#32

/-- `isEqual(x, y)`. -/
def isEqual (x y : BitVec 32) : BitVec 32 := lnot (x ^^^ y)

/-- `logicalNeg(x)`. -/
def logicalNeg (x : BitVec 32) : BitVec 32 :=
  let check := 1#32 <<< 31
  (((x &&& ~~~check) + ~~~0#32 &&& check).sshiftRight 31 &&& 1#32) &&& (x.sshiftRight 31 + 1#32)

/-- `tmax()`. -/
def tmax : BitVec 32 := ~~~(1#32 <<< 31)

/-- `sign(x)`. -/
def sign (x : BitVec 32) : BitVec 32 :=
  lnot (lnot x) ||| (x &&& 1#32 <<< 31).sshiftRight 31

section Signs
variable (x : BitVec 32)

lemma msb_eq : x.msb = decide (x.toInt < 0) := BitVec.msb_eq_toInt

/-- A right shift by 31 bits spreads the sign over the word. -/
lemma sshiftRight_all : x.sshiftRight 31 = if x.toInt < 0 then ~~~0#32 else 0#32 := by
  apply BitVec.eq_of_getLsbD_eq
  intro i hi
  have hbit : (if 31 + i < 32 then x.getLsbD (31 + i) else x.msb) = x.msb := by
    split_ifs with hi0
    · obtain rfl : i = 0 := by omega
      exact (BitVec.msb_eq_getLsbD_last x).symm
    · rfl
  rw [BitVec.getLsbD_sshiftRight, hbit, decide_eq_false (by omega : ¬ 32 ≤ i), msb_eq]
  by_cases hneg : x.toInt < 0
  · rw [if_pos hneg, decide_eq_true hneg, BitVec.getLsbD_not, decide_eq_true hi]
    simp
  · simp [hneg]

/-- Nothing but the sign has the sign of the word. -/
lemma sign_and : (x &&& 1#32 <<< 31).toInt < 0 ↔ x.toInt < 0 := by
  have hmask : (1#32 <<< 31).msb = true := rfl
  have hmsb := BitVec.msb_and (x := x) (y := 1#32 <<< 31)
  rw [hmask, Bool.and_true, msb_eq, msb_eq] at hmsb
  exact decide_eq_decide.1 hmsb

lemma sshiftRight_sign : (x &&& 1#32 <<< 31).sshiftRight 31 =
    if x.toInt < 0 then ~~~0#32 else 0#32 := by
  rw [sshiftRight_all]
  simp only [sign_and]

/-- The word without its sign is the one word that becomes negative when 1 is taken away. -/
lemma logicalNeg_eq : logicalNeg x = lnot x := by
  have hx := toInt_bounds x
  have hnat := toNat_and_not_sign x
  have hcond := BitVec.toInt_eq_toNat_cond x
  have hlt := x.isLt
  set y := x &&& ~~~(1#32 <<< 31)
  have hy : y.toInt = y.toNat := toInt_eq_toNat (by omega)
  have hpred := toInt_add y (~~~0#32)
  have hone : (~~~0#32).toInt = -1 := by decide
  rw [hone, hy] at hpred
  have hfirst : (y + ~~~0#32 &&& 1#32 <<< 31).sshiftRight 31 &&& 1#32 = flag (y.toNat = 0) := by
    rw [sshiftRight_sign]
    by_cases hzero : y.toNat = 0
    · rw [if_pos (by split_ifs at hpred <;> omega), flag_pos hzero]
      rfl
    · rw [if_neg (by split_ifs at hpred <;> omega), flag_neg hzero]
      rfl
  have hsecond : x.sshiftRight 31 + 1#32 = flag (0 ≤ x.toInt) := by
    rw [sshiftRight_all]
    by_cases hneg : x.toInt < 0
    · rw [if_pos hneg, flag_neg (by omega)]
      rfl
    · rw [if_neg hneg, flag_pos (by omega)]
      rfl
  change (y + ~~~0#32 &&& 1#32 <<< 31).sshiftRight 31 &&& 1#32 &&& x.sshiftRight 31 + 1#32 = _
  rw [hfirst, hsecond, flag_and, lnot]
  apply flag_congr
  rw [← BitVec.toNat_inj]
  simp only [BitVec.toNat_ofNat]
  split_ifs at hcond <;> omega

lemma sign_eq : (sign x).toInt = x.toInt.sign := by
  unfold sign
  rw [lnot_lnot, sshiftRight_sign]
  rcases lt_trichotomy x.toInt 0 with hneg | hzero | hpos
  · rw [if_pos hneg, Int.sign_eq_neg_one_of_neg hneg, show ~~~0#32 = BitVec.allOnes 32 from rfl,
      BitVec.or_allOnes]
    rfl
  · have hx : x = 0#32 := BitVec.eq_of_toInt_eq hzero
    rw [if_neg (by omega), flag_neg (by simp [hx]), hzero]
    rfl
  · have hx : x ≠ 0#32 := by
      rintro rfl
      simp at hpos
    rw [if_neg (by omega), flag_pos hx, Int.sign_eq_one_of_pos hpos]
    rfl

/-- The other integer puzzles return what their comments say: the even bits, whether two words
are equal, the logical negation, the largest word and the sign of a word. -/
theorem words_as_documented (y : BitVec 32) :
    (∀ i < 32, evenBits.getLsbD i = decide (Even i)) ∧ isEqual x y = flag (x = y) ∧
      logicalNeg x = lnot x ∧ x.toInt ≤ tmax.toInt ∧ (sign x).toInt = x.toInt.sign := by
  refine ⟨?_, ?_, logicalNeg_eq x, ?_, sign_eq x⟩
  · intro i hi
    interval_cases i <;> rfl
  · exact flag_congr BitVec.xor_eq_zero_iff
  · have hmax : tmax.toInt = 2 ^ 31 - 1 := by decide
    have hx := toInt_bounds x
    omega

end Signs

end Datalab
end SystemsLabs
