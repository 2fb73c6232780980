import Mathlib.Tactic

/-!
# Numbers as `scanf` reads them

`%d` and `%x` skip white space and take a sign and as many digits as there are. What has been
taken stays taken, also where it is no number.
-/

namespace SystemsLabs
namespace Posix

/-- `isspace(c)`. -/
def isWhite (c : Char) : Bool := c = ' ' ∨ ('\t' ≤ c ∧ c ≤ '\r')

/-- The value of a digit in the bases up to 16. -/
def digitValue (c : Char) : Option ℕ :=
  if '0' ≤ c ∧ c ≤ '9' then some (c.toNat - '0'.toNat)
  else if 'a' ≤ c ∧ c ≤ 'f' then some (c.toNat - 'a'.toNat + 10)
  else if 'A' ≤ c ∧ c ≤ 'F' then some (c.toNat - 'A'.toNat + 10)
  else none

def isDigitOf (base : ℕ) (c : Char) : Bool := (digitValue c).any (· < base)

/-- The number that digits stand for. -/
def number (base : ℕ) (digits : List Char) : ℕ :=
  digits.foldl (fun n c => base * n + (digitValue c).getD 0) 0

/-- A sign, if there is one: whether it is a minus, and what follows. -/
def scanSign : List Char → Bool × List Char
  | '-' :: input => (true, input)
  | '+' :: input => (false, input)
  | input => (false, input)

/-- The `0x` that may stand in front of hexadecimal digits. -/
def skipHexPrefix : List Char → List Char
  | '0' :: 'x' :: input => input
  | '0' :: 'X' :: input => input
  | input => input

/-- `%d` for the base 10 and `%x` for the base 16: the number, if there is one, and what is left of
the input. -/
def scanNumber (base : ℕ) (input : List Char) : Option ℤ × List Char :=
  let (minus, input) := scanSign (input.dropWhile isWhite)
  let input := if base = 16 then skipHexPrefix input else input
  let digits := input.takeWhile (isDigitOf base)
  let rest := input.dropWhile (isDigitOf base)
  if digits = [] then (none, rest)
  else (some (if minus then -number base digits else number base digits), rest)

variable {base n : ℕ} {c : Char} {white digits rest : List Char}

/-! ## Reading digits -/

lemma digit_bounds (h : isDigitOf base c) : '0' ≤ c ∧ c ≤ 'f' := by
  unfold isDigitOf digitValue at h
  split_ifs at h with h1 h2 h3
  · exact ⟨h1.1, Char.le_trans h1.2 (by decide)⟩
  · exact ⟨Char.le_trans (by decide) h2.1, h2.2⟩
  · exact ⟨Char.le_trans (by decide) h3.1, Char.le_trans h3.2 (by decide)⟩
  · simp at h

/-- A digit is no white space, no sign and no part of `0x` but the `0`. -/
lemma digit_ne (h : isDigitOf base c) :
    isWhite c = false ∧ c ≠ '-' ∧ c ≠ '+' ∧ c ≠ 'x' ∧ c ≠ 'X' := by
  obtain ⟨hlow, hhigh⟩ := digit_bounds h
  refine ⟨?_, ?_, ?_, ?_, ?_⟩
  · rw [isWhite, decide_eq_false_iff_not]
    rintro (rfl | ⟨-, hc⟩)
    · exact absurd hlow (by decide)
    · exact absurd (Char.le_trans hlow hc) (by decide)
  · rintro rfl
    exact absurd hlow (by decide)
  · rintro rfl
    exact absurd hlow (by decide)
  · rintro rfl
    exact absurd hhigh (by decide)
  · rintro rfl
    have hvalue : digitValue 'X' = none := by decide
    simp [isDigitOf, hvalue] at h

/-- A number may come without a sign. -/
lemma scanSign_digit (h : isDigitOf base c) : scanSign (c :: rest) = (false, c :: rest) := by
  obtain ⟨-, hminus, hplus, -⟩ := digit_ne h
  rw [scanSign]
  · exact fun input heq => hminus (List.head_eq_of_cons_eq heq)
  · exact fun input heq => hplus (List.head_eq_of_cons_eq heq)

/-- Digits are not taken for a `0x`. -/
lemma skipHexPrefix_digits (h : ∀ d ∈ digits, isDigitOf base d)
    (hrest : ∀ d ∈ rest.head?, d ≠ 'x' ∧ d ≠ 'X') :
    skipHexPrefix (c :: (digits ++ rest)) = c :: (digits ++ rest) := by
  have hsecond : ∀ d ∈ (digits ++ rest).head?, d ≠ 'x' ∧ d ≠ 'X' := by
    intro d hd
    cases digits with
    | nil => exact hrest d hd
    | cons e digits =>
      obtain rfl : e = d := Option.some.inj hd
      obtain ⟨-, -, -, hx⟩ := digit_ne (h e List.mem_cons_self)
      exact hx
  rw [skipHexPrefix]
  · rintro input heq
    exact (hsecond 'x' (by rw [List.tail_eq_of_cons_eq heq]; rfl)).1 rfl
  · rintro input heq
    exact (hsecond 'X' (by rw [List.tail_eq_of_cons_eq heq]; rfl)).2 rfl

/-- Digits behind white space are read as their number. -/
theorem scanNumber_digits (hwhite : ∀ d ∈ white, isWhite d) (hne : digits ≠ [])
    (hdigits : ∀ d ∈ digits, isDigitOf base d)
    (hrest : ∀ d ∈ rest.head?, isDigitOf base d = false ∧ d ≠ 'x' ∧ d ≠ 'X') :
    scanNumber base (white ++ digits ++ rest) = (some (number base digits : ℤ), rest) := by
  obtain ⟨c, more, rfl⟩ := List.exists_cons_of_ne_nil hne
  obtain ⟨hc, hmore⟩ := List.forall_mem_cons.1 hdigits
  have hskip : (white ++ c :: more ++ rest).dropWhile isWhite = c :: (more ++ rest) := by
    rw [List.append_assoc, List.dropWhile_append_of_pos hwhite, List.cons_append,
      List.dropWhile_cons_of_neg (by simp [(digit_ne hc).1])]
  have hskipped : (if base = 16 then skipHexPrefix (c :: (more ++ rest)) else c :: (more ++ rest)) =
      (c :: more) ++ rest := by
    rw [skipHexPrefix_digits hmore fun d hd => (hrest d hd).2, ite_self, List.cons_append]
  have hstop : rest.takeWhile (isDigitOf base) = [] ∧ rest.dropWhile (isDigitOf base) = rest := by
    cases rest with
    | nil => exact ⟨rfl, rfl⟩
    | cons d rest =>
      have hd : ¬ isDigitOf base d := by simp [(hrest d rfl).1]
      exact ⟨List.takeWhile_cons_of_neg hd, List.dropWhile_cons_of_neg hd⟩
  rw [scanNumber, hskip, scanSign_digit hc]
  dsimp only
  rw [hskipped, List.takeWhile_append_of_pos hdigits, List.dropWhile_append_of_pos hdigits, hstop.1,
    hstop.2, List.append_nil, if_neg hne]
  rfl

/-- A sign uses up some of the input. -/
lemma length_scanSign_le (input : List Char) : (scanSign input).2.length ≤ input.length := by
  rw [scanSign.eq_def]
  split <;> simp

/-- So does `0x`. -/
lemma length_skipHexPrefix_le (input : List Char) : (skipHexPrefix input).length ≤ input.length := by
  rw [skipHexPrefix.eq_def]
  split <;> simp <;> omega

/-- A number takes from the front of the input. -/
lemma length_scanNumber_le (base : ℕ) (input : List Char) :
    (scanNumber base input).2.length ≤ input.length := by
  have hsign := length_scanSign_le (input.dropWhile isWhite)
  have hwhite := (List.dropWhile_suffix isWhite (l := input)).length_le
  have hskip := length_skipHexPrefix_le (scanSign (input.dropWhile isWhite)).2
  rw [scanNumber]
  dsimp only
  generalize (scanSign (input.dropWhile isWhite)).2 = signed at hsign hskip ⊢
  have hdrop : ∀ rest : List Char, (rest.dropWhile (isDigitOf base)).length ≤ rest.length :=
    fun rest => (List.dropWhile_suffix _).length_le
  have hsource : (if base = 16 then skipHexPrefix signed else signed).length ≤ signed.length := by
    split_ifs
    · exact hskip
    · exact le_rfl
  have hall := hdrop (if base = 16 then skipHexPrefix signed else signed)
  split_ifs at hall hsource ⊢ <;> simp only at hall ⊢ <;> omega

/-! ## Writing digits -/

/-- A digit is read back. -/
lemma digitValue_digitChar (h : n < 16) : digitValue n.digitChar = some n := by
  interval_cases n <;> decide

/-- The digits of a number are digits of its base. -/
lemma isDigitOf_toDigits (hbase : 1 < base) (hle : base ≤ 16) :
    ∀ d ∈ Nat.toDigits base n, isDigitOf base d := by
  induction n using Nat.strong_induction_on with
  | _ n ih =>
  have hdigit : ∀ k < base, isDigitOf base k.digitChar := by
    intro k hk
    rw [isDigitOf, digitValue_digitChar (by omega)]
    simpa using hk
  by_cases h : n < base
  · rw [Nat.toDigits_of_lt_base h]
    simpa using hdigit n h
  · rw [Nat.toDigits_of_base_le hbase (not_lt.1 h)]
    intro d hd
    rcases List.mem_append.1 hd with hd | hd
    · exact ih (n / base) (Nat.div_lt_self (by omega) hbase) d hd
    · rw [List.mem_singleton.1 hd]
      exact hdigit _ (Nat.mod_lt n (by omega))

/-- Digits stand for the number that has been written. -/
theorem number_toDigits (hbase : 1 < base) (hle : base ≤ 16) (n : ℕ) :
    number base (Nat.toDigits base n) = n := by
  induction n using Nat.strong_induction_on with
  | _ n ih =>
  by_cases h : n < base
  · rw [Nat.toDigits_of_lt_base h]
    simp [number, digitValue_digitChar (show n < 16 by omega)]
  · have hmod := Nat.mod_lt n (show 0 < base by omega)
    have hrest := ih (n / base) (Nat.div_lt_self (by omega) hbase)
    rw [Nat.toDigits_of_base_le hbase (not_lt.1 h), number, List.foldl_append]
    rw [number] at hrest
    rw [hrest, List.foldl_cons, List.foldl_nil, digitValue_digitChar (by omega), Option.getD_some,
      Nat.div_add_mod]

end Posix
end SystemsLabs
