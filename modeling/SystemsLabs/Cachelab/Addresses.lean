import SystemsLabs.Cachelab.Csim

/-!
# Trace addresses

A trace gives its addresses in 64 bits and the simulator works on the low 32 of them. Two
accesses should meet in one line of the cache exactly when they touch the same block of `2^b`
bytes, and no access should leave the two arrays that the set index selects from.
-/

namespace SystemsLabs
namespace Cachelab

/-- A line of a trace file: the kind of the access and the address as it is written. -/
structure Access where
  id : Char
  addr : BitVec 64

/-- What `fscanf` stores for a line; `%x` keeps the low bits of the number. -/
def Access.scan (a : Access) : TraceLine := ⟨a.id, a.addr.setWidth 32⟩

/-- The check of the parameters in `main` lets them pass. -/
def Args.Accepted (args : Args) : Prop := ¬ (args.s < 0 ∨ args.E < 0 ∨ args.b < 0)

/-- The accesses of a trace that the loop does not skip. -/
def dataAccesses (trace : List Access) : List Access := trace.filter (·.id ≠ 'I')

/-- The index is one of `initSet`, which has 32 entries, and of `cache`, which has `S`. -/
def ValidIndex (s : ℤ) (i : ℕ) : Prop := i < 32 ∧ i < oneShl s

/-- The block of an access is what its address is without the low `b` bits. -/
def SameBlock (b : ℤ) (x y : Access) : Prop :=
  x.addr >>> b.toNat = y.addr >>> b.toNat

/-- Two accesses are looked for in the same set and under the same tag. -/
def SameLine (s b : ℤ) (x y : Access) : Prop :=
  setIndex s b x.scan.addr = setIndex s b y.scan.addr ∧
    tagOf s b x.scan.addr = tagOf s b y.scan.addr

/-- The addresses of the trace are taken apart as they should be. -/
structure Decomposes (args : Args) (trace : List Access) : Prop where
  valid : ∀ x ∈ dataAccesses trace, ValidIndex args.s (setIndex args.s args.b x.scan.addr)
  line : ∀ x ∈ dataAccesses trace, ∀ y ∈ dataAccesses trace,
    SameLine args.s args.b x y ↔ SameBlock args.b x y

/-- What the traces have in common on which the simulator does so. -/
structure Separable (args : Args) (trace : List Access) : Prop where
  /-- `S` is not negative -/
  size : ∀ _ ∈ dataAccesses trace, args.s ≤ 30
  /-- only the first 32 sets are used -/
  low : ∀ x ∈ dataAccesses trace, x.addr.toNat / 2 ^ args.b.toNat % 2 ^ args.s.toNat < 32
  /-- blocks that agree up to bit 31 agree in all bits -/
  high : ∀ x ∈ dataAccesses trace, ∀ y ∈ dataAccesses trace,
    x.addr.toNat % 2 ^ 32 / 2 ^ args.b.toNat = y.addr.toNat % 2 ^ 32 / 2 ^ args.b.toNat →
      x.addr.toNat / 2 ^ 32 = y.addr.toNat / 2 ^ 32
  /-- without index and offset bits the tag mask is zero, and there is one block only -/
  single : args.s + args.b = 0 →
    ∀ x ∈ dataAccesses trace, ∀ y ∈ dataAccesses trace, x.addr = y.addr

section Bits

variable {s b : ℕ}

lemma sameBlock_iff (x y : Access) :
    SameBlock b x y ↔ x.addr.toNat / 2 ^ b = y.addr.toNat / 2 ^ b := by
  rw [SameBlock, Int.toNat_natCast, ← BitVec.toNat_inj, BitVec.toNat_ushiftRight,
    BitVec.toNat_ushiftRight, Nat.shiftRight_eq_div_pow, Nat.shiftRight_eq_div_pow]

lemma toNat_scan (x : Access) : x.scan.addr.toNat = x.addr.toNat % 2 ^ 32 :=
  BitVec.toNat_setWidth 32 x.addr

/-- Dividing by a power of two only loses low bits, so it commutes with cutting off high ones. -/
lemma mod_div_two_pow (n : ℕ) {b k : ℕ} (h : b ≤ k) :
    n % 2 ^ k / 2 ^ b = n / 2 ^ b % 2 ^ (k - b) := by
  rw [show 2 ^ k = 2 ^ b * 2 ^ (k - b) by rw [← pow_add, Nat.add_sub_cancel' h]]
  exact Nat.mod_mul_right_div_self n (2 ^ b) (2 ^ (k - b))

/-- The bits of a set index are among those that `fscanf` keeps. -/
lemma setIndex_scan (h : s + b ≤ 31) (x : Access) :
    setIndex s b x.scan.addr = x.addr.toNat / 2 ^ b % 2 ^ s := by
  have hdvd : 2 ^ s ∣ 2 ^ (32 - b) := pow_dvd_pow 2 (by omega)
  rw [setIndex_eq (by omega) (by omega), toNat_scan, mod_div_two_pow _ (by omega),
    Nat.mod_mod_of_dvd _ hdvd]

lemma validIndex_iff (h : s + b ≤ 31) (x : Access) :
    ValidIndex s (setIndex s b x.scan.addr) ↔
      s ≤ 30 ∧ x.addr.toNat / 2 ^ b % 2 ^ s < 32 := by
  rw [setIndex_scan h, ValidIndex]
  by_cases hs : s ≤ 30
  · -- `S` is the number of values that the index bits take
    have hlt : x.addr.toNat / 2 ^ b % 2 ^ s < 2 ^ s := Nat.mod_lt _ (by positivity)
    have hS : ((x.addr.toNat / 2 ^ b % 2 ^ s : ℕ) : ℤ) < oneShl s := by
      rw [oneShl_of_lt (by omega)]
      exact_mod_cast hlt
    exact ⟨fun hi => ⟨hs, hi.1⟩, fun hi => ⟨hi.2, hS⟩⟩
  · -- `1 << 31` is negative
    obtain rfl : s = 31 := by omega
    have hS : oneShl (31 : ℕ) < 0 := by decide
    constructor
    · intro hi
      omega
    · intro hi
      omega

/-- Set index and tag together are all bits above the block offset that `fscanf` keeps. -/
lemma sameLine_iff (h1 : 1 ≤ s + b) (h : s + b ≤ 31) (x y : Access) :
    SameLine s b x y ↔
      x.addr.toNat % 2 ^ 32 / 2 ^ b = y.addr.toNat % 2 ^ 32 / 2 ^ b := by
  have hsplit : ∀ z : Access, z.addr.toNat % 2 ^ 32 / 2 ^ b =
      2 ^ s * (tagOf s b z.scan.addr).toNat + setIndex s b z.scan.addr := by
    intro z
    rw [toNat_tagOf h1 (by omega), setIndex_eq (by omega) (by omega), toNat_scan,
      Nat.add_comm s b, pow_add, ← Nat.div_div_eq_div_mul]
    exact (Nat.div_add_mod _ _).symm
  rw [SameLine, ← BitVec.toNat_inj]
  constructor
  · rintro ⟨hindex, htag⟩
    rw [hsplit x, hsplit y, hindex, htag]
  · intro heq
    rw [toNat_tagOf h1 (by omega), toNat_tagOf h1 (by omega), setIndex_eq (by omega) (by omega),
      setIndex_eq (by omega) (by omega), toNat_scan, toNat_scan, Nat.add_comm s b, pow_add,
      ← Nat.div_div_eq_div_mul, ← Nat.div_div_eq_div_mul, heq]
    exact ⟨rfl, rfl⟩

/-- Without index and offset bits every access is looked for under tag zero in set zero. -/
lemma sameLine_zero (x y : Access) : SameLine 0 0 x y := by
  have hindex : ∀ z : Access, setIndex 0 0 z.scan.addr = 0 := by
    intro z
    exact (setIndex_scan (s := 0) (b := 0) (by omega) z).trans (Nat.mod_one _)
  have htag : ∀ z : Access, tagOf 0 0 z.scan.addr = 0 := by
    intro z
    rw [tagOf, show BitVec.ofInt 32 (wrap (oneShl (64 - (0 + 0)) - 1)) = 0 by decide]
    exact BitVec.zero_and
  exact ⟨by rw [hindex, hindex], by rw [htag, htag]⟩

/-- A block is given by its bits up to 31 and by the bits that `fscanf` drops. -/
lemma div_eq_iff_of_le {m n b k : ℕ} (h : b ≤ k) :
    m / 2 ^ b = n / 2 ^ b ↔
      m % 2 ^ k / 2 ^ b = n % 2 ^ k / 2 ^ b ∧ m / 2 ^ k = n / 2 ^ k := by
  have hpow : 2 ^ k = 2 ^ b * 2 ^ (k - b) := by rw [← pow_add, Nat.add_sub_cancel' h]
  rw [mod_div_two_pow m h, mod_div_two_pow n h, hpow, ← Nat.div_div_eq_div_mul,
    ← Nat.div_div_eq_div_mul]
  constructor
  · intro heq
    rw [heq]
    exact ⟨rfl, rfl⟩
  · rintro ⟨hmod, hdiv⟩
    rw [← Nat.div_add_mod (m / 2 ^ b) (2 ^ (k - b)), hdiv, hmod, Nat.div_add_mod]

/-- All accesses share one line without index and offset bits, so they have to be in one block,
which is one byte. -/
lemma decomposes_zero_iff (E : ℤ) (t : Option String) (trace : List Access) :
    Decomposes ⟨0, E, 0, t⟩ trace ↔ Separable ⟨0, E, 0, t⟩ trace := by
  constructor
  · intro h
    have hsame : ∀ x ∈ dataAccesses trace, ∀ y ∈ dataAccesses trace, x.addr = y.addr := by
      intro x hx y hy
      have := (sameBlock_iff (b := 0) x y).1 ((h.line x hx y hy).1 (sameLine_zero x y))
      rw [pow_zero, Nat.div_one, Nat.div_one] at this
      exact BitVec.eq_of_toNat_eq this
    exact
      { size := fun x hx => by simp
        low := fun x hx => by simp [Nat.mod_one]
        high := fun x hx y hy _ => by rw [hsame x hx y hy]
        single := fun _ => hsame }
  · intro h
    refine ⟨fun x hx => ?_, fun x hx y hy => ?_⟩
    · exact (validIndex_iff (s := 0) (b := 0) (by omega) x).2 ⟨by omega, by simp [Nat.mod_one]⟩
    · have heq := h.single (by simp) x hx y hy
      exact ⟨fun _ => by rw [SameBlock, heq], fun _ => sameLine_zero x y⟩

/-- With index or offset bits a line stands for the bits of a block that `fscanf` keeps. -/
lemma decomposes_pos_iff (h1 : 1 ≤ s + b) (hsb : s + b ≤ 31) (E : ℤ) (t : Option String)
    (trace : List Access) : Decomposes ⟨s, E, b, t⟩ trace ↔ Separable ⟨s, E, b, t⟩ trace := by
  constructor
  · intro h
    exact
      { size := fun x hx => by
          have hle := ((validIndex_iff hsb x).1 (h.valid x hx)).1
          change (s : ℤ) ≤ 30
          exact_mod_cast hle
        low := fun x hx => ((validIndex_iff hsb x).1 (h.valid x hx)).2
        high := fun x hx y hy heq => by
          have hblock := (h.line x hx y hy).1 ((sameLine_iff h1 hsb x y).2 heq)
          exact ((div_eq_iff_of_le (by omega)).1 ((sameBlock_iff x y).1 hblock)).2
        single := fun h0 => absurd h0 (by simp only; omega) }
  · intro h
    refine ⟨fun x hx => ?_, fun x hx y hy => ?_⟩
    · have hle : (s : ℤ) ≤ 30 := h.size x hx
      exact (validIndex_iff hsb x).2 ⟨by exact_mod_cast hle, h.low x hx⟩
    · change SameLine (s : ℤ) (b : ℤ) x y ↔ SameBlock (b : ℤ) x y
      rw [sameLine_iff h1 hsb, sameBlock_iff,
        div_eq_iff_of_le (m := x.addr.toNat) (k := 32) (by omega)]
      exact ⟨fun heq => ⟨heq, h.high x hx y hy heq⟩, And.left⟩

end Bits

/-- The simulator takes the addresses of a trace apart as it should exactly when it stays in the
first 32 of at most `2^30` sets and no two blocks differ in bits above bit 31 only. -/
theorem decomposes_iff (args : Args) (ha : args.Accepted) (hsb : args.s + args.b ≤ 31)
    (trace : List Access) : Decomposes args trace ↔ Separable args trace := by
  obtain ⟨s, E, b, t⟩ := args
  simp only [Args.Accepted, not_or, not_lt] at ha hsb
  obtain ⟨hs, -, hb⟩ := ha
  lift s to ℕ using hs
  lift b to ℕ using hb
  replace hsb : s + b ≤ 31 := by exact_mod_cast hsb
  rcases Nat.eq_zero_or_pos (s + b) with hzero | hpos
  · obtain ⟨rfl, rfl⟩ : s = 0 ∧ b = 0 := by omega
    exact decomposes_zero_iff E t trace
  · exact decomposes_pos_iff hpos hsb E t trace

/-- A load and a store in one block of sixteen bytes. -/
theorem decomposes_one_block :
    Decomposes ⟨4, 1, 4, some "t"⟩ [⟨'L', 0x18#64⟩, ⟨'S', 0x1c#64⟩] := by
  refine (decomposes_iff ⟨4, 1, 4, some "t"⟩ ?_ (by decide) _).2 ⟨?_, ?_, ?_, ?_⟩
  · simp [Args.Accepted]
  · simp
  · simp [dataAccesses]
  · simp [dataAccesses]
  · simp

/-- With 64 sets the accesses to set 32 leave `initSet`. -/
theorem not_decomposes_set_32 :
    Args.Accepted ⟨6, 1, 0, some "t"⟩ ∧ ¬ Decomposes ⟨6, 1, 0, some "t"⟩ [⟨'L', 0x20#64⟩] := by
  refine ⟨by simp [Args.Accepted], fun h => ?_⟩
  have hv := (h.valid ⟨'L', 0x20#64⟩ (by simp [dataAccesses])).1
  revert hv
  decide

end Cachelab
end SystemsLabs
