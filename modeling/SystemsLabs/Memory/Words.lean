import Mathlib.Tactic

/-!
# Byte memory read by words

A memory is a function from byte offsets to bytes. Four consecutive bytes from an
offset that is a multiple of four form a little-endian 32-bit word, and `word m i` is
the value of the `i`-th of them. Programs that store words and programs that copy bytes
share the memory, so both views are kept side by side: a word store is described by the
words (`word_setWord_same`, `word_setWord_ne`) and by the bytes (`setWord_byte_ne`) it
leaves alone, and a byte store likewise.
-/

namespace SystemsLabs
namespace Memory

/-- The bytes of a memory segment, by their offset from its start. -/
abbrev Bytes := ℕ → UInt8

namespace Bytes

/-- The `i`-th 32-bit word, little-endian. -/
def word (m : Bytes) (i : ℕ) : ℕ :=
  (m (4 * i)).toNat + 2 ^ 8 * (m (4 * i + 1)).toNat + 2 ^ 16 * (m (4 * i + 2)).toNat
    + 2 ^ 24 * (m (4 * i + 3)).toNat

/-- Stores the low 32 bits of `v` as the `i`-th word. -/
def setWord (m : Bytes) (i v : ℕ) : Bytes :=
  fun a => if a / 4 = i then UInt8.ofNat (v / 256 ^ (a % 4)) else m a

/-- Stores one byte. -/
def setByte (m : Bytes) (a : ℕ) (b : UInt8) : Bytes :=
  fun a' => if a' = a then b else m a'

/-- A word has 32 bits. -/
lemma word_lt (m : Bytes) (i : ℕ) : m.word i < 2 ^ 32 := by
  have h0 := (m (4 * i)).toNat_lt
  have h1 := (m (4 * i + 1)).toNat_lt
  have h2 := (m (4 * i + 2)).toNat_lt
  have h3 := (m (4 * i + 3)).toNat_lt
  unfold word
  omega

/-- A word is determined by its four bytes. -/
lemma word_congr {m m' : Bytes} {i : ℕ} (h : ∀ a, a / 4 = i → m' a = m a) :
    m'.word i = m.word i := by
  unfold word
  rw [h (4 * i) (by omega), h (4 * i + 1) (by omega), h (4 * i + 2) (by omega),
    h (4 * i + 3) (by omega)]

/-- A word is stored modulo 2^32. -/
lemma word_setWord_same (m : Bytes) (i v : ℕ) : (m.setWord i v).word i = v % 2 ^ 32 := by
  have hdiv : ∀ k < 4, (4 * i + k) / 4 = i := by omega
  have hmod : ∀ k < 4, (4 * i + k) % 4 = k := by omega
  have h0 := hdiv 0 (by omega)
  have h0' := hmod 0 (by omega)
  rw [Nat.add_zero] at h0 h0'
  unfold word setWord
  simp only [h0, h0', hdiv 1 (by omega), hmod 1 (by omega), hdiv 2 (by omega),
    hmod 2 (by omega), hdiv 3 (by omega), hmod 3 (by omega), if_true, UInt8.toNat_ofNat']
  omega

/-- The other words are as before. -/
lemma word_setWord_ne (m : Bytes) {i j : ℕ} (v : ℕ) (h : j ≠ i) :
    (m.setWord i v).word j = m.word j :=
  word_congr fun a ha => if_neg (by omega)

lemma setWord_byte_ne (m : Bytes) {i a : ℕ} (v : ℕ) (h : a / 4 ≠ i) : m.setWord i v a = m a :=
  if_neg h

lemma setByte_same (m : Bytes) (a : ℕ) (b : UInt8) : m.setByte a b a = b := if_pos rfl

lemma setByte_ne (m : Bytes) {a a' : ℕ} (b : UInt8) (h : a' ≠ a) : m.setByte a b a' = m a' :=
  if_neg h

end Bytes
end Memory
end SystemsLabs
