import SystemsLabs.Memory.Words

/-!
# Programs over a memory segment

A program may read and write a state and may fail to return, by an access outside the
segment or by a loop that does not end: `Prog σ α` is a state transformer into `Option`.
`wp x Q s` says that `x` run from `s` returns, and that its result and the state it
leaves satisfy `Q`, so a proof of `wp` is a proof of safety, of termination and of the
postcondition at once. The rules below compute `wp` through the structure of a program
and are simp lemmas; a call is reasoned about with `wp_call`, from the callee's
own specification.
-/

namespace SystemsLabs
namespace Memory

/-- A program over states `σ` with results in `α`; `none` is a run that goes wrong. -/
def Prog (σ α : Type) : Type := StateT σ Option α

instance (σ : Type) : Monad (Prog σ) := inferInstanceAs (Monad (StateT σ Option))

instance (σ : Type) : LawfulMonad (Prog σ) := inferInstanceAs (LawfulMonad (StateT σ Option))

section Rules
variable {σ α β : Type}

/-- Runs a program from a state. -/
def Prog.run (x : Prog σ α) (s : σ) : Option (α × σ) := x s

/-- The program that goes wrong. -/
def stuck : Prog σ α := fun _ => none

lemma run_bind (x : Prog σ α) (f : α → Prog σ β) (s : σ) :
    (x >>= f).run s = (x.run s).bind fun r => (f r.1).run r.2 := rfl

/-- The program returns from `s`, and its result and final state satisfy `Q`. -/
def wp (x : Prog σ α) (Q : α → σ → Prop) (s : σ) : Prop :=
  ∃ a s', x.run s = some (a, s') ∧ Q a s'

lemma wp_of_run {x : Prog σ α} {Q : α → σ → Prop} {s : σ} {a : α} {s' : σ}
    (h : x.run s = some (a, s')) : wp x Q s ↔ Q a s' := by
  constructor
  · rintro ⟨b, t, hrun, hq⟩
    rw [h] at hrun
    cases hrun
    exact hq
  · exact fun hq => ⟨a, s', h, hq⟩

@[simp] lemma wp_pure (a : α) (Q : α → σ → Prop) (s : σ) :
    wp (pure a : Prog σ α) Q s ↔ Q a s := wp_of_run rfl

@[simp] lemma wp_bind (x : Prog σ α) (f : α → Prog σ β) (Q : β → σ → Prop) (s : σ) :
    wp (x >>= f) Q s ↔ wp x (fun a => wp (f a) Q) s := by
  unfold wp
  rw [run_bind]
  cases hx : x.run s with
  | none => simp
  | some r =>
    obtain ⟨a, s'⟩ := r
    simp only [Option.bind_some, Option.some.injEq]
    constructor
    · exact fun h => ⟨a, s', rfl, h⟩
    · rintro ⟨_, _, ⟨⟩, h⟩
      exact h

lemma wp_mono {x : Prog σ α} {P Q : α → σ → Prop} {s : σ} (h : wp x P s)
    (hPQ : ∀ a s', P a s' → Q a s') : wp x Q s := by
  obtain ⟨a, s', hrun, hp⟩ := h
  exact ⟨a, s', hrun, hPQ a s' hp⟩

@[simp] lemma wp_map (f : α → β) (x : Prog σ α) (Q : β → σ → Prop) (s : σ) :
    wp (f <$> x) Q s ↔ wp x (fun a => Q (f a)) s := by
  rw [← bind_pure_comp, wp_bind]
  constructor
  · exact fun h => wp_mono h fun _ _ => (wp_pure _ _ _).1
  · exact fun h => wp_mono h fun _ _ => (wp_pure _ _ _).2

@[simp] lemma wp_ite (c : Prop) [Decidable c] (x y : Prog σ α) (Q : α → σ → Prop) (s : σ) :
    wp (if c then x else y) Q s ↔ if c then wp x Q s else wp y Q s := by
  split <;> rfl

@[simp] lemma wp_stuck (Q : α → σ → Prop) (s : σ) : ¬ wp (stuck : Prog σ α) Q s := by
  rintro ⟨_, _, h, _⟩
  cases h

/-- A call followed by the rest of the program, from the callee's specification. -/
lemma wp_call {x : Prog σ α} {f : α → Prog σ β} {P : α → σ → Prop} {Q : β → σ → Prop}
    {s : σ} (h : wp x P s) (hPQ : ∀ a s', P a s' → wp (f a) Q s') : wp (x >>= f) Q s :=
  (wp_bind x f Q s).2 (wp_mono h hPQ)

/-- A run that has happened satisfies what every run satisfies. -/
lemma wp_elim {x : Prog σ α} {Q : α → σ → Prop} {s : σ} (h : wp x Q s) {a : α} {s' : σ}
    (hrun : x.run s = some (a, s')) : Q a s' := (wp_of_run hrun).1 h

lemma run_eq_some_iff {x : Prog σ α} {s s' : σ} {a : α} :
    x.run s = some (a, s') ↔ wp x (fun b t => b = a ∧ t = s') s := by
  constructor
  · exact fun h => ⟨a, s', h, rfl, rfl⟩
  · rintro ⟨_, _, h, rfl, rfl⟩
    exact h

end Rules

/-! ## Segments -/

/-- A memory segment that grows at its end: `brk` is its length in bytes and `cap` the
length it may grow to. What lies past the end is there already, as the contents the
segment will have when it grows. -/
structure Segment where
  bytes : Bytes
  brk : ℕ
  cap : ℕ

namespace Segment

/-- The `i`-th word of the segment. -/
def word (s : Segment) (i : ℕ) : ℕ := s.bytes.word i

/-- The segment with the `i`-th word replaced. -/
def setWord (s : Segment) (i v : ℕ) : Segment := { s with bytes := s.bytes.setWord i v }

lemma word_lt (s : Segment) (i : ℕ) : s.word i < 2 ^ 32 := s.bytes.word_lt i

@[simp] lemma brk_setWord (s : Segment) (i v : ℕ) : (s.setWord i v).brk = s.brk := rfl

@[simp] lemma cap_setWord (s : Segment) (i v : ℕ) : (s.setWord i v).cap = s.cap := rfl

lemma word_setWord_same (s : Segment) (i v : ℕ) : (s.setWord i v).word i = v % 2 ^ 32 :=
  s.bytes.word_setWord_same i v

lemma word_setWord_ne (s : Segment) {i j : ℕ} (v : ℕ) (h : j ≠ i) :
    (s.setWord i v).word j = s.word j := s.bytes.word_setWord_ne v h

lemma word_setWord (s : Segment) (i j v : ℕ) :
    (s.setWord i v).word j = if j = i then v % 2 ^ 32 else s.word j := by
  split
  · next h => rw [h, word_setWord_same]
  · next h => exact word_setWord_ne s v h

/-- The segment with its end moved. -/
def setBrk (s : Segment) (n : ℕ) : Segment := { s with brk := n }

@[simp] lemma brk_setBrk (s : Segment) (n : ℕ) : (s.setBrk n).brk = n := rfl

@[simp] lemma cap_setBrk (s : Segment) (n : ℕ) : (s.setBrk n).cap = s.cap := rfl

@[simp] lemma word_setBrk (s : Segment) (n i : ℕ) : (s.setBrk n).word i = s.word i := rfl

lemma byte_setWord_ne (s : Segment) {i a : ℕ} (v : ℕ) (h : a / 4 ≠ i) :
    (s.setWord i v).bytes a = s.bytes a := s.bytes.setWord_byte_ne v h

end Segment

/-- The segment `s'` is `s` but for the words in `W`. -/
structure Segment.SameBut (W : ℕ → Prop) (s s' : Segment) : Prop where
  brk : s'.brk = s.brk
  cap : s'.cap = s.cap
  bytes : ∀ i, ¬ W (i / 4) → s'.bytes i = s.bytes i

namespace Segment.SameBut

variable {W W' : ℕ → Prop} {s s' s'' : Segment}

lemma refl (W : ℕ → Prop) (s : Segment) : SameBut W s s := ⟨rfl, rfl, fun _ _ => rfl⟩

lemma trans (h : SameBut W s s') (h' : SameBut W s' s'') : SameBut W s s'' :=
  ⟨h'.brk.trans h.brk, h'.cap.trans h.cap, fun i hi => (h'.bytes i hi).trans (h.bytes i hi)⟩

lemma mono (h : SameBut W s s') (hW : ∀ i, W i → W' i) : SameBut W' s s' :=
  ⟨h.brk, h.cap, fun i hi => h.bytes i fun hw => hi (hW _ hw)⟩

lemma word (h : SameBut W s s') {i : ℕ} (hi : ¬ W i) : s'.word i = s.word i :=
  Bytes.word_congr fun a ha => h.bytes a (by rwa [ha])

lemma setWord (h : SameBut W s s') {i : ℕ} (v : ℕ) (hi : W i) : SameBut W s (s'.setWord i v) :=
  h.trans ⟨rfl, rfl, fun _ ha => s'.byte_setWord_ne v fun h => ha (h ▸ hi)⟩

end Segment.SameBut

/-- Reads a word; a word that is not inside the segment cannot be read. -/
def load (i : ℕ) : Prog Segment ℕ := fun s =>
  if 4 * i + 4 ≤ s.brk then some (s.word i, s) else none

/-- Writes a word; a word that is not inside the segment cannot be written. -/
def store (i v : ℕ) : Prog Segment Unit := fun s =>
  if 4 * i + 4 ≤ s.brk then some ((), s.setWord i v) else none

@[simp] lemma wp_load (i : ℕ) (Q : ℕ → Segment → Prop) (s : Segment) :
    wp (load i) Q s ↔ 4 * i + 4 ≤ s.brk ∧ Q (s.word i) s := by
  by_cases h : 4 * i + 4 ≤ s.brk
  · have hrun : (load i).run s = some (s.word i, s) := if_pos h
    simp [wp_of_run hrun, h]
  · have hrun : (load i).run s = none := if_neg h
    simp [wp, hrun, h]

@[simp] lemma wp_store (i v : ℕ) (Q : Unit → Segment → Prop) (s : Segment) :
    wp (store i v) Q s ↔ 4 * i + 4 ≤ s.brk ∧ Q () (s.setWord i v) := by
  by_cases h : 4 * i + 4 ≤ s.brk
  · have hrun : (store i v).run s = some ((), s.setWord i v) := if_pos h
    simp [wp_of_run hrun, h]
  · have hrun : (store i v).run s = none := if_neg h
    simp [wp, hrun, h]

/-- The length of the segment. -/
def length : Prog Segment ℕ := fun s => some (s.brk, s)

@[simp] lemma wp_length (Q : ℕ → Segment → Prop) (s : Segment) :
    wp length Q s ↔ Q s.brk s := wp_of_run rfl

/-- Grows the segment by `n` bytes, if the one who serves the request agrees (`grant`)
and the segment may grow so far, and returns its old length; otherwise changes nothing. -/
def grow (grant : Bool) (n : ℕ) : Prog Segment (Option ℕ) := fun s =>
  if grant ∧ s.brk + n ≤ s.cap then some (some s.brk, s.setBrk (s.brk + n))
  else some (none, s)

@[simp] lemma wp_grow (grant : Bool) (n : ℕ) (Q : Option ℕ → Segment → Prop) (s : Segment) :
    wp (grow grant n) Q s ↔
      if grant ∧ s.brk + n ≤ s.cap then Q (some s.brk) (s.setBrk (s.brk + n))
      else Q none s := by
  by_cases h : grant ∧ s.brk + n ≤ s.cap
  · have hrun : (grow grant n).run s = some (some s.brk, s.setBrk (s.brk + n)) := if_pos h
    rw [wp_of_run hrun, if_pos h]
  · have hrun : (grow grant n).run s = some (none, s) := if_neg h
    rw [wp_of_run hrun, if_neg h]

/-- The segment after `n` bytes have been copied from offset `src` to offset `dst`. A byte
that is read outside the segment, or from where the copy itself writes, is whatever
`junk` says. -/
def Segment.copied (s : Segment) (junk : ℕ → UInt8) (dst src n : ℕ) : Bytes := fun a =>
  if dst ≤ a ∧ a < dst + n then
    if src + (a - dst) < s.brk ∧ ¬ (dst ≤ src + (a - dst) ∧ src + (a - dst) < dst + n) then
      s.bytes (src + (a - dst))
    else junk (a - dst)
  else s.bytes a

/-- Copies bytes; those written must be inside the segment. -/
def copy (junk : ℕ → UInt8) (dst src n : ℕ) : Prog Segment Unit := fun s =>
  if dst + n ≤ s.brk then some ((), { s with bytes := s.copied junk dst src n }) else none

/-- A copy is described by the bytes it leaves alone and the bytes it carries over. -/
lemma wp_copy {junk : ℕ → UInt8} {dst src n : ℕ} {Q : Unit → Segment → Prop} {s : Segment}
    (hdst : dst + n ≤ s.brk)
    (hQ : ∀ s', s'.brk = s.brk → s'.cap = s.cap →
      (∀ a, ¬ (dst ≤ a ∧ a < dst + n) → s'.bytes a = s.bytes a) →
      (∀ i < n, src + i < s.brk → ¬ (dst ≤ src + i ∧ src + i < dst + n) →
        s'.bytes (dst + i) = s.bytes (src + i)) → Q () s') :
    wp (copy junk dst src n) Q s := by
  have hrun : (copy junk dst src n).run s
      = some ((), { s with bytes := s.copied junk dst src n }) := if_pos hdst
  rw [wp_of_run hrun]
  refine hQ _ rfl rfl (fun a ha => if_neg ha) ?_
  -- a byte that is carried over is read inside the segment and not where the copy writes
  intro i hi hb hout
  have hin : dst ≤ dst + i ∧ dst + i < dst + n := by omega
  have hsub : dst + i - dst = i := by omega
  simp only [Segment.copied, hin, hsub, hb, hout, and_self, not_false_eq_true, if_true]

/-- The segment after the `n` bytes from offset `dst` have been set to `v`. -/
def Segment.filled (s : Segment) (dst n : ℕ) (v : UInt8) : Bytes := fun a =>
  if dst ≤ a ∧ a < dst + n then v else s.bytes a

/-- Sets bytes, which must be inside the segment. -/
def fill (dst n : ℕ) (v : UInt8) : Prog Segment Unit := fun s =>
  if dst + n ≤ s.brk then some ((), { s with bytes := s.filled dst n v }) else none

@[simp] lemma wp_fill (dst n : ℕ) (v : UInt8) (Q : Unit → Segment → Prop) (s : Segment) :
    wp (fill dst n v) Q s ↔ dst + n ≤ s.brk ∧ Q () { s with bytes := s.filled dst n v } := by
  by_cases h : dst + n ≤ s.brk
  · have hrun : (fill dst n v).run s = some ((), { s with bytes := s.filled dst n v }) := if_pos h
    simp [wp_of_run hrun, h]
  · have hrun : (fill dst n v).run s = none := if_neg h
    simp [wp, hrun, h]

end Memory
end SystemsLabs
