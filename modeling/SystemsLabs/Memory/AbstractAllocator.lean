import Mathlib.Tactic

/-!
# What an allocator is for

The abstract allocator knows which pointers are live and which bytes each of them holds,
and nothing about how blocks are laid out. A call of a client is related to its answer and
to the state after it by `Step`: a pointer that is handed out is aligned, large enough and
apart from every other live payload, and a call changes no payload but its argument's.
An implementation is correct when every call it serves is such a step.
-/

namespace SystemsLabs
namespace Memory

/-- The calls of a client; `write` is the client's own store into a payload. -/
inductive Call (Ptr : Type)
  | malloc (size : ℕ)
  | free (p : Option Ptr)
  | realloc (p : Option Ptr) (size : ℕ)
  | write (p : Ptr) (i : ℕ) (v : UInt8)

/-- The bytes that every live pointer holds. -/
abbrev Payloads (Ptr : Type) : Type := Ptr → Option (List UInt8)

namespace Payloads

variable {Ptr : Type} [DecidableEq Ptr]

/-- A payload of `n` bytes at `p` is apart from one of `k` bytes at `q`. -/
def Apart (addr : Ptr → ℕ) (p : Ptr) (n : ℕ) (q : Ptr) (k : ℕ) : Prop :=
  addr p + n ≤ addr q ∨ addr q + k ≤ addr p

/-- What a pointer that is handed out for `n` bytes promises: `c` are the bytes that it
holds. -/
structure Grants (addr : Ptr → ℕ) (m : Payloads Ptr) (p : Ptr) (n : ℕ) (c : List UInt8) :
    Prop where
  fresh : m p = none
  aligned : 8 ∣ addr p
  size : n ≤ c.length
  apart : ∀ q d, m q = some d → Apart addr p c.length q d.length

/-- One call: its answer, and the payloads before and after it. -/
inductive Step (addr : Ptr → ℕ) : Payloads Ptr → Call Ptr → Option Ptr → Payloads Ptr → Prop
  | mallocNull {m n} : Step addr m (.malloc n) none m
  | malloc {m n p c} (h : Grants addr m p n c) :
      Step addr m (.malloc n) (some p) (Function.update m p (some c))
  | freeNull {m} : Step addr m (.free none) none m
  | free {m p} : Step addr m (.free (some p)) none (Function.update m p none)
  | reallocZeroNull {m} : Step addr m (.realloc none 0) none m
  | reallocZero {m p} : Step addr m (.realloc (some p) 0) none (Function.update m p none)
  | reallocNull {m r m' n} (h : Step addr m (.malloc n) r m') (hn : 0 < n) :
      Step addr m (.realloc none n) r m'
  | reallocFails {m p n} (hn : 0 < n) : Step addr m (.realloc (some p) n) none m
  | realloc {m p n c q d} (hn : 0 < n) (hp : m p = some c)
      (h : Grants addr (Function.update m p none) q n d)
      (hcopy : ∀ i, i < min c.length n → d[i]? = (c)[i]?) :
      Step addr m (.realloc (some p) n) (some q)
        (Function.update (Function.update m p none) q (some d))
  | write {m p c i v} (hp : m p = some c) (hi : i < c.length) :
      Step addr m (.write p i v) none (Function.update m p (some (c.set i v)))

variable {addr : Ptr → ℕ} {m m' : Payloads Ptr}

/-- Distinct live payloads do not overlap. -/
def Disjoint (addr : Ptr → ℕ) (m : Payloads Ptr) : Prop :=
  ∀ p q c d, p ≠ q → m p = some c → m q = some d → Apart addr p c.length q d.length

lemma Disjoint.erase (h : Disjoint addr m) (p : Ptr) :
    Disjoint addr (Function.update m p none) := by
  intro q r c d hqr hq hr
  rcases eq_or_ne q p with rfl | hqp
  · simp at hq
  rcases eq_or_ne r p with rfl | hrp
  · simp at hr
  rw [Function.update_of_ne hqp] at hq
  rw [Function.update_of_ne hrp] at hr
  exact h q r c d hqr hq hr

/-- A payload apart from all others may be added. -/
lemma Disjoint.insert (h : Disjoint addr m) {p : Ptr} {c : List UInt8}
    (hp : ∀ q d, q ≠ p → m q = some d → Apart addr p c.length q d.length) :
    Disjoint addr (Function.update m p (some c)) := by
  intro q r d e hqr hq hr
  rcases eq_or_ne q p with rfl | hqp
  · rw [Function.update_of_ne hqr.symm] at hr
    obtain rfl : c = d := by simpa using hq
    exact hp r e hqr.symm hr
  rw [Function.update_of_ne hqp] at hq
  rcases eq_or_ne r p with rfl | hrp
  · obtain rfl : c = e := by simpa using hr
    exact Or.symm (hp q d hqp hq)
  · rw [Function.update_of_ne hrp] at hr
    exact h q r d e hqr hq hr

/-- Whatever the client does, live payloads stay disjoint. -/
theorem Step.disjoint {call : Call Ptr} {r : Option Ptr} (h : Step addr m call r m')
    (hm : Disjoint addr m) : Disjoint addr m' := by
  induction h with
  | mallocNull | freeNull | reallocZeroNull | reallocFails => exact hm
  | malloc h => exact hm.insert fun q d _ hq => h.apart q d hq
  | free | reallocZero => exact hm.erase _
  | reallocNull h hn ih => exact ih
  | realloc hn hp h hcopy => exact (hm.erase _).insert fun q d _ hq => h.apart q d hq
  | write hp hi =>
    apply hm.insert
    intro q d hqp hq
    rw [List.length_set]
    exact hm _ q _ d hqp.symm hp hq

end Payloads
end Memory
end SystemsLabs
