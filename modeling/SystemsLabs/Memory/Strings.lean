import Mathlib.Tactic

/-!
# Strings that end at the first NUL

A string is held in an array of bytes, and what comes behind its first NUL is not part of it.
The functions go wrong where an array has no NUL, or no room for the result.
-/

namespace SystemsLabs
namespace Memory

/-- `strlen(s)`. -/
def strlen (s : List UInt8) : Option ℕ := s.findIdx? (· = 0)

/-- `strcat(dst, src)`, which leaves the bytes behind the string in `dst` as they are. -/
def strcat (dst src : List UInt8) : Option (List UInt8) := do
  let n ← strlen dst
  let m ← strlen src
  if n + m < dst.length then
    some (dst.take n ++ (src.take m ++ 0 :: dst.drop (n + m + 1)))
  else none

variable {s dst src d : List UInt8} {n m j : ℕ}

/-- The first NUL. -/
lemma strlen_eq_some_iff : strlen s = some n ↔ s[n]? = some 0 ∧ ∀ j < n, s[j]? ≠ some 0 := by
  rw [strlen, List.findIdx?_eq_some_iff_getElem]
  constructor
  · intro h
    obtain ⟨hn, hzero, hfirst⟩ := h
    refine ⟨?_, ?_⟩
    · rw [List.getElem?_eq_getElem hn, of_decide_eq_true hzero]
    · intro j hj hsj
      apply hfirst j hj
      rw [List.getElem?_eq_getElem (hj.trans hn)] at hsj
      exact decide_eq_true (Option.some.inj hsj)
  · intro h
    obtain ⟨hzero, hfirst⟩ := h
    obtain ⟨hn, hzero⟩ := List.getElem?_eq_some_iff.1 hzero
    refine ⟨hn, decide_eq_true hzero, ?_⟩
    intro j hj hsj
    apply hfirst j hj
    rw [List.getElem?_eq_getElem (hj.trans hn), of_decide_eq_true hsj]

/-- A string has a length if it has a NUL. -/
lemma strlen_isSome : (∃ n, strlen s = some n) ↔ (0 : UInt8) ∈ s := by
  rw [← Option.isSome_iff_exists, strlen, List.findIdx?_isSome, List.any_eq_true]
  constructor
  · intro h
    obtain ⟨x, hx, hzero⟩ := h
    rwa [of_decide_eq_true hzero] at hx
  · intro h
    exact ⟨0, h, decide_eq_true rfl⟩

/-- The NUL is in the array. -/
lemma lt_of_strlen (h : strlen s = some n) : n < s.length :=
  (List.getElem?_eq_some_iff.1 (strlen_eq_some_iff.1 h).1).1

/-- The string is no longer than where its array has a NUL. -/
lemma strlen_le (h : strlen s = some n) (hj : s[j]? = some 0) : n ≤ j := by
  by_contra hlt
  exact (strlen_eq_some_iff.1 h).2 j (not_le.1 hlt) hj

/-- A string behind which the array is changed. -/
lemma strlen_of_head (h : s[0]? = some 0) : strlen s = some 0 :=
  strlen_eq_some_iff.2 ⟨h, fun j hj => absurd hj (Nat.not_lt_zero j)⟩

section Strcat
variable (hn : strlen dst = some n) (hm : strlen src = some m)
include hn hm

/-- What `strcat` makes of an array. -/
lemma strcat_eq (hroom : n + m < dst.length) :
    strcat dst src = some (dst.take n ++ (src.take m ++ 0 :: dst.drop (n + m + 1))) := by
  rw [strcat, hn, hm]
  exact if_pos hroom

/-- `strcat` goes well only where there is room. -/
lemma eq_of_strcat (h : strcat dst src = some d) :
    n + m < dst.length ∧ d = dst.take n ++ (src.take m ++ 0 :: dst.drop (n + m + 1)) := by
  rw [strcat, hn, hm] at h
  simp only [Option.bind_eq_bind, Option.bind_some] at h
  split_ifs at h with hroom
  exact ⟨hroom, (Option.some.inj h).symm⟩

/-- The bytes of the first string, then those of the second one and the NUL, and then what has
been there. -/
lemma getElem?_strcat (h : strcat dst src = some d) : d[j]? =
    if j < n then dst[j]? else if j < n + m then src[j - n]? else
      if j = n + m then some 0 else dst[j]? := by
  obtain ⟨hroom, rfl⟩ := eq_of_strcat hn hm h
  have hdst : (dst.take n).length = n := List.length_take_of_le (lt_of_strlen hn).le
  have hsrc : (src.take m).length = m := List.length_take_of_le (lt_of_strlen hm).le
  rw [List.getElem?_append, List.getElem?_append, hdst, hsrc]
  by_cases hj : j < n
  · rw [if_pos hj, if_pos hj, List.getElem?_take_of_lt hj]
  · rw [if_neg hj, if_neg hj]
    by_cases hj' : j < n + m
    · rw [if_pos (by omega), if_pos hj', List.getElem?_take_of_lt (by omega)]
    · rw [if_neg (by omega), if_neg hj']
      by_cases hj'' : j = n + m
      · rw [if_pos hj'', hj'', show n + m - n - m = 0 by omega, List.getElem?_cons_zero]
      · obtain ⟨k, rfl⟩ : ∃ k, j = n + m + 1 + k := ⟨j - (n + m + 1), by omega⟩
        rw [if_neg hj'', show n + m + 1 + k - n - m = k + 1 by omega, List.getElem?_cons_succ,
          List.getElem?_drop]

/-- The lengths add up. -/
lemma strlen_strcat (h : strcat dst src = some d) : strlen d = some (n + m) := by
  rw [strlen_eq_some_iff, getElem?_strcat hn hm h, if_neg (by omega), if_neg (by omega),
    if_pos rfl]
  refine ⟨rfl, ?_⟩
  intro j hj
  rw [getElem?_strcat hn hm h]
  split_ifs with hjn
  · exact (strlen_eq_some_iff.1 hn).2 j hjn
  · exact (strlen_eq_some_iff.1 hm).2 (j - n) (by omega)

/-- The array keeps its size. -/
lemma length_strcat (h : strcat dst src = some d) : d.length = dst.length := by
  obtain ⟨hroom, rfl⟩ := eq_of_strcat hn hm h
  have := lt_of_strlen hm
  rw [List.length_append, List.length_append, List.length_cons, List.length_take,
    List.length_take, List.length_drop]
  omega

end Strcat

/-- To append the empty string changes nothing. -/
lemma strcat_of_head (hn : strlen dst = some n) (hsrc : src[0]? = some 0) :
    strcat dst src = some dst := by
  have hm := strlen_of_head hsrc
  have h := strcat_eq hn hm (lt_of_strlen hn)
  rw [h]
  congr 1
  apply List.ext_getElem?
  intro j
  rw [getElem?_strcat hn hm h]
  split_ifs with hj hj' hj''
  · rfl
  · omega
  · rw [hj'', Nat.add_zero, (strlen_eq_some_iff.1 hn).1]
  · rfl

/-- Both strings have ended where a third one is made of them. -/
lemma exists_of_strcat (h : strcat dst src = some d) :
    ∃ n m, strlen dst = some n ∧ strlen src = some m := by
  simp only [strcat, Option.bind_eq_bind, Option.bind_eq_some_iff] at h
  obtain ⟨n, hn, m, hm, -⟩ := h
  exact ⟨n, m, hn, hm⟩

end Memory
end SystemsLabs
