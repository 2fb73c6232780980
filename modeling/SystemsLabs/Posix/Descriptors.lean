import Mathlib.Logic.Function.Basic
import Mathlib.Tactic

/-!
# Descriptor tables

What the descriptors of a process refer to, and the calls that change it. A descriptor that a
call returns is `none` where the call returns -1. Descriptors from `limit` on cannot be had.
-/

namespace SystemsLabs
namespace Posix

/-- A descriptor that is not open refers to nothing. -/
abbrev Descriptors (δ : Type*) := ℕ → Option δ

section Calls

variable {δ : Type*} (limit : ℕ) (t : Descriptors δ)

def lowestFree : Option ℕ := (List.range limit).find? fun fd => (t fd).isNone

/-- `open` of a file that is there, or of none. -/
def openFile (file : Option δ) : Option ℕ × Descriptors δ :=
  match file, lowestFree limit t with
  | some d, some fd => (some fd, Function.update t fd (some d))
  | _, _ => (none, t)

/-- `dup(fd)`. -/
def dup (fd : ℕ) : Option ℕ × Descriptors δ := openFile limit t (t fd)

/-- `dup2(fd, target)`. -/
def dup2 (fd : Option ℕ) (target : ℕ) : Option ℕ × Descriptors δ :=
  match fd.bind t with
  | some d => if target < limit then (some target, Function.update t target (some d)) else (none, t)
  | none => (none, t)

/-- `close(fd)`. -/
def close (fd : Option ℕ) : Descriptors δ :=
  match fd with
  | some fd => Function.update t fd none
  | none => t

/-- All descriptors are open. -/
def Full : Prop := ∀ fd < limit, t fd ≠ none

end Calls

variable {δ : Type*} {limit fd target k : ℕ} {t : Descriptors δ} {file : Option δ} {d : δ}

/-- The descriptor that is found is free, and none below it is. -/
lemma lowestFree_eq_some (h : lowestFree limit t = some fd) :
    fd < limit ∧ t fd = none ∧ ∀ k < fd, t k ≠ none := by
  obtain ⟨hfd, i, hi, hget, hbefore⟩ := List.find?_eq_some_iff_getElem.1 h
  rw [List.getElem_range] at hget
  subst hget
  rw [List.length_range] at hi
  refine ⟨hi, by simpa using hfd, fun k hk => ?_⟩
  simpa [Option.isSome_iff_ne_none] using hbefore k hk

/-- None is found where all are in use. -/
lemma lowestFree_eq_none : lowestFree limit t = none ↔ Full limit t := by
  simp [lowestFree, Full]

/-- A descriptor that is free, with none below it. -/
lemma lowestFree_of_free (hlimit : fd < limit) (hfree : t fd = none) (hlow : ∀ k < fd, t k ≠ none) :
    lowestFree limit t = some fd := by
  cases h : lowestFree limit t with
  | none => exact absurd hfree (lowestFree_eq_none.1 h fd hlimit)
  | some k =>
    obtain ⟨-, hk, hbelow⟩ := lowestFree_eq_some h
    have hle : fd ≤ k := not_lt.1 fun hlt => hlow k hlt hk
    have hge : k ≤ fd := not_lt.1 fun hlt => hbelow fd hlt hfree
    rw [le_antisymm hge hle]

lemma openFile_none : openFile limit t none = (none, t) := rfl

/-- Without a free descriptor `open` fails. -/
lemma openFile_of_full (h : Full limit t) (file : Option δ) : openFile limit t file = (none, t) := by
  have hnone := lowestFree_eq_none.2 h
  cases file <;> simp [openFile, hnone]

/-- `open` takes the lowest free descriptor. -/
lemma openFile_of_lowestFree (h : lowestFree limit t = some fd) :
    openFile limit t (some d) = (some fd, Function.update t fd (some d)) := by
  simp [openFile, h]

/-- What is open stays open. -/
lemma update_ne_none (h : t k ≠ none) : Function.update t fd (some d) k ≠ none := by
  rw [Function.update_apply]
  split_ifs
  · exact Option.some_ne_none d
  · exact h

/-- `open` closes nothing. -/
lemma openFile_ne_none (h : t k ≠ none) : (openFile limit t file).2 k ≠ none := by
  cases file with
  | none => exact h
  | some d =>
    cases hfree : lowestFree limit t with
    | none => rwa [openFile_of_full (lowestFree_eq_none.1 hfree)]
    | some fd =>
      rw [openFile_of_lowestFree hfree]
      exact update_ne_none h

lemma dup2_none : (dup2 limit t none target).2 = t := rfl

/-- `dup2` closes only to open again. -/
lemma dup2_ne_none (fd : Option ℕ) (h : t k ≠ none) : (dup2 limit t fd target).2 k ≠ none := by
  rw [dup2]
  split
  · split_ifs
    · exact update_ne_none h
    · exact h
  · exact h

/-- `dup2` makes the one descriptor refer to the file of the other. -/
lemma dup2_of_open (h : t fd = some d) (hlimit : target < limit) :
    (dup2 limit t (some fd) target).2 = Function.update t target (some d) := by
  rw [dup2, Option.bind_some, h]
  simp only [if_pos hlimit]

/-! ## Redirection -/

/-- A file is opened, and `target` is made to refer to it. -/
def redirect (limit : ℕ) (t : Descriptors δ) (file : Option δ) (target : ℕ) : Descriptors δ :=
  let (fd, t) := openFile limit t file
  let t := (dup2 limit t fd target).2
  close t fd

lemma redirect_none : redirect limit t none target = t := rfl

/-- Without a free descriptor a redirection changes nothing. -/
lemma redirect_of_full (h : Full limit t) (file : Option δ) : redirect limit t file target = t := by
  rw [redirect, openFile_of_full h]
  rfl

/-- The file gets the lowest descriptor, which is given back; nothing is left of it where that is
the target. -/
lemma redirect_of_lowestFree (h : lowestFree limit t = some fd) (hlimit : target < limit) :
    redirect limit t (some d) target =
      if fd = target then t else Function.update t target (some d) := by
  have hfree : t fd = none := (lowestFree_eq_some h).2.1
  rw [redirect, openFile_of_lowestFree h]
  dsimp only
  rw [dup2_of_open (Function.update_self ..) hlimit, close]
  split_ifs with heq
  · rw [heq, Function.update_idem, Function.update_idem, ← hfree, heq, Function.update_eq_self]
  · rw [Function.update_comm (Ne.symm heq), Function.update_idem, ← hfree, Function.update_eq_self]

/-- The file's own descriptor is closed again, and none that was open before. -/
lemma redirect_ne_none (hlimit : target < limit) (h : t k ≠ none) :
    redirect limit t file target k ≠ none := by
  cases file with
  | none => exact h
  | some d =>
    cases hfree : lowestFree limit t with
    | none => rwa [redirect_of_full (lowestFree_eq_none.1 hfree)]
    | some fd =>
      rw [redirect_of_lowestFree hfree hlimit]
      split_ifs
      · exact h
      · exact update_ne_none h

/-! ## Free descriptors -/

/-- The descriptors that can still be had. -/
def free (limit : ℕ) (t : Descriptors δ) : Finset ℕ :=
  (Finset.range limit).filter fun fd => (t fd).isNone

lemma mem_free : fd ∈ free limit t ↔ fd < limit ∧ t fd = none := by
  simp [free]

/-- The table is full where nothing is free. -/
lemma free_eq_empty : free limit t = ∅ ↔ Full limit t := by
  simp [Finset.eq_empty_iff_forall_notMem, mem_free, Full]

/-- What is open stays open, and one descriptor more is taken. -/
lemma card_free_lt {t' : Descriptors δ} (hkeep : ∀ k, t k ≠ none → t' k ≠ none)
    (hfree : lowestFree limit t = some fd) (hopen : t' fd ≠ none) :
    (free limit t').card < (free limit t).card := by
  obtain ⟨hlt, hnone, -⟩ := lowestFree_eq_some hfree
  apply Finset.card_lt_card
  rw [Finset.ssubset_iff_of_subset]
  · exact ⟨fd, mem_free.2 ⟨hlt, hnone⟩, fun hmem => hopen (mem_free.1 hmem).2⟩
  · intro k hk
    obtain ⟨hk, hnone⟩ := mem_free.1 hk
    exact mem_free.2 ⟨hk, not_not.1 fun hne => hkeep k hne hnone⟩

end Posix
end SystemsLabs
