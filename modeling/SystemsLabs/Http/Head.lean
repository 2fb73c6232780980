import Mathlib.Tactic

/-!
# The head of a request

A request line with three words, header fields, and an empty line. A line ends with CR LF, and
neither of the two stands anywhere else. `Head.parse` takes nothing that goes on behind the empty
line, so a text that it accepts is one request.
-/

namespace SystemsLabs
namespace Http

structure Head where
  method : List Char
  target : List Char
  version : List Char
  /-- The names and the values. -/
  fields : List (List Char × List Char)
deriving DecidableEq

/-! ## Text -/

def endLine (line : List Char) : List Char := line ++ ['\r', '\n']

def fieldLine (field : List Char × List Char) : List Char := field.1 ++ ':' :: ' ' :: field.2

def requestLine (h : Head) : List Char := h.method ++ ' ' :: (h.target ++ ' ' :: h.version)

def fieldsText : List (List Char × List Char) → List Char
  | [] => endLine []
  | field :: fields => endLine (fieldLine field) ++ fieldsText fields

def Head.text (h : Head) : List Char := endLine (requestLine h) ++ fieldsText h.fields

/-! ## Reading -/

/-- What stands in front of the first `c`, and what behind it. -/
def cutAt (c : Char) (s : List Char) : Option (List Char × List Char) :=
  match s.dropWhile (· ≠ c) with
  | _ :: rest => some (s.takeWhile (· ≠ c), rest)
  | [] => none

/-- The first line; it may not have an LF in it. -/
def cutLine (s : List Char) : Option (List Char × List Char) :=
  match cutAt '\r' s with
  | some (line, '\n' :: rest) => if '\n' ∈ line then none else some (line, rest)
  | _ => none

def parseField (line : List Char) : Option (List Char × List Char) :=
  match cutAt ':' line with
  | some (name, ' ' :: value) => some (name, value)
  | _ => none

/-- The fields, up to the empty line, which has to be the last one. -/
def parseFields : (fuel : ℕ) → List Char → Option (List (List Char × List Char))
  | 0, _ => none
  | fuel + 1, s => do
    let (line, rest) ← cutLine s
    if line = [] then
      if rest = [] then some [] else none
    else
      let field ← parseField line
      let fields ← parseFields fuel rest
      some (field :: fields)

def Head.parse (s : List Char) : Option Head := do
  let (line, rest) ← cutLine s
  let (method, line) ← cutAt ' ' line
  let (target, version) ← cutAt ' ' line
  if ' ' ∈ version then none
  else
    let fields ← parseFields rest.length rest
    some ⟨method, target, version, fields⟩

/-! ## Well-formed heads -/

/-- No character of the string ends a line. -/
def OneLine (s : List Char) : Prop := '\r' ∉ s ∧ '\n' ∉ s

instance (s : List Char) : Decidable (OneLine s) := inferInstanceAs (Decidable (_ ∧ _))

structure Head.WellFormed (h : Head) : Prop where
  method : OneLine h.method ∧ ' ' ∉ h.method
  target : OneLine h.target ∧ ' ' ∉ h.target
  version : OneLine h.version ∧ ' ' ∉ h.version
  fields : ∀ field ∈ h.fields, OneLine field.1 ∧ ':' ∉ field.1 ∧ OneLine field.2

variable {s t line : List Char} {c : Char} {field : List Char × List Char} {h : Head} {fuel : ℕ}

/-- A separator that is not in the first part is found behind it. -/
lemma cutAt_append (hs : c ∉ s) (t : List Char) : cutAt c (s ++ c :: t) = some (s, t) := by
  have hne : ∀ d ∈ s, decide (d ≠ c) = true := fun d hd => decide_eq_true (ne_of_mem_of_not_mem hd hs)
  rw [cutAt, List.dropWhile_append_of_pos hne, List.takeWhile_append_of_pos hne,
    List.dropWhile_cons_of_neg (by simp), List.takeWhile_cons_of_neg (by simp), List.append_nil]

/-- Two pieces of a line are within one line. -/
lemma OneLine.append (hs : OneLine s) (ht : OneLine t) : OneLine (s ++ t) := by
  unfold OneLine at *
  simp [hs, ht]

lemma OneLine.cons (hs : OneLine s) (hc : c ≠ '\r' ∧ c ≠ '\n') : OneLine (c :: s) := by
  unfold OneLine at *
  simp [hs, hc.1.symm, hc.2.symm]

/-- A line is read up to its end. -/
lemma cutLine_endLine (hline : OneLine line) (rest : List Char) :
    cutLine (endLine line ++ rest) = some (line, rest) := by
  have hcut : cutAt '\r' (endLine line ++ rest) = some (line, '\n' :: rest) := by
    rw [endLine, List.append_assoc]
    exact cutAt_append hline.1 _
  rw [cutLine, hcut]
  exact if_neg hline.2

/-- A field is read back from its line. -/
lemma parseField_fieldLine (hname : ':' ∉ field.1) : parseField (fieldLine field) = some field := by
  rw [parseField, fieldLine, cutAt_append hname]
  rfl

/-- The line of a field is one line. -/
lemma oneLine_fieldLine (hfield : OneLine field.1 ∧ ':' ∉ field.1 ∧ OneLine field.2) :
    OneLine (fieldLine field) := by
  apply hfield.1.append
  exact (hfield.2.2.cons (by decide)).cons (by decide)

/-- All fields are read back from their text. -/
lemma parseFields_text {fields : List (List Char × List Char)}
    (hfields : ∀ field ∈ fields, OneLine field.1 ∧ ':' ∉ field.1 ∧ OneLine field.2)
    (hfuel : fields.length < fuel) : parseFields fuel (fieldsText fields) = some fields := by
  induction fields generalizing fuel with
  | nil =>
    obtain ⟨fuel, rfl⟩ : ∃ n, fuel = n + 1 := ⟨fuel - 1, by omega⟩
    rfl
  | cons field fields ih =>
    rw [List.length_cons] at hfuel
    obtain ⟨fuel, rfl⟩ : ∃ n, fuel = n + 1 := ⟨fuel - 1, by omega⟩
    have hfield := hfields field List.mem_cons_self
    have hne : fieldLine field ≠ [] := by simp [fieldLine]
    have hrest := ih (fun f hf => hfields f (List.mem_cons_of_mem _ hf)) (Nat.lt_of_succ_lt_succ hfuel)
    rw [fieldsText, parseFields, cutLine_endLine (oneLine_fieldLine hfield)]
    simp only [Option.bind_eq_bind, Option.bind_some, if_neg hne,
      parseField_fieldLine hfield.2.1, hrest]

/-- Every field has a line. -/
lemma length_lt_fieldsText (fields : List (List Char × List Char)) :
    fields.length < (fieldsText fields).length := by
  induction fields with
  | nil => decide
  | cons field fields ih =>
    rw [fieldsText, List.length_append, endLine, List.length_append, List.length_cons]
    simp only [List.length_cons, List.length_nil]
    omega

/-- A well-formed head is read back from its text. -/
theorem Head.parse_text (hw : h.WellFormed) : Head.parse h.text = some h := by
  have hline : OneLine (requestLine h) :=
    hw.method.1.append ((hw.target.1.append (hw.version.1.cons (by decide))).cons (by decide))
  rw [parse, text, cutLine_endLine hline]
  simp only [Option.bind_eq_bind, Option.bind_some]
  rw [requestLine, cutAt_append hw.method.2]
  simp only [Option.bind_some]
  rw [cutAt_append hw.target.2]
  simp only [Option.bind_some]
  rw [if_neg hw.version.2, parseFields_text hw.fields (length_lt_fieldsText _), Option.bind_some]

end Http
end SystemsLabs
