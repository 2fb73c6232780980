import SystemsLabs.Cachelab.Addresses
import SystemsLabs.Cachelab.CsimLru
import SystemsLabs.Posix.Scanf
import Mathlib.Tactic

/-!
# The text of a trace

The loop of `csim.c` with its call of `fscanf`, over the text of the trace file. Nothing makes
`fscanf` go on to the next line: where a line has no address, `addr` keeps its value and the next
call reads on from there.
-/

namespace SystemsLabs
namespace Cachelab

open Caching Posix

/-! ## The loop over the file -/

/-- What `%x` stores of a number: `strtoul` gives an `unsigned long`, its greatest one for what is
out of range, and an `unsigned` keeps the low half. -/
def toUnsigned (n : ℤ) : BitVec 32 :=
  BitVec.ofInt 32 (if n.natAbs < 2 ^ 64 then n else 2 ^ 64 - 1)

/-- `fscanf(file, " %c %x,%d", &id, &addr, &size) > 0`: `id`, `addr` and what is left of the
file. The size is read and not used. -/
def scanLine (addr : Option (BitVec 32)) (file : List Char) :
    Option (Char × Option (BitVec 32) × List Char) :=
  match file.dropWhile isWhite with
  | [] => none
  | id :: file =>
    match scanNumber 16 file with
    | (none, file) => some (id, addr, file)
    | (some n, ',' :: file) => some (id, some (toUnsigned n), (scanNumber 10 file).2)
    | (some n, file) => some (id, some (toUnsigned n), file)

variable {s E b : ℕ} {addr : Option (BitVec 32)} {file : List Char}

/-- Each call that reads something takes a character. -/
lemma scanLine_length {r : Char × Option (BitVec 32) × List Char}
    (h : scanLine addr file = some r) : r.2.2.length < file.length := by
  have hwhite := (List.dropWhile_suffix isWhite (l := file)).length_le
  rw [scanLine] at h
  split at h
  · cases h
  · rename_i id rest heq
    have hnumber := length_scanNumber_le 16 rest
    rw [heq, List.length_cons] at hwhite
    split at h
    · rename_i hscan
      obtain rfl := Option.some.inj h
      rw [hscan] at hnumber
      exact lt_of_le_of_lt hnumber hwhite
    · rename_i n file' hscan
      obtain rfl := Option.some.inj h
      have hsize := length_scanNumber_le 10 file'
      rw [hscan, List.length_cons] at hnumber
      dsimp only at hnumber ⊢
      omega
    · rename_i hscan
      obtain rfl := Option.some.inj h
      rw [hscan] at hnumber
      exact lt_of_le_of_lt hnumber hwhite

/-- `while(fscanf(...) > 0) { ... }`, with `addr` not initialised before the first address. -/
def simulateFile (s E b : ℤ) (sim : Sim) (addr : Option (BitVec 32)) (file : List Char) :
    Option Sim :=
  match _h : scanLine addr file with
  | none => some sim
  | some (id, addr, rest) =>
    if id = 'I' then simulateFile s E b sim addr rest
    else
      addr.bind fun a =>
        (step s E b sim ⟨id, a⟩).bind fun sim => simulateFile s E b sim (some a) rest
termination_by file.length
decreasing_by all_goals exact scanLine_length _h

/-- The accesses that the calls of `fscanf` read from a file, without those of the identifier `I`.
It fails where an access has no address and none came before it. -/
def readTrace (addr : Option (BitVec 32)) (file : List Char) : Option (List TraceLine) :=
  match _h : scanLine addr file with
  | none => some []
  | some (id, addr, rest) =>
    if id = 'I' then readTrace addr rest
    else addr.bind fun a => (readTrace (some a) rest).map (⟨id, a⟩ :: ·)
termination_by file.length
decreasing_by all_goals exact scanLine_length _h

lemma readTrace_access {id : Char} {a : BitVec 32} {rest : List Char}
    (h : scanLine addr file = some (id, some a, rest)) (hI : id ≠ 'I') :
    readTrace addr file = (readTrace (some a) rest).map (⟨id, a⟩ :: ·) := by
  rw [readTrace, h]
  exact if_neg hI

/-- To read a round's line when the round starts is to read the whole file first. -/
lemma simulateFile_eq (s E b : ℤ) (sim : Sim) (addr : Option (BitVec 32)) (file : List Char) :
    simulateFile s E b sim addr file =
      (readTrace addr file).bind fun trace => trace.foldlM (step s E b) sim := by
  induction hn : file.length using Nat.strong_induction_on generalizing sim addr file with
  | _ n ih =>
  subst hn
  rw [simulateFile, readTrace]
  split
  · rfl
  · rename_i id addr' rest hscan
    have hlt : rest.length < file.length := scanLine_length hscan
    by_cases hI : id = 'I'
    · rw [if_pos hI, if_pos hI, ih _ hlt sim addr' rest rfl]
    · rw [if_neg hI, if_neg hI]
      cases addr' with
      | none => rfl
      | some a =>
        rw [Option.bind_some, Option.bind_some, Option.bind_map]
        simp only [ih _ hlt _ _ rest rfl]
        cases readTrace (some a) rest with
        | none => exact Option.bind_fun_none _
        | some trace =>
          simp only [Option.bind_some, Function.comp_apply, List.foldlM_cons]
          rfl

/-! ## Lines as they are written -/

/-- A line of a trace: an identifier, an address in hexadecimal digits and a size. -/
structure WrittenLine where
  before : List Char
  id : Char
  between : List Char
  digits : List Char
  size : List Char
  before_white : ∀ c ∈ before, isWhite c
  id_visible : isWhite id = false
  between_white : ∀ c ∈ between, isWhite c
  digits_ne : digits ≠ []
  digits_hex : ∀ c ∈ digits, isDigitOf 16 c
  digits_lt : number 16 digits < 2 ^ 64
  size_ne : size ≠ []
  size_decimal : ∀ c ∈ size, isDigitOf 10 c

namespace WrittenLine

def text (l : WrittenLine) : List Char :=
  l.before ++ l.id :: (l.between ++ l.digits ++ ',' :: (l.size ++ ['\n']))

/-- The access that the line stands for. -/
def access (l : WrittenLine) : Access := ⟨l.id, BitVec.ofNat 64 (number 16 l.digits)⟩

end WrittenLine

def fileText (lines : List WrittenLine) : List Char := lines.flatMap WrittenLine.text

/-- The accesses of the lines as the program takes them. -/
def scanned (lines : List WrittenLine) : List TraceLine := lines.map fun l => l.access.scan

/-- An access as it is written in a trace. -/
def Access.written (a : Access) (h : isWhite a.id = false) (size : ℕ) : WrittenLine where
  before := [' ']
  id := a.id
  between := [' ']
  digits := Nat.toDigits 16 a.addr.toNat
  size := Nat.toDigits 10 size
  before_white := List.forall_mem_singleton.2 rfl
  id_visible := h
  between_white := List.forall_mem_singleton.2 rfl
  digits_ne := Nat.toDigits_ne_nil
  digits_hex := isDigitOf_toDigits (by decide) le_rfl
  digits_lt := by
    rw [number_toDigits (by decide) le_rfl]
    exact a.addr.isLt
  size_ne := Nat.toDigits_ne_nil
  size_decimal := isDigitOf_toDigits (by decide) (by decide)

/-- Every access can be written. -/
lemma Access.access_written (a : Access) (h : isWhite a.id = false) (size : ℕ) :
    (a.written h size).access = a := by
  rw [WrittenLine.access, written, number_toDigits (by decide) le_rfl, BitVec.ofNat_toNat,
    BitVec.setWidth_eq]

/-! ## What the loop reads -/

lemma toUnsigned_natCast {n : ℕ} (h : n < 2 ^ 64) :
    toUnsigned n = (BitVec.ofNat 64 n).setWidth 32 := by
  rw [toUnsigned, if_pos (by simpa using h), BitVec.ofInt_natCast,
    BitVec.setWidth_ofNat_of_le (by decide)]

/-- A call of `fscanf` reads a line up to the end of its size. -/
lemma scanLine_text (l : WrittenLine) (addr : Option (BitVec 32)) (rest : List Char) :
    scanLine addr (l.text ++ rest) = some (l.id, some l.access.scan.addr, '\n' :: rest) := by
  have hid : (l.text ++ rest).dropWhile isWhite =
      l.id :: (l.between ++ l.digits ++ ',' :: (l.size ++ '\n' :: rest)) := by
    rw [WrittenLine.text, List.append_assoc, List.dropWhile_append_of_pos l.before_white,
      List.cons_append, List.dropWhile_cons_of_neg (by simp [l.id_visible])]
    simp
  have haddr : scanNumber 16 (l.between ++ l.digits ++ ',' :: (l.size ++ '\n' :: rest)) =
      (some (number 16 l.digits : ℤ), ',' :: (l.size ++ '\n' :: rest)) := by
    refine scanNumber_digits l.between_white l.digits_ne l.digits_hex ?_
    intro c hc
    obtain rfl : ',' = c := Option.some.inj hc
    decide
  have hsize : scanNumber 10 (l.size ++ '\n' :: rest) =
      (some (number 10 l.size : ℤ), '\n' :: rest) := by
    show scanNumber 10 ([] ++ l.size ++ '\n' :: rest) = _
    refine scanNumber_digits (by simp) l.size_ne l.size_decimal ?_
    intro c hc
    obtain rfl : '\n' = c := Option.some.inj hc
    decide
  rw [scanLine, hid]
  dsimp only
  rw [haddr]
  show some (l.id, some (toUnsigned (number 16 l.digits)),
    (scanNumber 10 (l.size ++ '\n' :: rest)).2) = _
  rw [hsize, toUnsigned_natCast l.digits_lt]
  rfl

/-- White space in front of what a call reads makes no difference. -/
lemma scanLine_white {white : List Char} (h : ∀ c ∈ white, isWhite c)
    (addr : Option (BitVec 32)) (file : List Char) :
    scanLine addr (white ++ file) = scanLine addr file := by
  rw [scanLine, scanLine, List.dropWhile_append_of_pos h]

lemma simulateFile_white {white : List Char} (h : ∀ c ∈ white, isWhite c) (s E b : ℤ) (sim : Sim)
    (addr : Option (BitVec 32)) (file : List Char) :
    simulateFile s E b sim addr (white ++ file) = simulateFile s E b sim addr file := by
  rw [simulateFile, simulateFile, scanLine_white h]

/-- A round of the loop serves the access that its line stands for. -/
lemma simulateFile_text (s E b : ℤ) (sim : Sim) (addr : Option (BitVec 32)) (l : WrittenLine)
    (rest : List Char) :
    simulateFile s E b sim addr (l.text ++ rest) =
      (step s E b sim l.access.scan).bind fun sim =>
        simulateFile s E b sim (some l.access.scan.addr) rest := by
  have hnewline : ∀ c ∈ ['\n'], isWhite c := List.forall_mem_singleton.2 rfl
  have hrest : ∀ sim, simulateFile s E b sim (some l.access.scan.addr) ('\n' :: rest) =
      simulateFile s E b sim (some l.access.scan.addr) rest :=
    fun sim => simulateFile_white hnewline s E b sim _ rest
  rw [simulateFile, scanLine_text]
  dsimp only
  by_cases hI : l.id = 'I'
  · rw [if_pos hI, hrest, step, if_pos (show l.access.scan.id = 'I' from hI), Option.bind_some]
  · rw [if_neg hI, Option.bind_some]
    simp only [hrest]
    rfl

/-- The loop serves the accesses of the lines in their order. -/
lemma simulateFile_fileText (s E b : ℤ) (lines : List WrittenLine) {tail : List Char}
    (htail : ∀ c ∈ tail, isWhite c) (sim : Sim) (addr : Option (BitVec 32)) :
    simulateFile s E b sim addr (fileText lines ++ tail) =
      (scanned lines).foldlM (step s E b) sim := by
  induction lines generalizing sim addr with
  | nil =>
    have hend : scanLine addr [] = none := rfl
    show simulateFile s E b sim addr ([] ++ tail) = some sim
    rw [List.nil_append, ← List.append_nil tail, simulateFile_white htail, simulateFile, hend]
  | cons l lines ih =>
    rw [fileText, List.flatMap_cons, List.append_assoc, simulateFile_text, scanned, List.map_cons,
      List.foldlM_cons]
    exact Option.bind_congr fun sim _ => ih sim _

/-! ## The results -/

/-- **The loop reads back what is written.** On the text of any lines, whatever their white space
and their digits, the program does what it does on their accesses. -/
theorem file_read_back (s E b : ℤ) (lines : List WrittenLine) {tail : List Char}
    (htail : ∀ c ∈ tail, isWhite c) :
    simulateFile s E b Sim.start none (fileText lines ++ tail) =
      simulate s E b (scanned lines) :=
  simulateFile_fileText s E b lines htail Sim.start none

theorem file_read_back_typed :
    (simulateFile 4 1 4 Sim.start none " L 10,1\n M 20,4\n\n".toList).map Sim.counts =
      some ⟨1, 2, 0⟩ := by
  have htext : " L 10,1\n M 20,4\n\n".toList =
      fileText [Access.written ⟨'L', 0x10⟩ (by decide) 1,
        Access.written ⟨'M', 0x20⟩ (by decide) 4] ++
        ['\n'] := by decide
  rw [htext, file_read_back 4 1 4 _ (List.forall_mem_singleton.2 rfl), scanned, List.map_cons,
    List.map_singleton, Access.access_written, Access.access_written]
  decide

/-- **The counts of any file are those of the reference.** The file may have lines of any form: the
program counts the accesses that `fscanf` makes of them, whatever they are, as an LRU cache does. -/
theorem file_counts (hs : s ≤ 5) (hE : 1 ≤ E) (h1 : 1 ≤ s + b) (hsb : s + b ≤ 31)
    {trace : List TraceLine} (hread : readTrace none file = some trace)
    (hn : (traceAccesses s b trace).length < 2 ^ 31 - 1) :
    ∃ sim, simulateFile s E b Sim.start none file = some sim ∧
      sim.counts = Counts.ofStats (lruCache s E b trace).stats := by
  obtain ⟨sim, hsim, h⟩ := simulate_refines hs hE h1 hsb trace hn
  refine ⟨sim, ?_, h.counts⟩
  rw [simulateFile_eq, hread, ← hsim]
  rfl

/-- The second line has no address: it is taken for two accesses, both to the address before. -/
theorem file_counts_malformed :
    ∃ sim, simulateFile 4 1 4 Sim.start none "L 10,4\nM,\n".toList = some sim ∧
      sim.counts = ⟨3, 1, 0⟩ := by
  have hL : scanLine none "L 10,4\nM,\n".toList = some ('L', some 0x10, "\nM,\n".toList) := by
    decide
  have hM : scanLine (some 0x10) "\nM,\n".toList = some ('M', some 0x10, ",\n".toList) := by decide
  have hcomma : scanLine (some 0x10) ",\n".toList = some (',', some 0x10, "".toList) := by decide
  have hend : scanLine (some 0x10) "".toList = none := by decide
  have hread : readTrace none "L 10,4\nM,\n".toList =
      some [⟨'L', 0x10⟩, ⟨'M', 0x10⟩, ⟨',', 0x10⟩] := by
    rw [readTrace_access hL (by decide), readTrace_access hM (by decide),
      readTrace_access hcomma (by decide), readTrace, hend]
    rfl
  obtain ⟨sim, hsim, hcounts⟩ := file_counts (s := 4) (E := 1) (b := 4) (by decide) (by decide)
    (by decide) (by decide) hread (by decide)
  exact ⟨sim, hsim, hcounts.trans (by decide)⟩

end Cachelab
end SystemsLabs
