import Mathlib.Data.List.TakeWhile
import SystemsLabs.Memory.Pointers
import SystemsLabs.Tshlab.Shell

/-!
# process_request

The request line is read into `buf`, `sscanf` cuts the URI out of it, and what follows `http://`
goes to `host`. There the first `/` and the first `:` are looked up, and then `host` is cut at
both. The arrays are not initialised. Strings are lists of characters, and `atoi` is the function
of the C library.
-/

namespace SystemsLabs
namespace Proxylab

open Memory
open Tshlab (atoi digits)

def MAXLINE : ℕ := 8192

/-! ## The function -/

/-- The arrays of `process_request`. -/
structure Arrays where
  buf : List Char
  method : List Char
  uri : List Char
  version : List Char
  host : List Char
  path : List Char

/-- The characters that `rio_readlineb` reads: at most `n`, and up to a newline. -/
def readline : (n : ℕ) → List Char → List Char
  | 0, _ => []
  | _, [] => []
  | n + 1, c :: input => if c = '\n' then [c] else c :: readline n input

/-- Writes a string with its NUL to the start of an array. -/
def store (array s : List Char) : List Char := s ++ '\x00' :: array.drop (s.length + 1)

/-- `Rio_readlineb(&rio, buf, MAXLINE)`, which writes nothing at the end of the file. -/
def rioReadlineb (buf input : List Char) : List Char :=
  let line := readline (MAXLINE - 1) input
  if line = [] then buf else store buf line

def isspace (c : Char) : Bool := c = ' ' ∨ ('\t' ≤ c ∧ c ≤ '\r')

/-- What `%s` reads, and what it leaves. -/
def scanString (s : List Char) : Option (List Char × List Char) :=
  let s := s.dropWhile isspace
  let word := s.takeWhile fun c => !isspace c
  if word = [] then none else some (word, s.drop word.length)

/-- `sscanf(buf, "%s %s %s", method, uri, version)`. -/
def scanRequest (a : Arrays) : Arrays :=
  match scanString (stringAt a.buf 0) with
  | none => a
  | some (method, rest) =>
    let a := { a with method := store a.method method }
    match scanString rest with
    | none => a
    | some (uri, rest) =>
      let a := { a with uri := store a.uri uri }
      match scanString rest with
      | none => a
      | some (version, _) => { a with version := store a.version version }

def http : List Char := ['h', 't', 't', 'p', ':', '/', '/']

/-- `sscanf(uri, "http://%s", host)`. -/
def scanHost (a : Arrays) : Arrays :=
  let uri := stringAt a.uri 0
  if http <+: uri then
    match scanString (uri.drop http.length) with
    | none => a
    | some (host, _) => { a with host := store a.host host }
  else a

/-- What `process_request` makes of the arrays `host` and `path`, and the port. -/
def split (host path : List Char) : List Char × List Char × ℤ :=
  let h := strchr host 0 '/'
  let p := strchr host 0 ':'
  let (host, path) :=
    match h with
    | some h => (host.set h '\x00', store path (stringAt host h))
    | none => (host, path)
  match p with
  | some p => (host.set p '\x00', path, atoi (stringAt host (p + 1)))
  | none => (host, path, 80)

/-- The call of `send_request`. -/
structure Request where
  uri : List Char
  host : List Char
  path : List Char
  port : ℤ

/-- `process_request`, where the client sends `input`. -/
def processRequest (a : Arrays) (input : List Char) : Request :=
  let a := scanHost (scanRequest { a with buf := rioReadlineb a.buf input })
  let (host, path, port) := split a.host a.path
  ⟨stringAt a.uri 0, stringAt host 0, stringAt path 0, port⟩

/-! ## URIs -/

/-- A URI `http://host[:port]path`. -/
structure Uri where
  host : List Char
  port : Option (List Char)
  path : List Char

/-- The part between the slashes. -/
def Uri.hostport (u : Uri) : List Char :=
  u.host ++
    match u.port with
    | none => []
    | some port => ':' :: port

def Uri.text (u : Uri) : List Char := http ++ (u.hostport ++ u.path)

/-- The port that the URI means. -/
def Uri.portNumber (u : Uri) : ℤ :=
  match u.port with
  | none => 80
  | some port => digits port

structure Uri.WellFormed (u : Uri) : Prop where
  host_ne : u.host ≠ []
  host : ∀ c ∈ u.host, c ≠ '/' ∧ c ≠ ':' ∧ isspace c = false
  port : ∀ port ∈ u.port, port ≠ [] ∧ (∀ c ∈ port, c.isDigit) ∧ digits port < 2 ^ 31
  path_head : u.path.head? = some '/'
  path : ∀ c ∈ u.path, isspace c = false
  length : u.text.length < MAXLINE

/-- The arrays have their length, whatever is in them. -/
structure Arrays.Sized (a : Arrays) : Prop where
  buf : a.buf.length = MAXLINE
  method : a.method.length = MAXLINE
  uri : a.uri.length = MAXLINE
  version : a.version.length = MAXLINE
  host : a.host.length = MAXLINE
  path : a.path.length = MAXLINE

/-- A request for `u`: a method, a blank, the URI, and white space before anything else. -/
structure Asks (u : Uri) (method more : List Char) : Prop where
  method_ne : method ≠ []
  method : ∀ c ∈ method, isspace c = false ∧ c ≠ '\x00'
  more : ∀ c ∈ more.head?, isspace c = true

/-- The host, the port and the path of the URI are those of the call. -/
def SplitsUri (u : Uri) (method more : List Char) : Prop :=
  ∀ a : Arrays, a.Sized →
    let r := processRequest a (method ++ ' ' :: (u.text ++ more))
    r.host = u.host ∧ r.path = u.path ∧ r.port = u.portNumber

/-- The condition: the line up to the end of the URI fits into `buf`, the URI has no NUL, and where
it has no port, either its path has no colon, or the text behind the first one reads as 80. -/
structure Uri.Plain (u : Uri) (method : List Char) : Prop where
  fits : method.length + 1 + u.text.length < MAXLINE
  noNul : '\x00' ∉ u.text
  colon : u.port = none → ':' ∈ u.path → atoi (u.path.dropWhile (· ≠ ':')).tail = 80

/-! ## Reading the request line -/

section Line
variable {s w x t array more method : List Char} {n : ℕ} {u : Uri}

/-- A line that goes on behind `s`. -/
lemma readline_append (hs : '\n' ∉ s) (n : ℕ) (more : List Char) :
    readline n (s ++ more) = s.take n ++ readline (n - s.length) more := by
  induction s generalizing n with
  | nil => simp
  | cons c s ih =>
    obtain ⟨hc, hs⟩ := not_or.mp (fun h => hs (List.mem_cons.mpr h))
    cases n with
    | zero => simp [readline]
    | succ n =>
      rw [List.cons_append, readline, if_neg (Ne.symm hc), ih hs, List.take_succ_cons,
        List.length_cons, Nat.succ_sub_succ_eq_sub, List.cons_append]

/-- The end of a line is white space. -/
lemma readline_head (h : ∀ c ∈ more.head?, isspace c = true) (n : ℕ) :
    ∀ c ∈ (readline n more).head?, isspace c = true := by
  cases n with
  | zero => simp [readline]
  | succ n =>
    cases more with
    | nil => simp [readline]
    | cons c more =>
      rw [readline]
      split_ifs <;> exact h

/-- A string that has been stored is read back up to its NUL. -/
lemma stringAt_store (array s : List Char) : stringAt (store array s) 0 = s.takeWhile (· ≠ '\x00') := by
  rw [stringAt, List.drop_zero, store, List.takeWhile_append]
  split_ifs with h
  · rw [List.takeWhile_cons_of_neg (by simp), List.append_nil]
    exact ((List.takeWhile_sublist _).eq_of_length h).symm
  · rfl

/-- A string that is stored can be read again. -/
lemma stringAt_store_of_noNul (array : List Char) (hs : '\x00' ∉ s) :
    stringAt (store array s) 0 = s := by
  have h := stringAt_append (d := []) (t := array.drop (s.length + 1)) hs
  exact h

/-- `%s` reads a word behind white space. -/
lemma scanString_append (hw : ∀ c ∈ w, isspace c = true) (hx : ∀ c ∈ x, isspace c = false)
    (hne : x ≠ []) (htail : ∀ c ∈ t.head?, isspace c = true) :
    scanString (w ++ (x ++ t)) = some (x, t) := by
  have hword : ∀ c ∈ x, (!isspace c) = true := fun c hc => by rw [hx c hc]; rfl
  have hrest : t.takeWhile (fun c => !isspace c) = [] := by
    cases t with
    | nil => rfl
    | cons c t => exact List.takeWhile_cons_of_neg (by simp [htail c rfl])
  have hstart : (x ++ t).dropWhile isspace = x ++ t := by
    obtain ⟨c, x, rfl⟩ := List.exists_cons_of_ne_nil hne
    exact List.dropWhile_cons_of_neg (by simp [hx c List.mem_cons_self])
  rw [scanString, List.dropWhile_append_of_pos hw, hstart, List.takeWhile_append_of_pos hword, hrest,
    List.append_nil]
  simp only [if_neg hne, List.drop_left]

/-- White space is no string. -/
lemma scanString_nil (hw : ∀ c ∈ w, isspace c = true) : scanString w = none := by
  have hdrop : w.dropWhile isspace = [] := List.dropWhile_eq_nil_iff.mpr hw
  rw [scanString, hdrop]
  rfl

/-- `sscanf` writes to `uri` alone. -/
lemma scanRequest_frame (a : Arrays) :
    (scanRequest a).host = a.host ∧ (scanRequest a).path = a.path := by
  unfold scanRequest
  split
  · exact ⟨rfl, rfl⟩
  · split
    · exact ⟨rfl, rfl⟩
    · split <;> exact ⟨rfl, rfl⟩

/-- A string ends at the first NUL behind it. -/
lemma takeWhile_of_noNul (hs : '\x00' ∉ s) (tail : List Char) :
    (s ++ tail).takeWhile (· ≠ '\x00') = s ++ tail.takeWhile (· ≠ '\x00') :=
  List.takeWhile_append_of_pos fun _ hc => decide_eq_true (ne_of_mem_of_not_mem hc hs)

/-- What `sscanf` gets to see of the URI. -/
def Uri.seen (u : Uri) (method : List Char) : List Char :=
  (u.text.take (MAXLINE - 1 - (method.length + 1))).takeWhile (· ≠ '\x00')

/-- A digit is no white space. -/
lemma isspace_of_isDigit {c : Char} (h : c.isDigit) : isspace c = false := by
  simp only [Char.isDigit, ge_iff_le, Bool.and_eq_true, decide_eq_true_eq, UInt32.le_iff_toNat_le] at h
  simp only [isspace, decide_eq_false_iff_not, Char.le_def, UInt32.le_iff_toNat_le]
  rintro (rfl | h')
  · exact absurd h.1 (by decide)
  · have h₁ : '0'.val.toNat = 48 := rfl
    have h₂ : '\r'.val.toNat = 13 := rfl
    omega

/-- Host and port have no white space in them. -/
lemma Uri.WellFormed.isspace_hostport (hu : u.WellFormed) : ∀ c ∈ u.hostport, isspace c = false := by
  intro c hc
  rcases List.mem_append.mp hc with hc | hc
  · exact (hu.host c hc).2.2
  · cases hport : u.port with
    | none =>
      rw [hport] at hc
      cases hc
    | some port =>
      rw [hport] at hc
      obtain ⟨-, hdigits, -⟩ := hu.port port hport
      rcases List.mem_cons.mp hc with rfl | hc
      · decide
      · exact isspace_of_isDigit (hdigits c hc)

/-- A URI has no white space in it. -/
lemma Uri.WellFormed.isspace_text (hu : u.WellFormed) : ∀ c ∈ u.text, isspace c = false := by
  intro c hc
  rcases List.mem_append.mp hc with hc | hc
  · revert hc
    simpa [http] using fun h => by rcases h with rfl | rfl | rfl | rfl | rfl <;> rfl
  · rcases List.mem_append.mp hc with hc | hc
    · exact hu.isspace_hostport c hc
    · exact hu.path c hc

/-- What has no white space in it is within one line. -/
lemma newline_notMem (hs : ∀ c ∈ s, isspace c = false) : '\n' ∉ s := by
  intro hmem
  have h := hs '\n' hmem
  revert h
  decide

/-- The characters of the request line in `buf`. -/
lemma readline_request (hu : u.WellFormed) (h : Asks u method more) :
    readline (MAXLINE - 1) (method ++ ' ' :: (u.text ++ more)) =
      (method ++ ' ' :: u.text).take (MAXLINE - 1) ++
        readline (MAXLINE - 1 - (method ++ ' ' :: u.text).length) more := by
  have hnewline : '\n' ∉ method ++ ' ' :: u.text := by
    have hmethod := newline_notMem fun c hc => (h.method c hc).1
    have htext := newline_notMem hu.isspace_text
    simp [hmethod, htext]
  rw [← readline_append hnewline]
  simp

/-- The request line, where the URI begins in front of the end of `buf`. -/
lemma stringAt_buf (hu : u.WellFormed) (h : Asks u method more) (hroom : method.length + 1 < MAXLINE - 1)
    (buf : List Char) : ∃ tail, (∀ c ∈ tail.head?, isspace c = true) ∧
      stringAt (rioReadlineb buf (method ++ ' ' :: (u.text ++ more))) 0 =
        method ++ ' ' :: (u.seen method ++ tail) := by
  have hnul : '\x00' ∉ method ++ [' '] := by
    have hmethod : '\x00' ∉ method := fun hmem => (h.method _ hmem).2 rfl
    simp [hmethod]
  have htake : (method ++ ' ' :: u.text).take (MAXLINE - 1) =
      method ++ [' '] ++ u.text.take (MAXLINE - 1 - (method.length + 1)) := by
    rw [List.append_cons, List.take_append, List.take_of_length_le (by simpa using hroom.le)]
    simp
  have hhead := readline_head h.more (MAXLINE - 1 - (method ++ ' ' :: u.text).length)
  rw [rioReadlineb, readline_request hu h, htake, if_neg (by simp), stringAt_store,
    List.append_assoc (method ++ [' ']), takeWhile_of_noNul hnul, List.takeWhile_append]
  generalize readline _ more = R at hhead
  split_ifs with hall
  · refine ⟨R.takeWhile (· ≠ '\x00'), ?_, ?_⟩
    · cases R with
      | nil => simp
      | cons c R =>
        have hspace : isspace c = true := hhead c rfl
        have hne : c ≠ '\x00' := by
          rintro rfl
          exact absurd hspace (by decide)
        rw [List.takeWhile_cons_of_pos (by simpa using hne)]
        rintro x ⟨⟩
        exact hspace
    · rw [Uri.seen, (List.takeWhile_sublist _).eq_of_length hall]
      simp
  · exact ⟨[], by simp, by simp [Uri.seen]⟩

/-- Where the method fills `buf`, no URI is read. -/
lemma scanRequest_full (h : Asks u method more) (hfull : MAXLINE - 1 ≤ method.length + 1)
    (a : Arrays) (rest : List Char) :
    (scanRequest { a with buf := rioReadlineb a.buf (method ++ ' ' :: rest) }).uri = a.uri := by
  have hspace : ∀ c ∈ method.take (MAXLINE - 1), isspace c = false :=
    fun c hc => (h.method c (List.mem_of_mem_take hc)).1
  have hne : method.take (MAXLINE - 1) ≠ [] := by
    rw [Ne, List.take_eq_nil_iff]
    exact not_or.mpr ⟨by decide, h.method_ne⟩
  obtain ⟨w, hw, hline⟩ : ∃ w, (∀ c ∈ w, c = ' ') ∧
      readline (MAXLINE - 1) (method ++ ' ' :: rest) = method.take (MAXLINE - 1) ++ w := by
    rw [readline_append (newline_notMem fun c hc => (h.method c hc).1)]
    obtain h₀ | h₁ : MAXLINE - 1 - method.length = 0 ∨ MAXLINE - 1 - method.length = 1 := by omega
    · exact ⟨[], by simp, by rw [h₀, readline]⟩
    · refine ⟨[' '], by simp, ?_⟩
      rw [h₁, readline, readline]
      simp
  have hnul : '\x00' ∉ method.take (MAXLINE - 1) ++ w := by
    intro hmem
    rcases List.mem_append.mp hmem with hmem | hmem
    · exact (h.method _ (List.mem_of_mem_take hmem)).2 rfl
    · exact absurd (hw _ hmem) (by decide)
  have hblank : ∀ c ∈ w, isspace c = true := fun c hc => by rw [hw c hc]; rfl
  have hscan := scanString_append (w := []) (t := w) (by simp) hspace hne
    (fun c hc => hblank c (List.mem_of_mem_head? hc))
  rw [List.nil_append] at hscan
  rw [scanRequest, rioReadlineb, hline, if_neg (by simp [hne])]
  simp only [stringAt_store_of_noNul _ hnul, hscan, scanString_nil hblank]

/-- The URI that is read. -/
lemma uri_scanRequest (hu : u.WellFormed) (h : Asks u method more) (a : Arrays) :
    stringAt (scanRequest { a with
      buf := rioReadlineb a.buf (method ++ ' ' :: (u.text ++ more)) }).uri 0 =
      if u.seen method = [] then stringAt a.uri 0 else u.seen method := by
  rcases Nat.lt_or_ge (method.length + 1) (MAXLINE - 1) with hroom | hfull
  · have hseen : u.seen method ≠ [] := by
      obtain ⟨n, hn⟩ : ∃ n, MAXLINE - 1 - (method.length + 1) = n + 1 :=
        ⟨MAXLINE - 1 - (method.length + 1) - 1, by omega⟩
      rw [Uri.seen, hn, Uri.text, http, List.cons_append, List.take_succ_cons,
        List.takeWhile_cons_of_pos (by decide)]
      exact List.cons_ne_nil _ _
    have hspace : ∀ c ∈ u.seen method, isspace c = false := fun c hc =>
      hu.isspace_text c (List.mem_of_mem_take ((List.takeWhile_sublist _).subset hc))
    have hnul : '\x00' ∉ u.seen method := fun hmem => by simpa using List.mem_takeWhile_imp hmem
    obtain ⟨tail, htail, hbuf⟩ := stringAt_buf hu h hroom a.buf
    have hscan := scanString_append (w := []) (t := ' ' :: (u.seen method ++ tail)) (by simp)
      (fun c hc => (h.method c hc).1) h.method_ne (by rintro c ⟨⟩; rfl)
    have hscan' := scanString_append (w := [' ']) (by simp [isspace]) hspace hseen htail
    rw [List.nil_append] at hscan
    rw [List.singleton_append] at hscan'
    rw [scanRequest, if_neg hseen]
    simp only [hbuf, hscan, hscan']
    split <;> exact stringAt_store_of_noNul _ hnul
  · have hseen : u.seen method = [] := by
      rw [Uri.seen, Nat.sub_eq_zero_of_le hfull, List.take_zero, List.takeWhile_nil]
    rw [if_pos hseen, scanRequest_full h hfull]

/-- What `host` holds behind the URI's `http://`. -/
lemma host_scanHost {a : Arrays} (huri : stringAt a.uri 0 = http ++ x)
    (hx : ∀ c ∈ x, isspace c = false) (hne : x ≠ []) :
    (scanHost a).host = store a.host x := by
  have hscan := scanString_append (w := []) (t := []) (by simp) hx hne (by simp)
  rw [List.nil_append, List.append_nil] at hscan
  rw [scanHost, huri]
  simp only [if_pos (List.prefix_append http x), List.drop_left, hscan]

/-- Where `http://` is missing, or nothing comes behind it, `host` is left as it is. -/
lemma host_scanHost_of_drop {a : Arrays} (h : (stringAt a.uri 0).drop http.length = []) :
    (scanHost a).host = a.host := by
  rw [scanHost]
  split_ifs
  · rw [h, scanString_nil (by simp)]
  · rfl

/-- The second `sscanf` writes to `host` alone. -/
lemma scanHost_frame (a : Arrays) : (scanHost a).uri = a.uri ∧ (scanHost a).path = a.path := by
  unfold scanHost
  dsimp only
  split_ifs
  · split <;> exact ⟨rfl, rfl⟩
  · exact ⟨rfl, rfl⟩

end Line

/-! ## Splitting -/

section Split
variable {host path port x y junk array : List Char} {u : Uri}

/-- The character behind a prefix is overwritten. -/
lemma set_length_append (x : List Char) (c c' : Char) (y : List Char) :
    (x ++ c :: y).set x.length c' = x ++ c' :: y := by
  simp

/-- The path begins at the first slash. -/
lemma strchr_slash (hslash : '/' ∉ x) (hnul : '\x00' ∉ x) (path junk : List Char) :
    strchr (x ++ '/' :: (path ++ '\x00' :: junk)) 0 '/' = some x.length := by
  have h := strchr_append (d := []) (t := path ++ '\x00' :: junk) hnul hslash (by decide)
  simpa using h

/-- From the slash on, the array holds the path. -/
lemma stringAt_slash (hpath : '\x00' ∉ path) (x junk : List Char) :
    stringAt (x ++ '/' :: (path ++ '\x00' :: junk)) x.length = '/' :: path := by
  have hnul : '\x00' ∉ '/' :: path := by simp [hpath]
  exact stringAt_append (t := junk) hnul

/-- Without a colon the port is 80. -/
lemma split_plain (hslash : '/' ∉ x) (hx : '\x00' ∉ x) (hpath : '\x00' ∉ path)
    (hcolon : ':' ∉ x) (hcolon' : ':' ∉ path) (junk array : List Char) :
    split (x ++ '/' :: (path ++ '\x00' :: junk)) array =
      (x ++ '\x00' :: (path ++ '\x00' :: junk), store array ('/' :: path), 80) := by
  have hnone : strchr (x ++ '/' :: (path ++ '\x00' :: junk)) 0 ':' = none := by
    have h := strchr_none (d := []) (s := x ++ '/' :: path) (q := ':') (t := junk)
      (by simp [hx, hpath]) (by simp [hcolon, hcolon'])
    simpa using h
  rw [split, strchr_slash hslash hx, hnone]
  simp only [stringAt_slash hpath, set_length_append]

/-- A colon in front of the path begins the port. -/
lemma split_port (hhost : '/' ∉ host ∧ ':' ∉ host ∧ '\x00' ∉ host)
    (hport : '/' ∉ port ∧ '\x00' ∉ port) (hpath : '\x00' ∉ path) (junk array : List Char) :
    split (host ++ ':' :: port ++ '/' :: (path ++ '\x00' :: junk)) array =
      (host ++ '\x00' :: (port ++ '\x00' :: (path ++ '\x00' :: junk)), store array ('/' :: path),
        atoi port) := by
  have hsome : strchr (host ++ ':' :: port ++ '/' :: (path ++ '\x00' :: junk)) 0 ':' =
      some host.length := by
    have h := strchr_append (d := []) (t := port ++ '/' :: (path ++ '\x00' :: junk))
      hhost.2.2 hhost.2.1 (by decide)
    simpa using h
  have hstring : stringAt (host ++ ':' :: port ++ '\x00' :: (path ++ '\x00' :: junk))
      (host.length + 1) = port := by
    have h := stringAt_append (d := host ++ [':']) (t := path ++ '\x00' :: junk) hport.2
    simpa using h
  rw [split, strchr_slash (by simp [hhost, hport]) (by simp [hhost, hport]), hsome]
  simp only [stringAt_slash hpath, set_length_append, hstring]
  rw [List.append_assoc, List.cons_append, set_length_append]

/-- Without a port, a colon in the path is taken for one. -/
lemma split_colon (hslash : '/' ∉ host) (hhost : '\x00' ∉ host) (hcolon : ':' ∉ host)
    (hx : '\x00' ∉ x) (hcolon' : ':' ∉ x) (hy : '\x00' ∉ y) (junk array : List Char) :
    split (host ++ '/' :: (x ++ ':' :: y ++ '\x00' :: junk)) array =
      (host ++ '\x00' :: (x ++ '\x00' :: y ++ '\x00' :: junk), store array ('/' :: (x ++ ':' :: y)),
        atoi y) := by
  have hsome : strchr (host ++ '/' :: (x ++ ':' :: y ++ '\x00' :: junk)) 0 ':' =
      some (host ++ '/' :: x).length := by
    have h := strchr_append (d := []) (s := host ++ '/' :: x) (q := ':')
      (t := y ++ '\x00' :: junk) (by simp [hhost, hx]) (by simp [hcolon, hcolon']) (by decide)
    simpa using h
  have hstring : stringAt (host ++ '\x00' :: (x ++ ':' :: y ++ '\x00' :: junk))
      ((host ++ '/' :: x).length + 1) = y := by
    have h := stringAt_append (d := host ++ '\x00' :: x ++ [':']) (t := junk) hy
    simpa [Nat.add_assoc] using h
  rw [split, strchr_slash hslash hhost, hsome]
  simp only [stringAt_slash (show '\x00' ∉ x ++ ':' :: y by simp [hx, hy]), set_length_append, hstring]
  simp

lemma digits_nonneg (s : List Char) : 0 ≤ digits s := by
  have hfold : ∀ (s : List Char) (n : ℤ), 0 ≤ n →
      0 ≤ s.foldl (fun (n : ℤ) c => 10 * n + (c.toNat - '0'.toNat : ℕ)) n := by
    intro s
    induction s with
    | nil => exact fun _ hn => hn
    | cons c s ih =>
      intro n hn
      exact ih _ (by positivity)
  exact hfold _ 0 le_rfl

/-- A port is read as its number. -/
lemma atoi_digits (hne : port ≠ []) (hdigits : ∀ c ∈ port, c.isDigit) (hlt : digits port < 2 ^ 31) :
    atoi port = digits port := by
  obtain ⟨c, s, rfl⟩ := List.exists_cons_of_ne_nil hne
  have hc : c.isDigit := hdigits c List.mem_cons_self
  have hspace : ¬(c = ' ' ∨ ('\t' ≤ c ∧ c ≤ '\r')) := by
    simpa [isspace] using isspace_of_isDigit hc
  have hnonneg := digits_nonneg (c :: s)
  have hcut : (max (-2 ^ 63) (min (2 ^ 63 - 1) (digits (c :: s)))).bmod (2 ^ 32) = digits (c :: s) := by
    rw [min_eq_right (by omega), max_eq_right (by omega), Int.bmod_def]
    split_ifs <;> omega
  rw [Tshlab.atoi, List.dropWhile_cons_of_neg (by simpa using hspace)]
  split
  · next s' heq =>
    obtain ⟨rfl, -⟩ := List.cons.inj heq
    exact absurd hc (by decide)
  · next s' heq =>
    obtain ⟨rfl, -⟩ := List.cons.inj heq
    exact absurd hc (by decide)
  · exact hcut

/-- A path begins with a slash. -/
lemma Uri.WellFormed.exists_path (hu : u.WellFormed) : ∃ rest, u.path = '/' :: rest := by
  have hhead := hu.path_head
  cases hpath : u.path with
  | nil =>
    rw [hpath] at hhead
    cases hhead
  | cons c rest =>
    rw [hpath] at hhead
    cases hhead
    exact ⟨rest, rfl⟩

/-- The first slash is that of the path. -/
lemma Uri.WellFormed.slash_notMem (hu : u.WellFormed) : '/' ∉ u.hostport := by
  intro hmem
  rcases List.mem_append.mp hmem with hmem | hmem
  · exact (hu.host _ hmem).1 rfl
  · cases hport : u.port with
    | none =>
      rw [hport] at hmem
      cases hmem
    | some port =>
      rw [hport] at hmem
      rcases List.mem_cons.mp hmem with heq | hmem
      · exact absurd heq (by decide)
      · exact absurd ((hu.port port hport).2.1 _ hmem) (by decide)

lemma Uri.WellFormed.hostport_ne (hu : u.WellFormed) : u.hostport ≠ [] :=
  List.append_ne_nil_of_left_ne_nil hu.host_ne _

/-- Where the URI is seen whole, host and path are cut out of it. -/
lemma processRequest_eq (hu : u.WellFormed) {method more : List Char} (h : Asks u method more)
    (hseen : u.seen method = u.text) (a : Arrays) :
    let r := processRequest a (method ++ ' ' :: (u.text ++ more))
    let s := split (store a.host (u.hostport ++ u.path)) a.path
    r.host = stringAt s.1 0 ∧ r.path = stringAt s.2.1 0 ∧ r.port = s.2.2 := by
  have hspace : ∀ c ∈ u.hostport ++ u.path, isspace c = false := fun c hc =>
    hu.isspace_text c (List.mem_append_right http hc)
  have hne : u.hostport ++ u.path ≠ [] := List.append_ne_nil_of_left_ne_nil hu.hostport_ne _
  have huri := uri_scanRequest hu h a
  rw [hseen, if_neg (by simp [Uri.text, http])] at huri
  have hhost := host_scanHost huri hspace hne
  obtain ⟨hhost', hpath⟩ := scanRequest_frame
    { a with buf := rioReadlineb a.buf (method ++ ' ' :: (u.text ++ more)) }
  obtain ⟨-, hpath'⟩ := scanHost_frame (scanRequest
    { a with buf := rioReadlineb a.buf (method ++ ' ' :: (u.text ++ more)) })
  rw [processRequest]
  simp only [hhost, hhost', hpath, hpath', and_self]

/-- What is read of a URI is a prefix of it. -/
lemma Uri.seen_prefix (u : Uri) (method : List Char) : u.seen method <+: u.text :=
  (List.takeWhile_prefix _).trans (List.take_prefix _ _)

/-- The URI is read as a whole if it fits and has no NUL in it. -/
lemma Uri.seen_eq_iff (u : Uri) (method : List Char) :
    u.seen method = u.text ↔ method.length + 1 + u.text.length < MAXLINE ∧ '\x00' ∉ u.text := by
  have hpos : 0 < u.text.length := by simp [Uri.text, http]
  constructor
  · intro h
    have hlen : u.text.length ≤ (u.text.take (MAXLINE - 1 - (method.length + 1))).length := by
      rw [← congrArg List.length h]
      exact (List.takeWhile_sublist _).length_le
    rw [List.length_take] at hlen
    refine ⟨by omega, fun hmem => ?_⟩
    rw [← h] at hmem
    simpa using List.mem_takeWhile_imp hmem
  · rintro ⟨hfits, hnul⟩
    have hwhole := takeWhile_of_noNul hnul []
    rw [Uri.seen, List.take_of_length_le (by omega)]
    simpa using hwhole

/-- Arrays of zeros. -/
def Arrays.zero : Arrays :=
  let zeros := List.replicate MAXLINE '\x00'
  ⟨zeros, zeros, zeros, zeros, zeros, zeros⟩

lemma Arrays.zero_sized : zero.Sized := by
  constructor <;> exact List.length_replicate

lemma stringAt_zeros : stringAt (List.replicate MAXLINE '\x00') 0 = [] := by
  rw [MAXLINE, List.replicate_succ]
  exact List.takeWhile_cons_of_neg (by simp)

/-- What `host` holds of a URI that may have been cut. -/
lemma host_zero (hu : u.WellFormed) {method more : List Char} (h : Asks u method more) :
    ∃ junk, (scanHost (scanRequest { Arrays.zero with
        buf := rioReadlineb Arrays.zero.buf (method ++ ' ' :: (u.text ++ more)) })).host =
      (u.seen method).drop http.length ++ '\x00' :: junk := by
  have huri := uri_scanRequest hu h Arrays.zero
  have huri : stringAt (scanRequest { Arrays.zero with
      buf := rioReadlineb Arrays.zero.buf (method ++ ' ' :: (u.text ++ more)) }).uri 0 =
      u.seen method := by
    rw [huri]
    split_ifs with hseen
    · rw [hseen]
      exact stringAt_zeros
    · rfl
  by_cases hx : (u.seen method).drop http.length = []
  · rw [host_scanHost_of_drop (by rw [huri, hx]), (scanRequest_frame _).1, hx]
    exact ⟨List.replicate (MAXLINE - 1) '\x00', rfl⟩
  · have hpre : u.seen method = http ++ (u.seen method).drop http.length := by
      have hlen : http.length ≤ (u.seen method).length := by
        by_contra hlt
        exact hx (List.drop_eq_nil_of_le (by omega))
      have hhttp : http <+: u.seen method :=
        List.prefix_of_prefix_length_le (List.prefix_append http _) (u.seen_prefix method) hlen
      obtain ⟨x, hx⟩ := hhttp
      rw [← hx, List.drop_left]
    have hspace : ∀ c ∈ (u.seen method).drop http.length, isspace c = false := fun c hc =>
      hu.isspace_text c ((u.seen_prefix method).subset (List.mem_of_mem_drop hc))
    rw [hpre] at huri
    rw [host_scanHost huri hspace hx]
    exact ⟨_, rfl⟩

/-- The path that is cut out, if there is a slash. -/
lemma split_path (hx : '\x00' ∉ x) (junk array : List Char) :
    (split (x ++ '\x00' :: junk) array).2.1 = array ∨
      ∃ y z, x = y ++ '/' :: z ∧ '/' ∉ y ∧
        (split (x ++ '\x00' :: junk) array).2.1 = store array ('/' :: z) := by
  by_cases hslash : '/' ∈ x
  · obtain ⟨y, z, rfl, hy⟩ := List.eq_append_cons_of_mem hslash
    have hyz : '\x00' ∉ y ∧ '\x00' ∉ z := by
      simpa using hx
    refine .inr ⟨y, z, rfl, hy, ?_⟩
    rw [List.append_assoc, List.cons_append, split, strchr_slash hy hyz.1]
    cases strchr (y ++ '/' :: (z ++ '\x00' :: junk)) 0 ':' with
    | none => rw [← stringAt_slash hyz.2 y junk]
    | some p => rw [← stringAt_slash hyz.2 y junk]
  · have hnone := strchr_none (d := []) (t := junk) hx hslash
    rw [List.nil_append, List.length_nil] at hnone
    rw [split, hnone]
    left
    cases strchr (x ++ '\x00' :: junk) 0 ':' with
    | none => rfl
    | some p => rfl

/-- The host ends at the first slash. -/
lemma takeWhile_slash (hy : '/' ∉ y) (x : List Char) : (y ++ '/' :: x).takeWhile (· ≠ '/') = y := by
  have hne : ∀ c ∈ y, decide (c ≠ '/') = true := fun c hc =>
    decide_eq_true (ne_of_mem_of_not_mem hc hy)
  rw [List.takeWhile_append_of_pos hne, List.takeWhile_cons_of_neg (by simp), List.append_nil]

/-- A path that is whole comes from a URI that is whole. -/
lemma seen_of_splitsUri (hu : u.WellFormed) {method more : List Char} (h : Asks u method more)
    (hsplit : SplitsUri u method more) : u.seen method = u.text := by
  obtain ⟨-, hpath, -⟩ := hsplit Arrays.zero Arrays.zero_sized
  obtain ⟨junk, hhost⟩ := host_zero hu h
  obtain ⟨rest, hrest⟩ := hu.exists_path
  have hnul : '\x00' ∉ (u.seen method).drop http.length := fun hmem => by
    simpa using List.mem_takeWhile_imp (List.mem_of_mem_drop hmem)
  have harray : (scanHost (scanRequest { Arrays.zero with
      buf := rioReadlineb Arrays.zero.buf (method ++ ' ' :: (u.text ++ more)) })).path =
      Arrays.zero.path := by
    rw [(scanHost_frame _).2, (scanRequest_frame _).2]
  rw [processRequest] at hpath
  simp only [hhost, harray] at hpath
  rcases split_path hnul junk Arrays.zero.path with hnone | ⟨y, z, hyz, hy, hsome⟩
  · rw [hnone, hrest] at hpath
    cases hpath.symm.trans stringAt_zeros
  · -- the slash in what is seen of the URI is the first slash of the path
    have hz : '\x00' ∉ '/' :: z := by
      intro hmem
      rw [hyz] at hnul
      exact hnul (List.mem_append_right y hmem)
    rw [hsome, stringAt_store_of_noNul _ hz] at hpath
    rw [hpath] at hyz
    have hdrop := (u.seen_prefix method).drop http.length
    rw [Uri.text, List.drop_left, hyz, hrest] at hdrop
    obtain ⟨more', hmore⟩ := hdrop
    have hy' : y = u.hostport := by
      rw [List.append_assoc] at hmore
      have htake := congrArg (List.takeWhile (· ≠ '/')) hmore
      rwa [List.cons_append, takeWhile_slash hy, takeWhile_slash hu.slash_notMem] at htake
    have hlen := congrArg List.length hyz
    rw [hy', List.length_drop] at hlen
    apply (u.seen_prefix method).eq_of_length
    rw [Uri.text, List.length_append, ← hlen]
    have hpos := List.length_pos_of_ne_nil hu.hostport_ne
    rw [List.length_append] at hlen
    omega

/-- The text behind the first colon. -/
lemma dropWhile_colon (hx : ':' ∉ x) (y : List Char) :
    ((x ++ ':' :: y).dropWhile (· ≠ ':')).tail = y := by
  have hne : ∀ c ∈ x, decide (c ≠ ':') = true := fun c hc =>
    decide_eq_true (ne_of_mem_of_not_mem hc hx)
  rw [List.dropWhile_append_of_pos hne, List.dropWhile_cons_of_neg (by simp), List.tail_cons]

/-- A host has neither of the separators in it. -/
lemma Uri.WellFormed.host_notMem (hu : u.WellFormed) : '/' ∉ u.host ∧ ':' ∉ u.host :=
  ⟨fun hmem => (hu.host _ hmem).1 rfl, fun hmem => (hu.host _ hmem).2.1 rfl⟩

/-- A stored string has the old contents of the array behind it. -/
lemma store_append (array x y : List Char) :
    ∃ junk, store array (x ++ y) = x ++ (y ++ '\x00' :: junk) :=
  ⟨_, List.append_assoc ..⟩

/-- What `process_request` makes of a URI that is seen whole and has a port. -/
lemma processRequest_port (hu : u.WellFormed) {method more : List Char} (h : Asks u method more)
    (hseen : u.seen method = u.text) (hport : u.port = some port) (a : Arrays) :
    let r := processRequest a (method ++ ' ' :: (u.text ++ more))
    r.host = u.host ∧ r.path = u.path ∧ r.port = u.portNumber := by
  obtain ⟨rest, hrest⟩ := hu.exists_path
  obtain ⟨-, hnul⟩ := (u.seen_eq_iff method).mp hseen
  obtain ⟨hslash, hcolon⟩ := hu.host_notMem
  obtain ⟨hne, hdigits, hlt⟩ := hu.port port hport
  have hhostport : u.hostport = u.host ++ ':' :: port := by rw [Uri.hostport, hport]
  obtain ⟨hhost, hport', hpath⟩ : '\x00' ∉ u.host ∧ '\x00' ∉ port ∧ '\x00' ∉ u.path := by
    rw [Uri.text, hhostport] at hnul
    simp only [List.mem_append, List.mem_cons, not_or] at hnul
    exact ⟨hnul.2.1.1, hnul.2.1.2.2, hnul.2.2⟩
  have hslash' : '/' ∉ port := fun hmem => absurd (hdigits _ hmem) (by decide)
  obtain ⟨junk, hstore⟩ := store_append a.host u.hostport u.path
  have hrest' : '\x00' ∉ rest := fun hmem => hpath (hrest ▸ List.mem_cons_of_mem _ hmem)
  have hsplit := split_port ⟨hslash, hcolon, hhost⟩ ⟨hslash', hport'⟩ hrest' junk a.path
  rw [← hhostport, ← List.cons_append, ← hrest, ← hstore] at hsplit
  obtain ⟨h₁, h₂, h₃⟩ := processRequest_eq hu h hseen a
  rw [hsplit] at h₁ h₂ h₃
  refine ⟨h₁.trans (stringAt_append (d := []) hhost), h₂.trans (stringAt_store_of_noNul _ hpath), ?_⟩
  rw [h₃, Uri.portNumber, hport]
  exact atoi_digits hne hdigits hlt

/-- What it makes of a URI that is seen whole and has no port: a colon in the path gives the port. -/
lemma processRequest_noPort (hu : u.WellFormed) {method more : List Char} (h : Asks u method more)
    (hseen : u.seen method = u.text) (hport : u.port = none) (a : Arrays) :
    let r := processRequest a (method ++ ' ' :: (u.text ++ more))
    r.host = u.host ∧ r.path = u.path ∧
      r.port = if ':' ∈ u.path then atoi (u.path.dropWhile (· ≠ ':')).tail else 80 := by
  obtain ⟨rest, hrest⟩ := hu.exists_path
  obtain ⟨-, hnul⟩ := (u.seen_eq_iff method).mp hseen
  obtain ⟨hslash, hcolon⟩ := hu.host_notMem
  have hhostport : u.hostport = u.host := by rw [Uri.hostport, hport, List.append_nil]
  obtain ⟨hhost, hpath⟩ : '\x00' ∉ u.host ∧ '\x00' ∉ u.path := by
    rw [Uri.text, hhostport] at hnul
    simp only [List.mem_append, not_or] at hnul
    exact hnul.2
  obtain ⟨junk, hstore⟩ := store_append a.host u.hostport u.path
  obtain ⟨h₁, h₂, h₃⟩ := processRequest_eq hu h hseen a
  rw [hstore, hhostport] at h₁ h₂ h₃
  -- a colon in the path is taken for the one before a port
  split_ifs with hmem
  · obtain ⟨x, y, hxy, hx⟩ : ∃ x y, rest = x ++ ':' :: y ∧ ':' ∉ x := by
      rw [hrest] at hmem
      exact List.eq_append_cons_of_mem ((List.mem_cons.mp hmem).resolve_left (by decide))
    have hnul' : '\x00' ∉ x ∧ '\x00' ∉ y := by
      rw [hrest, hxy] at hpath
      simp_all
    have hsplit := split_colon hslash hhost hcolon hnul'.1 hx hnul'.2 junk a.path
    rw [← hxy, ← List.cons_append, ← hrest] at hsplit
    rw [hsplit] at h₁ h₂ h₃
    refine ⟨h₁.trans (stringAt_append (d := []) hhost),
      h₂.trans (stringAt_store_of_noNul _ hpath), h₃.trans ?_⟩
    have htail := dropWhile_colon (x := '/' :: x) (by simp [hx]) y
    rw [List.cons_append] at htail
    rw [hrest, hxy, htail]
  · have hrest' : '\x00' ∉ rest ∧ ':' ∉ rest := by
      rw [hrest] at hpath hmem
      simp_all
    have hsplit := split_plain hslash hhost hrest'.1 hcolon hrest'.2 junk a.path
    rw [← List.cons_append, ← hrest] at hsplit
    rw [hsplit] at h₁ h₂ h₃
    exact ⟨h₁.trans (stringAt_append (d := []) hhost),
      h₂.trans (stringAt_store_of_noNul _ hpath), h₃⟩

/-- The host, the port and the path are split as they should be exactly for a plain URI. -/
theorem splitsUri_iff (u : Uri) (hu : u.WellFormed) (method more : List Char)
    (h : Asks u method more) : SplitsUri u method more ↔ u.Plain method := by
  constructor
  · intro hsplit
    have hseen := seen_of_splitsUri hu h hsplit
    obtain ⟨hfits, hnul⟩ := (u.seen_eq_iff method).mp hseen
    refine ⟨hfits, hnul, ?_⟩
    intro hport hcolon
    obtain ⟨-, -, h₃⟩ := hsplit Arrays.zero Arrays.zero_sized
    obtain ⟨-, -, h₃'⟩ := processRequest_noPort hu h hseen hport Arrays.zero
    rw [if_pos hcolon] at h₃'
    rw [← h₃', h₃, Uri.portNumber, hport]
  · intro hplain a _
    have hseen := (u.seen_eq_iff method).mpr ⟨hplain.fits, hplain.noNul⟩
    cases hport : u.port with
    | some port => exact processRequest_port hu h hseen hport a
    | none =>
      obtain ⟨h₁, h₂, h₃⟩ := processRequest_noPort hu h hseen hport a
      refine ⟨h₁, h₂, ?_⟩
      rw [h₃, Uri.portNumber, hport]
      split_ifs with hcolon
      · exact hplain.colon hport hcolon
      · rfl

/-- The URI `http://a:8/b:1`. -/
theorem splitsUri_iff_sample :
    SplitsUri ⟨['a'], some ['8'], ['/', 'b', ':', '1']⟩ ['G', 'E', 'T'] [' '] ↔
      Uri.Plain ⟨['a'], some ['8'], ['/', 'b', ':', '1']⟩ ['G', 'E', 'T'] := by
  have hletters : isspace 'a' = false ∧ isspace '/' = false ∧ isspace 'b' = false ∧
      isspace ':' = false ∧ isspace '1' = false := by decide
  have hport : digits ['8'] < 2147483648 := by decide
  apply splitsUri_iff
  · exact ⟨by simp, by simp [hletters], by simp [hport], by simp, by simp [hletters], by decide⟩
  · exact ⟨by simp, by simp [isspace], by simp [isspace]⟩

/-- The path of `http://a/b:1` gives the port 1. -/
theorem not_splitsUri : ¬ SplitsUri ⟨['a'], none, ['/', 'b', ':', '1']⟩ ['G', 'E', 'T'] [' '] := by
  intro h
  obtain ⟨-, -, hport⟩ := h Arrays.zero Arrays.zero_sized
  revert hport
  decide

end Split

end Proxylab
end SystemsLabs
