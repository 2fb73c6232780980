import SystemsLabs.Memory.Buffers
import SystemsLabs.Proxylab.Relay
import SystemsLabs.Proxylab.Uri

/-!
# The strings of a request

Pieces of the request line are copied to `path`, to the request that goes to the server and to
the cache. The line is shorter than `MAXLINE`, and so are its pieces, but the array for the URI
that `put_cache_item` allocates has 1024 bytes.
-/

namespace SystemsLabs
namespace Proxylab

open Memory

/-! ## The functions -/

def userAgentHdr : List Char :=
  "User-Agent: Mozilla/5.0 (X11; Linux x86_64; rv:10.0.3) Gecko/20120305 Firefox/10.0.3\r\n".toList

def acceptHdr : List Char :=
  "Accept: text/html,application/xhtml+xml,application/xml;q=0.9,*/*;q=0.8\r\n".toList

def acceptEncodingHdr : List Char := "Accept-Encoding: gzip, deflate\r\n".toList

/-- The request that `send_request` builds in `buf`. The second `sprintf` reads what it writes to. -/
def requestBuf (host path : List Char) : Option (Buffer MAXBUF) := do
  let buf ← Buffer.sprintf MAXBUF ("GET ".toList ++ path ++ " HTTP/1.0\r\n".toList)
  let buf ← Buffer.sprintf MAXBUF (buf.text ++ "Host: ".toList ++ host ++ "\r\n".toList)
  let buf ← buf.strcat userAgentHdr
  let buf ← buf.strcat acceptHdr
  let buf ← buf.strcat acceptEncodingHdr
  let buf ← buf.strcat "Connection: close\r\n".toList
  let buf ← buf.strcat "Proxy-Connection: close\r\n".toList
  buf.strcat "\r\n".toList

/-- `cache_node->uri = malloc(1024)` and the `strcpy` behind it. -/
def uriCopy (uri : List Char) : Option (Buffer 1024) := Buffer.strcpy 1024 uri

/-- How a request goes on. -/
structure Course where
  /-- the URI is in the cache -/
  cached : Bool
  /-- the server can be reached -/
  connected : Bool
  /-- the answer is smaller than `MAX_OBJECT_SIZE` -/
  small : Bool

/-- The arrays with a string made from the request, as far as they are written. -/
structure Written where
  path : Option (Buffer MAXLINE) := none
  buf : Option (Buffer MAXBUF) := none
  uri : Option (Buffer 1024) := none

/-- The strings that `send_request` writes. -/
def sendStrings (c : Course) (r : Request) (w : Written) : Option Written :=
  if c.cached then some w
  else if ¬ c.connected then some w
  else do
    let buf ← requestBuf r.host r.path
    if c.small then
      let uri ← uriCopy r.uri
      some { w with buf := buf, uri := uri }
    else some { w with buf := buf }

/-- `strcpy(path, h)` for a slash in `host`. -/
def pathCopy (host : List Char) (w : Written) : Option Written :=
  match strchr host 0 '/' with
  | some h => (Buffer.strcpy MAXLINE (stringAt host h)).map fun path => { w with path := path }
  | none => some w

/-- The strings that a request makes `process_request` and its callees write. -/
def requestStrings (c : Course) (a : Arrays) (input : List Char) : Option Written := do
  let host := (scanHost (scanRequest { a with buf := rioReadlineb a.buf input })).host
  let w ← pathCopy host {}
  sendStrings c (processRequest a input) w

/-- The request line, as far as it is read, has the URI `http://` with host and path. -/
structure Requests (input hostport path : List Char) : Prop where
  uri : ∃ method rest more,
    scanString ((readline (MAXLINE - 1) input).takeWhile (· ≠ '\x00')) = some (method, rest) ∧
      scanString rest = some (http ++ (hostport ++ path), more)
  host : hostport ≠ [] ∧ '/' ∉ hostport
  path : path.head? = some '/'

/-- Every string fits into the array it is written to, however the request goes on. -/
def StringsFit (input : List Char) : Prop :=
  ∀ a : Arrays, a.Sized → ∀ c : Course, (requestStrings c a input).isSome

/-! ## The request for the server -/

/-- The request as a whole. -/
lemma requestBuf_eq (host path : List Char) :
    requestBuf host path = Buffer.sprintf MAXBUF
      ("GET ".toList ++ path ++ " HTTP/1.0\r\n".toList ++
        ("Host: ".toList ++ host ++ "\r\n".toList) ++ userAgentHdr ++ acceptHdr ++
        acceptEncodingHdr ++ "Connection: close\r\n".toList ++
        "Proxy-Connection: close\r\n".toList ++ "\r\n".toList) := by
  -- the second `sprintf` appends to `buf` as well
  have happend : ∀ (buf : Buffer MAXBUF), Buffer.sprintf MAXBUF
      (buf.text ++ "Host: ".toList ++ host ++ "\r\n".toList) =
        buf.strcat ("Host: ".toList ++ host ++ "\r\n".toList) := by
    intro buf
    rw [Buffer.strcat, List.append_assoc, List.append_assoc, List.append_assoc]
  simp only [requestBuf, happend, Option.bind_eq_bind]
  simp only [← Option.bind_assoc, Buffer.sprintf_bind_strcat]

/-- Besides host and path the request has 260 characters. -/
lemma isSome_requestBuf (host path : List Char) :
    (requestBuf host path).isSome ↔ path.length + host.length + 260 < MAXBUF := by
  have hget : "GET ".toList.length = 4 := by decide
  have hhttp : " HTTP/1.0\r\n".toList.length = 11 := by decide
  have hhost : "Host: ".toList.length = 6 := by decide
  have hend : "\r\n".toList.length = 2 := by decide
  have hagent : userAgentHdr.length = 86 := by decide
  have haccept : acceptHdr.length = 73 := by decide
  have hencoding : acceptEncodingHdr.length = 32 := by decide
  have hclose : "Connection: close\r\n".toList.length = 19 := by decide
  have hproxy : "Proxy-Connection: close\r\n".toList.length = 25 := by decide
  rw [requestBuf_eq, Buffer.isSome_sprintf]
  simp only [List.length_append, hget, hhttp, hhost, hend, hagent, haccept, hencoding, hclose,
    hproxy]
  omega

/-! ## Splitting the line -/

section Line

variable {s w t x input hostport path : List Char}

/-- The word that `%s` reads is a part of the string. -/
lemma scanString_mem (h : scanString s = some (w, t)) :
    (∀ c ∈ w, c ∈ s ∧ isspace c = false) ∧ w.length + t.length ≤ s.length ∧ ∀ c ∈ t, c ∈ s := by
  rw [scanString] at h
  split_ifs at h
  obtain ⟨rfl, rfl⟩ := Prod.mk.inj (Option.some.inj h)
  have hsub := (List.dropWhile_sublist isspace (l := s))
  refine ⟨fun c hc => ⟨?_, ?_⟩, ?_, ?_⟩
  · exact hsub.subset ((List.takeWhile_sublist _).subset hc)
  · simpa using List.mem_takeWhile_imp hc
  · have htake := (List.takeWhile_sublist (fun c => !isspace c) (l := s.dropWhile isspace)).length_le
    have hle := hsub.length_le
    rw [List.length_drop]
    omega
  · exact fun c hc => hsub.subset (List.mem_of_mem_drop hc)

/-- A string ends in front of every NUL behind its start. -/
lemma length_stringAt_le {array : List Char} {n : ℕ} (h : array[n]? = some '\x00') :
    (stringAt array 0).length ≤ n := by
  by_contra hlt
  rw [not_le] at hlt
  obtain ⟨rest, hrest⟩ : stringAt array 0 <+: array := List.takeWhile_prefix _
  have hget : (stringAt array 0)[n]? = some '\x00' := by
    rw [← h, ← List.getElem?_append_left hlt, hrest]
  have hmem := List.mem_takeWhile_imp (List.mem_of_getElem? hget)
  simp at hmem

/-- What `split` leaves in `path` and `host` where `host` has a slash. -/
lemma split_slash (hslash : '/' ∉ x) (hx : '\x00' ∉ x) (ht : '\x00' ∉ t) (junk array : List Char) :
    let r := split (x ++ '/' :: (t ++ '\x00' :: junk)) array
    r.2.1 = store array ('/' :: t) ∧ (stringAt r.1 0).length ≤ x.length := by
  have hset : ∀ c : Char, (x ++ '/' :: (t ++ '\x00' :: junk)).set x.length c =
      x ++ c :: (t ++ '\x00' :: junk) := fun c => set_length_append x '/' c _
  have hnul : (x ++ '\x00' :: (t ++ '\x00' :: junk))[x.length]? = some '\x00' := by simp
  rw [split, strchr_slash hslash hx]
  simp only [stringAt_slash ht, hset]
  cases strchr (x ++ '/' :: (t ++ '\x00' :: junk)) 0 ':' with
  | none => exact ⟨rfl, length_stringAt_le hnul⟩
  | some p =>
    refine ⟨rfl, length_stringAt_le ?_⟩
    -- the second NUL does not take the first one away
    rw [List.getElem?_set]
    split_ifs with h1 h2
    · rfl
    · simp at h2
      omega
    · exact hnul

lemma length_readline_le (n : ℕ) (input : List Char) : (readline n input).length ≤ n := by
  induction n generalizing input with
  | zero => simp [readline]
  | succ n ih =>
    cases input with
    | nil => simp [readline]
    | cons c input =>
      rw [readline]
      split_ifs
      · simp
      · simpa using ih input

namespace Requests

/-- A method, a blank and the URI, and white space before anything else. -/
lemma of_line {method more : List Char} (hne : method ≠ [])
    (hmethod : ∀ c ∈ method, isspace c = false ∧ c ≠ '\x00')
    (hmem : ∀ c ∈ hostport ++ path, isspace c = false ∧ c ≠ '\x00')
    (hmore : ∀ c ∈ more.head?, isspace c = true)
    (hfits : method.length + 1 + (http ++ (hostport ++ path)).length < MAXLINE)
    (hhost : hostport ≠ [] ∧ '/' ∉ hostport) (hpath : path.head? = some '/') :
    Requests (method ++ ' ' :: (http ++ (hostport ++ path) ++ more)) hostport path := by
  have huri : ∀ c ∈ http ++ (hostport ++ path), isspace c = false ∧ c ≠ '\x00' := by
    intro c hc
    rcases List.mem_append.mp hc with hc | hc
    · revert hc
      simpa [http] using fun h => by rcases h with rfl | rfl | rfl | rfl | rfl <;> decide
    · exact hmem c hc
  have hnewline : '\n' ∉ method ++ ' ' :: (http ++ (hostport ++ path)) := by
    have h1 := newline_notMem fun c hc => (hmethod c hc).1
    have h2 := newline_notMem fun c hc => (huri c hc).1
    simp only [List.mem_append, List.mem_cons, not_or]
    exact ⟨h1, by decide, by simpa using h2⟩
  have hnul : '\x00' ∉ method ++ ' ' :: (http ++ (hostport ++ path)) := by
    have h1 : '\x00' ∉ method := fun hc => (hmethod _ hc).2 rfl
    have h2 : '\x00' ∉ http ++ (hostport ++ path) := fun hc => (huri _ hc).2 rfl
    simp only [List.mem_append, List.mem_cons, not_or]
    exact ⟨h1, by decide, by simpa using h2⟩
  -- the line is read beyond the URI
  obtain ⟨R, hR⟩ : ∃ R, readline (MAXLINE - 1 - (method ++ ' ' :: (http ++ (hostport ++ path))).length)
      more = R := ⟨_, rfl⟩
  have hhead : ∀ c ∈ R.head?, isspace c = true := hR ▸ readline_head hmore _
  have hline : (readline (MAXLINE - 1)
      (method ++ ' ' :: (http ++ (hostport ++ path) ++ more))).takeWhile (· ≠ '\x00') =
      method ++ ' ' :: (http ++ (hostport ++ path) ++ R.takeWhile (· ≠ '\x00')) := by
    rw [← List.cons_append, ← List.append_assoc, readline_append hnewline, hR,
      List.take_of_length_le (by simp only [List.length_append, List.length_cons] at hfits ⊢; omega),
      takeWhile_of_noNul hnul, List.append_assoc, List.cons_append]
  have htail : ∀ c ∈ (R.takeWhile (· ≠ '\x00')).head?, isspace c = true := by
    cases R with
    | nil => simp
    | cons c R =>
      rw [List.takeWhile_cons]
      split_ifs
      · exact hhead
      · simp
  refine ⟨⟨method, ' ' :: (http ++ (hostport ++ path) ++ R.takeWhile (· ≠ '\x00')),
    R.takeWhile (· ≠ '\x00'), ?_, ?_⟩, hhost, hpath⟩
  · rw [hline]
    exact scanString_append (w := []) (by simp) (fun c hc => (hmethod c hc).1) hne
      (by rintro c ⟨⟩; rfl)
  · exact scanString_append (w := [' ']) (by simp [isspace]) (fun c hc => (huri c hc).1)
      (by simp [http]) htail

/-- The URI has no white space and no NUL, and it is shorter than the line. -/
lemma uri_mem (h : Requests input hostport path) :
    (∀ c ∈ http ++ (hostport ++ path), c ≠ '\x00' ∧ isspace c = false) ∧
      (http ++ (hostport ++ path)).length < MAXLINE := by
  obtain ⟨method, rest, more, hmethod, huri⟩ := h.uri
  obtain ⟨-, hlen, hrest⟩ := scanString_mem hmethod
  obtain ⟨hmem, hlen', -⟩ := scanString_mem huri
  constructor
  · intro c hc
    obtain ⟨hc, hspace⟩ := hmem c hc
    have hne := List.mem_takeWhile_imp (hrest c hc)
    exact ⟨by simpa using hne, hspace⟩
  · have hline := (List.takeWhile_sublist (· ≠ '\x00') (l := readline (MAXLINE - 1) input)).length_le
    have hread := length_readline_le (MAXLINE - 1) input
    have hpos : 0 < MAXLINE := by decide
    omega

/-- `scanRequest` finds the URI. -/
lemma uri_scanRequest (h : Requests input hostport path) (a : Arrays) :
    stringAt (scanRequest { a with buf := rioReadlineb a.buf input }).uri 0 =
      http ++ (hostport ++ path) := by
  obtain ⟨method, rest, more, hmethod, huri⟩ := h.uri
  have hline : readline (MAXLINE - 1) input ≠ [] := by
    intro hnil
    rw [hnil, List.takeWhile_nil, scanString_nil (by simp)] at hmethod
    cases hmethod
  have hnul : '\x00' ∉ http ++ (hostport ++ path) := fun hmem => (h.uri_mem.1 _ hmem).1 rfl
  rw [scanRequest, rioReadlineb]
  simp only [if_neg hline, stringAt_store, hmethod, huri]
  split <;> exact stringAt_store_of_noNul _ hnul

/-- The strings that `process_request` works with. -/
lemma processRequest_eq (h : Requests input hostport path) (a : Arrays) :
    let host := (scanHost (scanRequest { a with buf := rioReadlineb a.buf input })).host
    (∃ n, strchr host 0 '/' = some n ∧ stringAt host n = path) ∧
      (processRequest a input).uri = http ++ (hostport ++ path) ∧
      (processRequest a input).path = path ∧
      (processRequest a input).host.length ≤ hostport.length := by
  obtain ⟨t, rfl⟩ : ∃ t, path = '/' :: t := by
    have hhead := h.path
    cases path with
    | nil => cases hhead
    | cons c t => exact ⟨t, by rw [List.head?_cons, Option.some.injEq] at hhead; rw [hhead]⟩
  have huri := h.uri_scanRequest a
  have hmem : ∀ c ∈ hostport ++ '/' :: t, c ≠ '\x00' ∧ isspace c = false :=
    fun c hc => h.uri_mem.1 c (List.mem_append_right http hc)
  have hx : '\x00' ∉ hostport := fun hc => (hmem _ (List.mem_append_left _ hc)).1 rfl
  have ht : '\x00' ∉ t :=
    fun hc => (hmem _ (List.mem_append_right _ (List.mem_cons_of_mem _ hc))).1 rfl
  have hpath : '\x00' ∉ '/' :: t := by simp [ht]
  have hhost := host_scanHost huri (fun c hc => (hmem c hc).2)
    (List.append_ne_nil_of_right_ne_nil _ (List.cons_ne_nil _ _))
  obtain ⟨junk, hstore⟩ := store_append
    (scanRequest { a with buf := rioReadlineb a.buf input }).host hostport ('/' :: t)
  rw [hstore, List.cons_append] at hhost
  rw [processRequest]
  simp only [hhost]
  obtain ⟨hcut, hlen⟩ := split_slash h.host.2 hx ht junk
    (scanHost (scanRequest { a with buf := rioReadlineb a.buf input })).path
  refine ⟨⟨hostport.length, strchr_slash h.host.2 hx t junk, stringAt_slash ht hostport junk⟩,
    ?_, ?_, hlen⟩
  · rw [(scanHost_frame _).1, huri]
  · rw [hcut, stringAt_store_of_noNul _ hpath]

/-- When all strings of a request fit. -/
lemma isSome_requestStrings (h : Requests input hostport path) (c : Course) (a : Arrays) :
    (requestStrings c a input).isSome ↔ (c.cached = false → c.connected = true →
      path.length + (processRequest a input).host.length + 260 < MAXBUF ∧
        (c.small = true → (http ++ (hostport ++ path)).length < 1024)) := by
  obtain ⟨⟨n, hn, hcopy⟩, huri, hpath, -⟩ := h.processRequest_eq a
  have hlt : path.length < MAXLINE := by
    have hle := h.uri_mem.2
    rw [List.length_append, List.length_append] at hle
    omega
  -- the copy to `path` fits
  have hpathCopy : ∃ w, pathCopy
      (scanHost (scanRequest { a with buf := rioReadlineb a.buf input })).host {} = some w := by
    rw [pathCopy, hn]
    simp only [hcopy, Buffer.strcpy, Buffer.sprintf_of_lt hlt]
    exact ⟨_, rfl⟩
  obtain ⟨w, hw⟩ := hpathCopy
  rw [requestStrings]
  simp only [hw, Option.bind_eq_bind, Option.bind_some, sendStrings, hpath, huri]
  cases c.cached with
  | true => simp
  | false =>
    cases c.connected with
    | false => simp
    | true =>
      rw [← isSome_requestBuf]
      cases requestBuf (processRequest a input).host path with
      | none => simp
      | some buf =>
        cases c.small with
        | false => simp
        | true =>
          rw [← Buffer.isSome_strcpy]
          simp [uriCopy, Option.isSome_bind]

end Requests

end Line

/-- All strings of a request fit exactly when its URI is shorter than the array for the cache. -/
theorem stringsFit_iff (input hostport path : List Char) (h : Requests input hostport path) :
    StringsFit input ↔ (http ++ (hostport ++ path)).length < 1024 := by
  constructor
  · intro hfit
    exact (((h.isSome_requestStrings ⟨false, true, true⟩ Arrays.zero).1
      (hfit Arrays.zero Arrays.zero_sized _)) rfl rfl).2 rfl
  · intro hlt a _ c
    -- host and path are parts of the URI, which leaves room for the headers
    obtain ⟨-, -, -, hhost⟩ := h.processRequest_eq a
    rw [List.length_append, List.length_append] at hlt
    refine (h.isSome_requestStrings c a).2 fun _ _ => ⟨?_, fun _ => ?_⟩
    · rw [MAXBUF]
      omega
    · rw [List.length_append, List.length_append]
      exact hlt

/-- The request line `GET http://a/b HTTP/1.0`. -/
theorem stringsFit_short : StringsFit "GET http://a/b HTTP/1.0\r\n".toList := by
  refine (stringsFit_iff _ ['a'] ['/', 'b'] ⟨?_, by decide, rfl⟩).2 (by decide)
  exact ⟨"GET".toList, " http://a/b HTTP/1.0\r\n".toList, " HTTP/1.0\r\n".toList,
    by decide, by decide⟩

/-- `GET http://a/bb…b HTTP/1.0` with 1024 characters in the URI. -/
def longLine : List Char :=
  "GET".toList ++ ' ' :: (http ++ (['a'] ++ '/' :: List.replicate 1015 'b') ++
    " HTTP/1.0\r\n".toList)

/-- A URI of 1024 characters overruns the array for the cache. -/
theorem not_stringsFit_long :
    Requests longLine ['a'] ('/' :: List.replicate 1015 'b') ∧
      ¬ StringsFit longLine := by
  have hletters : isspace 'b' = false ∧ 'b' ≠ '\x00' := by decide
  have hreq : Requests longLine ['a'] ('/' :: List.replicate 1015 'b') := by
    rw [longLine]
    apply Requests.of_line
    · decide
    · intro c hc
      fin_cases hc <;> decide
    · intro c hc
      rcases List.mem_append.mp hc with hc | hc
      · rw [List.mem_singleton.mp hc]
        decide
      · rcases List.mem_cons.mp hc with rfl | hc
        · decide
        · rw [List.eq_of_mem_replicate hc]
          exact hletters
    · rintro c ⟨⟩
      decide
    · simp only [List.length_append, List.length_cons, List.length_replicate]
      decide
    · decide
    · rfl
  refine ⟨hreq, fun hfit => ?_⟩
  have hlt := ((hreq.isSome_requestStrings ⟨false, true, true⟩ Arrays.zero).1
    (hfit Arrays.zero Arrays.zero_sized _) rfl rfl).2 rfl
  simp only [List.length_append, List.length_cons, List.length_replicate] at hlt
  revert hlt
  decide

end Proxylab
end SystemsLabs
