import SystemsLabs.Http.Head
import SystemsLabs.Proxylab.RequestStrings

/-!
# The request that goes to the server

What `send_request` writes is the text of a head: a request line with the path, the host without
its port, and the fixed fields. Host and path are parts of a word that `sscanf` has read, so they
have no white space, and the client cannot put further lines into the request.
-/

namespace SystemsLabs
namespace Proxylab

open Memory Http

/-- The fields of the proxy itself. -/
def proxyFields : List (List Char × List Char) :=
  [("User-Agent".toList,
    "Mozilla/5.0 (X11; Linux x86_64; rv:10.0.3) Gecko/20120305 Firefox/10.0.3".toList),
  ("Accept".toList, "text/html,application/xhtml+xml,application/xml;q=0.9,*/*;q=0.8".toList),
  ("Accept-Encoding".toList, "gzip, deflate".toList),
  ("Connection".toList, "close".toList),
  ("Proxy-Connection".toList, "close".toList)]

/-- The request that `send_request` forwards for a host and a path. -/
def forwarded (host path : List Char) : Head where
  method := "GET".toList
  target := path
  version := "HTTP/1.0".toList
  fields := ("Host".toList, host) :: proxyFields

variable {host path hostport input x t : List Char} {buf : Buffer MAXBUF}

/-- The strings that are put together in `buf` make up the text of the head. -/
lemma text_of_requestBuf (h : requestBuf host path = some buf) :
    buf.text = (forwarded host path).text := by
  rw [requestBuf_eq, Buffer.sprintf] at h
  split_ifs at h
  cases h
  have hagent : endLine (fieldLine ("User-Agent".toList,
      "Mozilla/5.0 (X11; Linux x86_64; rv:10.0.3) Gecko/20120305 Firefox/10.0.3".toList)) =
      userAgentHdr := by decide
  have haccept : endLine (fieldLine ("Accept".toList,
      "text/html,application/xhtml+xml,application/xml;q=0.9,*/*;q=0.8".toList)) =
      acceptHdr := by decide
  have hencoding : endLine (fieldLine ("Accept-Encoding".toList, "gzip, deflate".toList)) =
      acceptEncodingHdr := by decide
  have hclose : endLine (fieldLine ("Connection".toList, "close".toList)) =
      "Connection: close\r\n".toList := by decide
  have hproxy : endLine (fieldLine ("Proxy-Connection".toList, "close".toList)) =
      "Proxy-Connection: close\r\n".toList := by decide
  have hlast : endLine [] = "\r\n".toList := by decide
  have hfields : fieldsText proxyFields = userAgentHdr ++ (acceptHdr ++ (acceptEncodingHdr ++
      ("Connection: close\r\n".toList ++ ("Proxy-Connection: close\r\n".toList ++
        "\r\n".toList)))) := by
    simp only [proxyFields, fieldsText, hagent, haccept, hencoding, hclose, hproxy, hlast]
  have hget : "GET ".toList = "GET".toList ++ [' '] := by decide
  have hhttp : " HTTP/1.0\r\n".toList = ' ' :: ("HTTP/1.0".toList ++ ['\r', '\n']) := by decide
  have hhost : "Host: ".toList = "Host".toList ++ [':', ' '] := by decide
  have hend : "\r\n".toList = ['\r', '\n'] := by decide
  show _ = endLine (requestLine _) ++ (endLine (fieldLine _) ++ fieldsText proxyFields)
  rw [hfields]
  simp only [hget, hhttp, hhost, hend, forwarded, requestLine, fieldLine, endLine,
    List.append_assoc, List.cons_append, List.nil_append]

/-- A word that `sscanf` reads has no character that ends a line. -/
lemma oneLine_of_isspace (hx : ∀ c ∈ x, isspace c = false) : OneLine x ∧ ' ' ∉ x := by
  have hnot : ∀ c, isspace c = true → c ∉ x := by
    intro c hc hmem
    rw [hx c hmem] at hc
    cases hc
  exact ⟨⟨hnot '\r' (by decide), hnot '\n' (by decide)⟩, hnot ' ' (by decide)⟩

lemma wellFormed_forwarded (hhost : ∀ c ∈ host, isspace c = false)
    (hpath : ∀ c ∈ path, isspace c = false) : (forwarded host path).WellFormed where
  method := show OneLine "GET".toList ∧ ' ' ∉ "GET".toList by decide
  target := oneLine_of_isspace hpath
  version := show OneLine "HTTP/1.0".toList ∧ ' ' ∉ "HTTP/1.0".toList by decide
  fields := by
    have hproxy : ∀ field ∈ proxyFields,
        OneLine field.1 ∧ ':' ∉ field.1 ∧ OneLine field.2 := by decide
    intro field hfield
    rcases List.mem_cons.1 hfield with rfl | hfield
    · have hname : OneLine "Host".toList ∧ ':' ∉ "Host".toList := by decide
      exact ⟨hname.1, hname.2, (oneLine_of_isspace hhost).1⟩
    · exact hproxy field hfield

/-- The host ends at the first colon, also where a colon in the path is taken for a port. -/
lemma host_split (hslash : '/' ∉ x) (hx : '\x00' ∉ x) (ht : '\x00' ∉ t) (junk array : List Char) :
    stringAt (split (x ++ '/' :: (t ++ '\x00' :: junk)) array).1 0 = x.takeWhile (· ≠ ':') := by
  have hcut : ∀ y z : List Char, ':' ∉ y → (y ++ ':' :: z).takeWhile (· ≠ ':') = y := by
    intro y z hy
    have hne : ∀ c ∈ y, decide (c ≠ ':') = true := fun c hc =>
      decide_eq_true (ne_of_mem_of_not_mem hc hy)
    rw [List.takeWhile_append_of_pos hne, List.takeWhile_cons_of_neg (by simp), List.append_nil]
  by_cases hcolon : ':' ∈ x
  · obtain ⟨y, z, rfl, hy⟩ := List.eq_append_cons_of_mem hcolon
    have hyz : ('\x00' ∉ y ∧ '\x00' ∉ z) ∧ '/' ∉ y ∧ '/' ∉ z := by
      simp only [List.mem_append, List.mem_cons, not_or] at hslash hx
      exact ⟨⟨hx.1, hx.2.2⟩, hslash.1, hslash.2.2⟩
    rw [split_port ⟨hyz.2.1, hy, hyz.1.1⟩ ⟨hyz.2.2, hyz.1.2⟩ ht, hcut y z hy]
    exact stringAt_append (d := []) hyz.1.1
  · have hall : x.takeWhile (· ≠ ':') = x := by
      rw [List.takeWhile_eq_self_iff]
      intro c hc
      exact decide_eq_true (ne_of_mem_of_not_mem hc hcolon)
    rw [hall]
    by_cases hcolon' : ':' ∈ t
    · obtain ⟨y, z, rfl, hy⟩ := List.eq_append_cons_of_mem hcolon'
      have hyz : '\x00' ∉ y ∧ '\x00' ∉ z := by
        simp only [List.mem_append, List.mem_cons, not_or] at ht
        exact ⟨ht.1, ht.2.2⟩
      rw [split_colon hslash hx hcolon hyz.1 hy hyz.2]
      exact stringAt_append (d := []) hx
    · rw [split_plain hslash hx ht hcolon hcolon']
      exact stringAt_append (d := []) hx

/-- The host that `process_request` hands on. -/
lemma Requests.host_processRequest (h : Requests input hostport path) (a : Arrays) :
    (processRequest a input).host = hostport.takeWhile (· ≠ ':') := by
  obtain ⟨t, rfl⟩ : ∃ t, path = '/' :: t := by
    have hhead := h.path
    cases path with
    | nil => cases hhead
    | cons c t => exact ⟨t, by rw [List.head?_cons, Option.some.injEq] at hhead; rw [hhead]⟩
  have hmem : ∀ c ∈ hostport ++ '/' :: t, c ≠ '\x00' ∧ isspace c = false :=
    fun c hc => h.uri_mem.1 c (List.mem_append_right http hc)
  have hx : '\x00' ∉ hostport := fun hc => (hmem _ (List.mem_append_left _ hc)).1 rfl
  have ht : '\x00' ∉ t :=
    fun hc => (hmem _ (List.mem_append_right _ (List.mem_cons_of_mem _ hc))).1 rfl
  have hhost := host_scanHost (h.uri_scanRequest a) (fun c hc => (hmem c hc).2)
    (List.append_ne_nil_of_right_ne_nil _ (List.cons_ne_nil _ _))
  obtain ⟨junk, hstore⟩ := store_append
    (scanRequest { a with buf := rioReadlineb a.buf input }).host hostport ('/' :: t)
  rw [hstore, List.cons_append] at hhost
  rw [processRequest]
  simp only [hhost]
  exact host_split h.host.2 hx ht junk _

/-- Whatever a client sends as a request line with host and path: if the request fits, a server
that reads it finds one request, for the path of the line and with the host of the line without
its port, with the proxy's own fields and nothing behind them. -/
theorem forwarded_is_one_request (h : Requests input hostport path) (a : Arrays) :
    ((requestBuf (processRequest a input).host (processRequest a input).path).bind fun buf =>
        Head.parse buf.text) =
      if path.length + (hostport.takeWhile (· ≠ ':')).length + 260 < MAXBUF then
        some (forwarded (hostport.takeWhile (· ≠ ':')) path)
      else none := by
  obtain ⟨-, -, hpath, -⟩ := h.processRequest_eq a
  have hmem : ∀ c ∈ hostport ++ path, isspace c = false :=
    fun c hc => (h.uri_mem.1 c (List.mem_append_right http hc)).2
  have hhost : ∀ c ∈ hostport.takeWhile (· ≠ ':'), isspace c = false :=
    fun c hc => hmem c (List.mem_append_left _ ((List.takeWhile_sublist _).subset hc))
  rw [hpath, h.host_processRequest a]
  have hfits := isSome_requestBuf (hostport.takeWhile (· ≠ ':')) path
  cases hbuf : requestBuf (hostport.takeWhile (· ≠ ':')) path with
  | none =>
    rw [hbuf] at hfits
    rw [if_neg (fun hlt => by cases hfits.2 hlt), Option.bind_none]
  | some buf =>
    rw [hbuf] at hfits
    rw [if_pos (hfits.1 rfl), Option.bind_some, text_of_requestBuf hbuf]
    exact Head.parse_text
      (wellFormed_forwarded hhost fun c hc => hmem c (List.mem_append_right _ hc))

/-- The request line `GET http://a:8/b HTTP/1.0`. -/
theorem forwarded_is_one_request_port :
    ((requestBuf (processRequest Arrays.zero "GET http://a:8/b HTTP/1.0\r\n".toList).host
        (processRequest Arrays.zero "GET http://a:8/b HTTP/1.0\r\n".toList).path).bind fun buf =>
        Head.parse buf.text) = some (forwarded ['a'] ['/', 'b']) := by
  have h : Requests "GET http://a:8/b HTTP/1.0\r\n".toList ['a', ':', '8'] ['/', 'b'] :=
    ⟨⟨"GET".toList, " http://a:8/b HTTP/1.0\r\n".toList, " HTTP/1.0\r\n".toList, by decide,
      by decide⟩, by decide, rfl⟩
  exact (forwarded_is_one_request h Arrays.zero).trans (by decide)

end Proxylab
end SystemsLabs
