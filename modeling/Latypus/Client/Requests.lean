import Latypus.Http.RequestRoundTrip
import Latypus.Http.ResponseSegments
import Latypus.Http.ToBuffer
import Latypus.Net.Url
import Latypus.Server.Sending

/-! The request that `http_client::process_next_request` makes of a URL, as the client serialises it and as the
server understands it. -/

namespace Latypus.Http

/-- `HTTPMethod`. -/
inductive RequestMethod where
  | none
  | get
  | head
  | post
  | put
  | delete
  | options
  | trace
  | connect
  | propfind
  | proppatch
  | mkcol
  | copy
  | move
  | lock
  | unlock
  | mkactivity
  | report
  | checkout
  | merge
deriving DecidableEq, Repr

def getMethodText : RequestMethod → Bytes
  | .none => []
  | .get => [71, 69, 84]
  | .head => [72, 69, 65, 68]
  | .post => [80, 79, 83, 84]
  | .put => [80, 85, 84]
  | .delete => [68, 69, 76, 69, 84, 69]
  | .options => [79, 80, 84, 73, 79, 78, 83]
  | .trace => [84, 82, 65, 67, 69]
  | .connect => [67, 79, 78, 78, 69, 67, 84]
  | .propfind => [80, 82, 79, 80, 70, 73, 78, 68]
  | .proppatch => [80, 82, 79, 80, 80, 65, 84, 67, 72]
  | .mkcol => [77, 75, 67, 79, 76]
  | .copy => [67, 79, 80, 89]
  | .move => [77, 79, 86, 69]
  | .lock => [76, 79, 67, 75]
  | .unlock => [85, 78, 76, 79, 67, 75]
  | .mkactivity => [77, 75, 65, 67, 84, 73, 86, 73, 84, 89]
  | .report => [82, 69, 80, 79, 82, 84]
  | .checkout => [67, 72, 69, 67, 75, 79, 85, 84]
  | .merge => [77, 69, 82, 71, 69]

/-- "User-Agent" -/
def headerUserAgent : Bytes := [85, 115, 101, 114, 45, 65, 103, 101, 110, 116]

/-- No path grows in its normal form. -/
theorem length_normalise_le {written rest path : Bytes} (h : normalise written rest = some path) :
    path.length ≤ written.length + rest.length := by
  fun_induction normalise written rest with
  | case1 written =>
    obtain rfl := Option.some.inj h
    simp
  | case2 written rest hslash ih => have := ih h; simp; omega
  | case3 written hslash hne ih => have := ih h; simpa using this
  | case4 written hslash hne ih | case5 written hslash rest hne ih =>
    obtain ⟨written', hpop, h⟩ := Option.bind_eq_some_iff.mp h
    have := ih written' h
    have hle := (prefix_of_popSegment hpop).length_le
    simp at this ⊢
    omega
  | case6 => simp at h
  | case7 written hslash rest hne hne' ih => have := ih h; simp at this ⊢; omega
  | case8 written hslash c1 rest hc1 hc1' hne ih => have := ih h; simp at this ⊢; omega
  | case9 written c rest hslash hc hc' ih => have := ih h; simp at this ⊢; omega
  | case10 written c rest hslash ih => have := ih h; simp at this ⊢; omega

theorem cString_take {mem : Bytes} {n : Nat} (h : (cString mem).length ≤ n) : cString (mem.take n) = cString mem := by
  have hsplit : cString (mem.take n ++ mem.drop n) = _ := List.takeWhile_append
  rw [List.take_append_drop] at hsplit
  split_ifs at hsplit with hall
  · have hnone : (mem.drop n).takeWhile (· ≠ 0) = [] := by
      rw [hsplit, List.length_append, List.length_take] at h
      rcases Nat.le_total n mem.length with hle | hle
      · exact List.length_eq_zero_iff.mp (by omega)
      · rw [List.drop_eq_nil_of_le hle]
        rfl
    rw [hsplit, hnone, List.append_nil]
    exact (List.takeWhile_prefix _).eq_of_length hall
  · exact hsplit.symm

theorem getMethodText_spec {method : RequestMethod} (h : method ≠ .none) :
    getMethodText method ≠ [] ∧ (getMethodText method).all isMethodChar ∧ (getMethodText method).length ≤ 20 := by
  cases method
  · exact absurd rfl h
  all_goals refine ⟨List.cons_ne_nil _ _, ?_, ?_⟩ <;> decide

/-- Of the methods, the handlers of the server tell GET and HEAD from the others. -/
theorem getMethodType_text (method : RequestMethod) : getMethodType (getMethodText method) =
    if method = .get then .get else if method = .head then .head else .other := by
  cases method <;> decide

namespace HttpRequest

def setHttpVersion (r : HttpRequest) (str : Bytes) : HttpRequest :=
  let (store, s) := r.store.allocString str
  { r with store, httpVersion := s }

def setRequestMethod (r : HttpRequest) (str : Bytes) : HttpRequest :=
  let (store, s) := r.store.allocString str
  { r with store, requestMethod := s }

def setRequestUri (r : HttpRequest) (str : Bytes) : HttpRequest :=
  let (store, s) := r.store.allocString str
  { r with store, requestUri := s }

def setHeaderField (r : HttpRequest) (name value : Bytes) : HttpRequest :=
  { r with store := (r.store.setHeaderField name value).1 }

end HttpRequest
end Latypus.Http

namespace Latypus.Client
open Lib Io Http Net Server

/-- `http_client_request`, without its handler. -/
structure ClientRequest where
  method : RequestMethod
  url : Url
deriving DecidableEq, Repr

/-- `ClientString`: "latypus/0.0.0" -/
def clientString : Bytes := [108, 97, 116, 121, 112, 117, 115, 47, 48, 46, 48, 46, 48]

namespace ClientRequest
variable (q : ClientRequest)

/-- What `process_next_request` stores in the request of the connection. -/
def fill (r : HttpRequest) : HttpRequest :=
  ((((r.reset.setHttpVersion version11).setRequestMethod (getMethodText q.method)).setRequestUri
    q.url.path).setHeaderField headerHost q.url.host).setHeaderField headerUserAgent clientString

/-- `response_has_body` as the `populate_request` of `http_client_handler_file` sets it. -/
def responseHasBody : Bool := q.method ≠ .head

/-- `request_has_body`; the `write_request_body` of the handler has nothing to send all the same. -/
def requestHasBody : Bool := q.method = .post

def fields : List (Bytes × Bytes) := [(headerHost, q.url.host), (headerUserAgent, clientString)]

/-- The request as it is sent. -/
def text : Bytes :=
  getMethodText q.method ++ [32] ++ q.url.path ++ [32] ++ version11 ++ [13, 10] ++ fieldLines q.fields

/-- The space that the request takes in the storage of the client. -/
def space : Nat :=
  version11.length + 1 + ((getMethodText q.method).length + 1) + (q.url.path.length + 1) +
    HeaderStore.space q.fields

/-- The URL has an absolute path with an optional query, and a host that a header line can carry. -/
structure Asks (path : Bytes) (query : Option Bytes) : Prop where
  method_ne : q.method ≠ .none
  path_eq : q.url.path = path ++ HttpParser.queryPart query
  path_slash : path.head? = some 47
  path_chars : escaped isPathChar path
  query_chars : ∀ w ∈ query, escaped isQueryChar w
  host_text : q.url.host.all isText
  host_head : q.url.host.head? ≠ some 32

end ClientRequest

/-- `populate_request_headers`: the buffer with the request in it, and its length, or -1. -/
def populateRequestHeaders (b : IoRingBuffer) (r : HttpRequest) : Option (IoRingBuffer × Int) :=
  match r.toBuffer b.size with
  | none => some (b.reset, -1)
  | some header => (populateBuffer b header).map fun b => (b, header.length)

section Text
variable {q : ClientRequest} {r : HttpRequest} {path : Bytes} {query : Option Bytes}

/-- Where the storage has room, the client serialises what the URL says. -/
theorem canonical_fill (hspace : q.space ≤ r.store.capacity) (hmax : 2 ≤ r.store.maxHeaders) :
    (q.fill r).canonical = some q.text := by
  unfold ClientRequest.space at hspace
  have hfields := HeaderStore.setFields_of_le q.fields
    (s := ⟨r.store.capacity, version11.length + 1 + ((getMethodText q.method).length + 1) + (q.url.path.length + 1),
      r.store.maxHeaders, [], [], false⟩)
    (by simpa [ClientRequest.fields] using hmax)
    (by simp [ClientRequest.fields, headerHost, headerUserAgent]) hspace
  simp only [ClientRequest.fill, HttpRequest.setHttpVersion, HttpRequest.setRequestMethod, HttpRequest.setRequestUri,
    HttpRequest.setHeaderField, HttpRequest.reset, HttpRequest.resize, HeaderStore.resize]
  rw [HeaderStore.allocString_of_le version11 (by dsimp only; omega)]
  dsimp only
  rw [HeaderStore.allocString_of_le (getMethodText q.method) (by dsimp only; omega)]
  dsimp only
  rw [HeaderStore.allocString_of_le q.url.path (by dsimp only; omega)]
  simp only [HeaderStore.setFields, ClientRequest.fields, List.foldl_cons, List.foldl_nil, List.nil_append,
    Nat.zero_add] at hfields ⊢
  rw [hfields]
  simp [HttpRequest.canonical, ClientRequest.text, ClientRequest.fields]

theorem store_fill (q : ClientRequest) (r : HttpRequest) : (q.fill r).store.capacity = r.store.capacity ∧
    (q.fill r).store.maxHeaders = r.store.maxHeaders := by
  have halloc (s : HeaderStore) (w : Bytes) : (s.allocString w).1.capacity = s.capacity ∧
      (s.allocString w).1.maxHeaders = s.maxHeaders := by
    unfold HeaderStore.allocString
    split_ifs <;> exact ⟨rfl, rfl⟩
  have hfield := HeaderStore.sizes_setHeaderField
  simp only [ClientRequest.fill, HttpRequest.setHeaderField, HttpRequest.setRequestUri, HttpRequest.setRequestMethod,
    HttpRequest.setHttpVersion, hfield, halloc]
  exact ⟨rfl, rfl⟩

/-- `populate_request_headers`, where the request has room. -/
theorem populateRequestHeaders_of_toBuffer {N : Nat} {b : IoRingBuffer} {text : Bytes} (hb : Sized N b)
    (htext : r.toBuffer N = some text) (hlen : text.length < N) :
    ∃ b', populateRequestHeaders b r = some (b', (text.length : Int)) ∧ Filled N 0 text.length b' ∧
      b'.buffer.take text.length = text := by
  have hb' := Fresh.reset hb
  have hsmall := hb.le_two_pow
  have hstore : store b.reset.buffer 0 text = some (text ++ b.reset.buffer.drop text.length) :=
    store_eq_some.mpr ⟨by rw [hb'.size_eq]; omega, by simp⟩
  have hfilled := hb'.filled.bufferRead_filled (n := text.length) ((length_of_store hstore).trans hb'.size_eq)
    (by omega) (by omega)
  refine ⟨_, ?_, by simpa only [Nat.zero_add] using hfilled, List.take_left⟩
  rw [populateRequestHeaders, IoRingBuffer.size, hb.size_eq, htext]
  simp only [populateBuffer, hstore]
  simp

/-- The request as the parser of the server sees it. -/
def ClientRequest.Asks.head (h : q.Asks path query) : RequestHead where
  method := getMethodText q.method
  path
  query
  version := version11
  fields := q.fields
  method_ne_nil := (getMethodText_spec h.method_ne).1
  method_chars := (getMethodText_spec h.method_ne).2.1
  method_length := (getMethodText_spec h.method_ne).2.2
  path_slash := h.path_slash
  path_chars := h.path_chars
  query_chars := h.query_chars
  isVersion := ⟨[49], [49], by decide, by decide, by decide, by decide, rfl⟩
  isField := by
    intro f hf
    rcases List.mem_cons.mp hf with rfl | hf
    · exact ⟨by simp [headerHost], by simp only; decide, h.host_text, h.host_head⟩
    · obtain rfl := List.mem_singleton.mp hf
      exact ⟨by simp [headerUserAgent], by simp only; decide, by simp only; decide, by decide⟩
  names := by simp [ClientRequest.fields, headerHost, headerUserAgent]

theorem ClientRequest.Asks.bytes_head (h : q.Asks path query) : h.head.bytes = q.text := by
  simp only [RequestHead.bytes, RequestHead.line, RequestHead.uri, ClientRequest.Asks.head, ClientRequest.text,
    h.path_eq,
    List.append_assoc]

theorem toBuffer_fill (hspace : q.space ≤ r.store.capacity) (hmax : 2 ≤ r.store.maxHeaders) {size : Nat}
    (hsize : q.text.length < size) : (q.fill r).toBuffer size = some q.text := by
  rw [HttpRequest.toBuffer_eq, canonical_fill hspace hmax, Option.filter_some, if_pos (by simpa using hsize)]

/-- What the server holds behind the request. -/
theorem ClientRequest.Asks.ofText (h : q.Asks path query) {capacity maxHeaders : Nat}
    (hcapacity : 2 * q.text.length ≤ capacity) (hmax : 2 ≤ maxHeaders) :
    ∃ t offset body, t.cs = HttpParser.firstFinal ∧ t.nread = q.text.length ∧
      HttpRequest.ofText capacity maxHeaders q.text =
        ⟨t, ⟨capacity, offset, maxHeaders, q.fields, q.fields, false⟩, .request, some (getMethodText q.method),
          some q.url.path, none, some path, query, body, some version11⟩ := by
  rw [← h.bytes_head] at hcapacity
  obtain ⟨t, body, ht, hparse⟩ := HttpRequest.parse_bytes h.head hcapacity hmax
  obtain ⟨t', _, -, hnread, hparser⟩ := h.head.parse_bytes
  refine ⟨t, h.head.lineSpace + HeaderStore.space q.fields, body, ht, ?_, ?_⟩
  · have hsame := congrArg HttpRequest.parser hparse
    rw [← HttpRequest.ofText, HttpRequest.parser_ofText, hparser] at hsame
    obtain rfl : t' = t := hsame
    rw [hnread, h.bytes_head]
  · have huri : h.head.uri = q.url.path := h.path_eq.symm
    rw [HttpRequest.ofText, ← h.bytes_head, hparse, huri]
    rfl

/-- The request as it stands in the stream of the connection; it has no body. -/
def ClientRequest.requestText (q : ClientRequest) : RequestText := ⟨q.text, []⟩

/-- The buffers of client and server have room for the request, whose path the server accepts. -/
structure Sendable (client server : ServerConfig) (q : ClientRequest) : Prop where
  asks : ∃ path query, q.Asks path query
  space : q.space ≤ client.headerBufferSize
  clientMax : 2 ≤ client.maxHeaders
  clientFits : q.text.length < client.ioBufferSize
  serverFits : q.text.length ≤ server.ioBufferSize
  capacity : 2 * q.text.length ≤ server.headerBufferSize
  serverMax : 2 ≤ server.maxHeaders
  accepted : q.requestText.PathAccepted server

/-- No other field is sent. -/
theorem lookup_fields {name : Bytes} (hhost : name ≠ headerHost) (hagent : name ≠ headerUserAgent) :
    q.fields.lookup name = none := by
  rw [List.lookup_eq_none_iff]
  intro f hf
  rcases List.mem_cons.mp hf with rfl | hf
  · exact bne_iff_ne.mpr hhost
  · obtain rfl := List.mem_singleton.mp hf
    exact bne_iff_ne.mpr hagent

/-- The server reads the request to its end, and keeps the connection. -/
theorem Sendable.wellFormed {client server : ServerConfig} (h : Sendable client server q) :
    q.requestText.WellFormed server := by
  obtain ⟨path, query, hasks⟩ := h.asks
  obtain ⟨t, offset, body, ht, hnread, htext⟩ := hasks.ofText h.capacity h.serverMax
  have hparsed : q.requestText.parsed server = _ := htext
  have hlive : HttpParser.firstFinal ≠ HttpParser.error := by decide
  refine ⟨?_, ?_, ?_, h.serverFits, ⟨version11, ?_⟩, ?_⟩
  · simp [hparsed, HttpRequest.isFinished, HttpParser.isFinished, ht]
  · simp [hparsed, HttpRequest.hasError, HttpRequest.hasOverflow, HttpParser.isFinished, HttpParser.hasError, ht, hlive]
  · rw [hparsed]
    exact hnread
  · rw [hparsed]
    have hnone : q.fields.lookup headerConnection = none := lookup_fields (by decide) (by decide)
    refine ⟨rfl, ?_⟩
    simp only [HeaderStore.getHeaderString, hnone]
    decide
  · rw [hparsed]
    rfl

/-- A head that says what the client asks for, with the path in normal form. -/
structure ClientRequest.Understood (q : ClientRequest) (f : HeadFields) : Prop where
  method : f.requestMethod = some (getMethodText q.method)
  uri : f.requestUri = some q.url.path
  path : ∃ path stored, q.Asks path f.queryString ∧ f.requestPath = some stored ∧
    normalise [] path = some (cString stored)
  version : f.httpVersion = some version11
  headers : f.headerList = q.fields

/-- What the server makes of the request. -/
theorem Sendable.request {client server : ServerConfig} (h : Sendable client server q)
    (hr : q.requestText.processed server = some (r, true)) :
    ∃ path query stored t offset body, q.Asks path query ∧ normalise [] path = some (cString stored) ∧
      r = ⟨t, ⟨server.headerBufferSize, offset, server.maxHeaders, q.fields, q.fields, false⟩, .request,
        some (getMethodText q.method), some q.url.path, none, some stored, query, body, some version11⟩ := by
  obtain ⟨path, query, hasks⟩ := h.asks
  obtain ⟨t, offset, body, -, -, htext⟩ := hasks.ofText h.capacity h.serverMax
  have hstored : RequestMemory.PathStored (q.requestText.parsed server) := HttpRequest.pathStored_ofText q.text
  obtain ⟨path', mem, hpath', hnorm, hr'⟩ := processRequestHeaders_cases hstored hr
  have hparsed : q.requestText.parsed server = _ := htext
  rw [hparsed] at hpath' hr'
  obtain rfl := Option.some.inj hpath'
  refine ⟨path, query, mem.take path.length, t, offset, body, hasks, ?_, hr'⟩
  rw [hnorm, cString_take (by simpa using length_normalise_le hnorm)]

theorem Sendable.understood {client server : ServerConfig} (h : Sendable client server q) :
    q.Understood (q.requestText.work server).1 := by
  obtain ⟨r, hr⟩ := h.accepted
  obtain ⟨path, query, stored, t, offset, body, hasks, hnorm, rfl⟩ := h.request hr
  rw [RequestText.work, hr]
  exact ⟨rfl, rfl, ⟨path, stored, hasks, rfl, hnorm⟩, rfl, rfl⟩

end Text
end Latypus.Client
