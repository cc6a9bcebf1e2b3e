import Latypus.Lib.Machine
import Latypus.Server.ReadRequest
import Latypus.Server.Session

/-! The requests of a connection that is kept alive. What a read has brought behind a head is
thrown away when the buffer is reset for the response, and what comes later is read as the next
head; so the heads are those of the stream as long as every read that ends a head ends where the
request ends. -/

namespace Latypus.Server
open Lib Io Http

/-- A request as it stands in a stream. -/
structure RequestText where
  head : Bytes
  body : Bytes
deriving DecidableEq, Repr

def RequestText.bytes (q : RequestText) : Bytes := q.head ++ q.body

/-- What a head says. -/
structure HeadFields where
  requestMethod : Option Bytes
  requestUri : Option Bytes
  fragment : Option Bytes
  requestPath : Option Bytes
  queryString : Option Bytes
  httpVersion : Option Bytes
  headerList : List (Bytes × Bytes)
deriving DecidableEq, Repr

def headFields (r : HttpRequest) : HeadFields :=
  ⟨r.requestMethod, r.requestUri, r.fragment, r.requestPath, r.queryString, r.httpVersion,
    r.store.headerList⟩

/-- The length that the Content-Length header gives to the body. -/
def contentLength (r : HttpRequest) : Nat :=
  ((r.store.getHeaderString headerContentLength).map fun value => digitsValue (cString value)).getD 0

namespace RequestText
variable (cfg : ServerConfig)

/-- The head, parsed by itself. -/
def parsed (q : RequestText) : HttpRequest := .ofText cfg.headerBufferSize cfg.maxHeaders q.head

/-- A head that ends where the parser finds its end, fits the buffers and asks for keep-alive, with a
body of the length that it announces. -/
structure WellFormed (q : RequestText) : Prop where
  finished : (q.parsed cfg).isFinished = true
  noError : (q.parsed cfg).hasError = false
  nread_eq : (q.parsed cfg).parser.nread = q.head.length
  fits : q.head.length ≤ cfg.ioBufferSize
  keepalive : ∃ version, (q.parsed cfg).httpVersion = some version ∧
    closesConnection version ((q.parsed cfg).store.getHeaderString headerConnection) = false
  length_body : q.body.length = contentLength (q.parsed cfg)

/-- What `process_request_headers` makes of the head. -/
def processed (q : RequestText) : Option (HttpRequest × Bool) := processRequestHeaders (q.parsed cfg)

/-- The path has been stored, and `sanitize_path` accepts it. -/
def PathAccepted (q : RequestText) : Prop := ∃ r, q.processed cfg = some (r, true)

/-- The head that `work_connection` passes on, with its bytes. -/
def work (q : RequestText) : HeadFields × Bytes :=
  (headFields (((q.processed cfg).map Prod.fst).getD (q.parsed cfg)), q.head)

end RequestText

/-- A connection, what the client has sent and the server not yet read, and the heads passed to
`work_connection`, each with the bytes that were parsed as part of it. -/
structure Stream where
  session : Session
  unread : Bytes
  works : List (HeadFields × Bytes)

/-- The bytes that have been parsed as part of the head in the buffer. -/
def Session.parsedBytes (s : Session) : Bytes := s.buffer.buffer.take s.request.parser.nread

inductive StreamEvent where
  /-- A read that finds `n` bytes. -/
  | read (n : Nat)
  | step (e : SessionEvent)
deriving DecidableEq, Repr

/-- The bytes that a read brings. -/
def Stream.brought (s : Stream) (n : Nat) : Bytes :=
  (s.unread.take n).take s.session.buffer.bytesToRead

def streamMachine (cfg : ServerConfig) (requests : List RequestText) : Machine Stream StreamEvent where
  init s := (∃ contents, contents.length = cfg.ioBufferSize ∧ s.session = cfg.newSession contents) ∧
    s.unread = requests.flatMap RequestText.bytes ∧ s.works = []
  step s
    | .read n => do
      let (session, _) ← s.session.step (.read (.data (s.unread.take n)))
      let works := if session.state = .working then
        s.works ++ [(headFields session.request, session.parsedBytes)] else s.works
      some { session, unread := s.unread.drop (s.brought n).length, works }
    | .step (.read _) => none
    | .step e => do
      let (session, _) ← s.session.step e
      some { s with session }

/-- Nothing fails: reads bring something, responses fit the buffer and are sent. -/
def Calm (s : Stream) : StreamEvent → Prop
  | .read n => 0 < n ∧ s.unread ≠ []
  | .step (.work reply) => ∃ header, (reply.calls.foldl HttpResponse.call s.session.response.reset).toBuffer
      s.session.buffer.size = some header ∧ header ≠ []
  | .step (.write e) => (∀ n, e.read ≠ .fail n) ∧ (∀ n, e.write ≠ .fail n) ∧ e.endRequest = true
  | .step .wake => True
  | .step .drop | .step (.read _) => False

instance (s : Stream) (e : StreamEvent) : Decidable (Calm s e) :=
  match e with
  | .read n => inferInstanceAs (Decidable (0 < n ∧ s.unread ≠ []))
  | .step (.work reply) => decidable_of_iff
      (((reply.calls.foldl HttpResponse.call s.session.response.reset).toBuffer
        s.session.buffer.size).getD [] ≠ []) (by
      simp only [Calm]
      cases (reply.calls.foldl HttpResponse.call s.session.response.reset).toBuffer
        s.session.buffer.size <;> simp)
  | .step (.write ⟨.chunk _, .accept _, ok⟩) => decidable_of_iff (ok = true) (by simp [Calm])
  | .step (.write ⟨.fail n, _, _⟩) => isFalse fun h => h.1 n rfl
  | .step (.write ⟨_, .fail n, _⟩) => isFalse fun h => h.2.1 n rfl
  | .step .wake => isTrue trivial
  | .step .drop | .step (.read _) => isFalse id

/-- The request that holds a position of the stream, and the position in it. -/
def locate : List RequestText → Nat → Option (Nat × RequestText)
  | [], _ => none
  | q :: qs, pos => if pos < q.bytes.length then some (pos, q) else locate qs (pos - q.bytes.length)

/-- A read ends before the end of the head that it is reading, or at the end of the request. -/
def Aligned (requests : List RequestText) (s : Stream) : StreamEvent → Prop
  | .read n => ∀ pos q,
      locate requests ((requests.flatMap RequestText.bytes).length - s.unread.length) = some (pos, q) →
        pos + (s.brought n).length < q.head.length ∨ pos + (s.brought n).length = q.bytes.length
  | .step _ => True

instance (requests : List RequestText) (s : Stream) (e : StreamEvent) :
    Decidable (Aligned requests s e) :=
  match e with
  | .read n => decidable_of_iff
      (∀ p ∈ locate requests ((requests.flatMap RequestText.bytes).length - s.unread.length),
        p.1 + (s.brought n).length < p.2.head.length ∨ p.1 + (s.brought n).length = p.2.bytes.length)
      ⟨fun h pos q hq => h (pos, q) hq, fun h p hp => h p.1 p.2 hp⟩
  | .step _ => isTrue trivial

/-- The heads passed to `work_connection` are those of the stream, all of them when it has been
read; the connection is kept, and nothing but the next head is being parsed. -/
structure Framed (cfg : ServerConfig) (requests : List RequestText) (s : Stream) : Prop where
  begins : s.works <+: requests.map (RequestText.work cfg)
  kept : s.session.state ≠ .closed
  inHead : s.session.state = .clientRequest →
    s.session.parsedBytes <+: ((requests[s.works.length]?).map RequestText.head).getD []
  complete : s.unread = [] → s.works = requests.map (RequestText.work cfg)

/-! ### The head of a request -/

namespace RequestText.WellFormed
variable {cfg : ServerConfig} {q : RequestText}

/-- The storage that the beginning of a text overflows stays overflowed. -/
theorem hasOverflow_of_append {capacity maxHeaders : Nat} {text chunk : Bytes}
    (hlive : HttpParser.scanner.stops (HttpRequest.ofText capacity maxHeaders text).parser = false)
    (h : (HttpRequest.ofText capacity maxHeaders (text ++ chunk)).hasOverflow = false) :
    (HttpRequest.ofText capacity maxHeaders text).hasOverflow = false := by
  rw [← HttpRequest.parse_ofText hlive List.take_length, HttpRequest.parse,
    HttpRequest.hasOverflow_callbacks] at h
  exact (Bool.or_eq_false_iff.mp h).1

/-- The beginning of a head needs more. -/
theorem not_stops (h : q.WellFormed cfg) {text rest : Bytes} (hhead : q.head = text ++ rest)
    (hrest : rest ≠ []) :
    HttpParser.scanner.stops
      (HttpRequest.ofText cfg.headerBufferSize cfg.maxHeaders text).parser = false := by
  rw [HttpRequest.parser_ofText]
  by_contra hstops
  rw [Bool.not_eq_false] at hstops
  have hnread := h.nread_eq
  rw [RequestText.parsed, HttpRequest.parser_ofText, hhead,
    HttpParser.parse_append_of_stops text rest hstops, List.length_append] at hnread
  replace hnread : (HttpParser.reset.parse 0 text).1.nread = text.length + rest.length := hnread
  have hle := HttpParser.nread_le text
  have hpos := List.length_pos_of_ne_nil hrest
  omega

theorem beginning (h : q.WellFormed cfg) {text rest : Bytes} (hhead : q.head = text ++ rest)
    (hrest : rest ≠ []) :
    (HttpRequest.ofText cfg.headerBufferSize cfg.maxHeaders text).isFinished = false ∧
      (HttpRequest.ofText cfg.headerBufferSize cfg.maxHeaders text).hasError = false := by
  have hstops := h.not_stops hhead hrest
  have herror := h.noError
  rw [RequestText.parsed, hhead] at herror
  simp only [HttpRequest.hasError, Bool.or_eq_false_iff] at herror
  have hover := hasOverflow_of_append hstops herror.1.2
  obtain ⟨hfin, herr⟩ := Bool.or_eq_false_iff.mp hstops
  refine ⟨hfin, ?_⟩
  simp [HttpRequest.hasError, hfin, herr, hover]

/-- What is read together with a body says what the head says. -/
theorem ofText_append (h : q.WellFormed cfg) (rest : Bytes) :
    ∃ body, HttpRequest.ofText cfg.headerBufferSize cfg.maxHeaders (q.head ++ rest) =
      { q.parsed cfg with bodyStart := body } := by
  have hstops : HttpParser.scanner.stops (q.parsed cfg).parser = true :=
    Bool.or_eq_true_iff.mpr (.inl h.finished)
  have hdrop := HttpRequest.dropBody_ofText_append q.head rest hstops
  refine ⟨(HttpRequest.ofText cfg.headerBufferSize cfg.maxHeaders (q.head ++ rest)).bodyStart, ?_⟩
  exact congrArg (fun r : HttpRequest => { r with
    bodyStart := (HttpRequest.ofText cfg.headerBufferSize cfg.maxHeaders (q.head ++ rest)).bodyStart }) hdrop

end RequestText.WellFormed

/-- The place of the body is no part of what `process_request_headers` looks at. -/
theorem processRequestHeaders_bodyStart (r : HttpRequest) (body : HeaderString) :
    processRequestHeaders { r with bodyStart := body } =
      (processRequestHeaders r).map fun (r, ok) => ({ r with bodyStart := body }, ok) := by
  cases hpath : r.requestPath with
  | none => simp [processRequestHeaders, hpath]
  | some path =>
    simp only [processRequestHeaders, hpath, Option.map_map]
    rfl

/-- The head is that of the request, also when the body has been read with it. -/
theorem RequestText.WellFormed.processed {cfg : ServerConfig} {q : RequestText} (h : q.WellFormed cfg)
    (hpath : q.PathAccepted cfg) {rest : Bytes} {r : HttpRequest} {ok : Bool}
    (hr : processRequestHeaders
      (.ofText cfg.headerBufferSize cfg.maxHeaders (q.head ++ rest)) = some (r, ok)) :
    ok = true ∧ headFields r = (q.work cfg).1 ∧ r.parser.nread = q.head.length ∧
      r.reset = .resize cfg.headerBufferSize cfg.maxHeaders ∧
      ∃ version, r.httpVersion = some version ∧
        closesConnection version (r.store.getHeaderString headerConnection) = false := by
  obtain ⟨t, ht⟩ := hpath
  obtain ⟨body, hbody⟩ := h.ofText_append rest
  have hmap : (processRequestHeaders (q.parsed cfg)).map _ = _ :=
    (processRequestHeaders_bodyStart (q.parsed cfg) body).symm.trans (hbody ▸ hr)
  rw [RequestText.processed] at ht
  rw [ht] at hmap
  obtain ⟨rfl, rfl⟩ := Prod.mk.inj (Option.some.inj hmap)
  have hstored : RequestMemory.PathStored (q.parsed cfg) := HttpRequest.pathStored_ofText q.head
  refine ⟨rfl, by simp [RequestText.work, RequestText.processed, ht, headFields], ?_⟩
  obtain ⟨path, mem, -, -, rfl⟩ := processRequestHeaders_cases hstored ht
  exact ⟨h.nread_eq, HttpRequest.reset_ofText q.head, h.keepalive⟩

section Event
variable {cfg : ServerConfig} {q : RequestText} {text : Bytes} {c c' : HeadConn HttpRequest}
  {socket : ReaderOutcome} {next : Next}

/-- A read that ends before the end of the head. -/
theorem RequestText.WellFormed.event_inside (h : q.WellFormed cfg)
    (htext : Received cfg.ioBufferSize cfg.headerBufferSize cfg.maxHeaders text c)
    (hevent : clientRequestEvent c socket = some (c', next))
    (hne : socket.delivered (cfg.ioBufferSize - text.length % cfg.ioBufferSize) ≠ [])
    (hpre : withDelivered cfg.ioBufferSize text socket <+: q.head)
    (hlt : (withDelivered cfg.ioBufferSize text socket).length < q.head.length) :
    next = .stay ∧ Received cfg.ioBufferSize cfg.headerBufferSize cfg.maxHeaders
      (withDelivered cfg.ioBufferSize text socket) c' := by
  obtain ⟨more, hmore⟩ := hpre
  have hmore' : more ≠ [] := by
    rintro rfl
    rw [← hmore, List.append_nil] at hlt
    omega
  obtain ⟨hfin, herr⟩ := h.beginning hmore.symm hmore'
  obtain ⟨-, ⟨hnil, -⟩ | ⟨-, -, hcases⟩⟩ := htext.event hevent
  · exact absurd hnil hne
  obtain ⟨htrue, -⟩ | ⟨-, htrue, -⟩ | hstay := hcases
  · simp [hfin] at htrue
  · simp [herr] at htrue
  · exact hstay

/-- A read that ends with the request. -/
theorem RequestText.WellFormed.event_ends (h : q.WellFormed cfg) (hpath : q.PathAccepted cfg)
    (htext : Received cfg.ioBufferSize cfg.headerBufferSize cfg.maxHeaders text c)
    (hevent : clientRequestEvent c socket = some (c', next))
    (hne : socket.delivered (cfg.ioBufferSize - text.length % cfg.ioBufferSize) ≠ [])
    (hall : withDelivered cfg.ioBufferSize text socket = q.bytes) :
    next = .work ∧ Sized cfg.ioBufferSize c'.buffer ∧
      (headFields c'.head, c'.buffer.buffer.take c'.head.parser.nread) = q.work cfg ∧
      c'.head.reset = .resize cfg.headerBufferSize cfg.maxHeaders ∧
      ∃ version, c'.head.httpVersion = some version ∧
        closesConnection version (c'.head.store.getHeaderString headerConnection) = false := by
  have hfin : (HttpRequest.ofText cfg.headerBufferSize cfg.maxHeaders q.bytes).isFinished = true := by
    obtain ⟨body, hbody⟩ := h.ofText_append q.body
    rw [RequestText.bytes, hbody]
    exact h.finished
  obtain ⟨hsized, ⟨hnil, -⟩ | ⟨-, hmem, hcases⟩⟩ := htext.event hevent
  · exact absurd hnil hne
  rw [hall] at hmem hcases
  obtain ⟨-, ok, hproc, rfl⟩ | ⟨hfalse, -⟩ | ⟨-, hreceived⟩ := hcases
  · obtain ⟨rfl, hfields, hnread, hreset, hversion⟩ := h.processed hpath hproc
    refine ⟨rfl, hsized, ?_, hreset, hversion⟩
    have htake := congrArg (List.take q.head.length) hmem
    have hle : q.head.length ≤ q.bytes.length := by simp [RequestText.bytes]
    rw [List.take_take, min_eq_left hle, RequestText.bytes, List.take_left] at htake
    rw [hfields, hnread, htake]
    rfl
  · simp [hfin] at hfalse
  · have hnot : c'.head.isFinished = false := hreceived.awaiting.notFinished
    rw [hreceived.head, hfin] at hnot
    cases hnot

end Event

theorem RequestText.WellFormed.head_ne_nil {cfg : ServerConfig} {q : RequestText} (h : q.WellFormed cfg) :
    q.head ≠ [] := by
  intro hnil
  have hfin := h.finished
  rw [RequestText.parsed, hnil] at hfin
  cases hfin

theorem locate_append (done : List RequestText) (q : RequestText) (rest : List RequestText) {pos : Nat}
    (hpos : pos < q.bytes.length) :
    locate (done ++ q :: rest) ((done.flatMap RequestText.bytes).length + pos) = some (pos, q) := by
  induction done with
  | nil =>
    rw [List.flatMap_nil, List.length_nil, Nat.zero_add, List.nil_append, locate, if_pos hpos]
  | cons p done ih =>
    rw [List.cons_append, locate, List.flatMap_cons, List.length_append, if_neg (by omega), ← ih]
    congr 1
    omega

/-! ### Responses that are sent -/

/-- A response that fits the buffer is sent. -/
theorem Session.not_closed_of_toBuffer (s : Session) {reply : Reply} {s' : Session}
    (hfits : ∃ header, (reply.calls.foldl HttpResponse.call s.response.reset).toBuffer s.buffer.size =
      some header ∧ header ≠ [])
    (h : s.workerProcessRequest reply = some s') : s'.state ≠ .closed := by
  obtain ⟨header, hheader, hne⟩ := hfits
  obtain ⟨version, -, h⟩ := Option.bind_eq_some_iff.mp h
  obtain ⟨method, -, h⟩ := Option.bind_eq_some_iff.mp h
  obtain ⟨p, hp, h⟩ := Option.bind_eq_some_iff.mp h
  obtain rfl := Option.some.inj h
  have hlength : p.length = some header.length := by
    simp only [populateResponseHeaders, hheader] at hp
    obtain ⟨b, -, rfl⟩ := Option.map_eq_some_iff.mp hp
    rfl
  have hpos := List.length_pos_of_ne_nil hne
  simp only [hlength, Option.getD_some, hpos, if_true]
  split_ifs <;> decide

theorem hasError_bufferRead {b b' : IoRingBuffer} {bytes : Bytes} {result : IoResult}
    (h : b.bufferRead (.data bytes) = some (b', result)) : result.hasError = false := by
  unfold IoRingBuffer.bufferRead at h
  split_ifs at h
  · obtain ⟨-, rfl⟩ := Prod.mk.inj (Option.some.inj h)
    rfl
  · obtain ⟨mem, -, h⟩ := Option.bind_eq_some_iff.mp h
    obtain ⟨-, rfl⟩ := Prod.mk.inj (Option.some.inj h)
    rfl

theorem hasError_bufferWrite {b b' : IoRingBuffer} {n : Nat} {taken : Bytes} {result : IoResult}
    (h : b.bufferWrite (.accept n) = some (b', taken, result)) : result.hasError = false := by
  unfold IoRingBuffer.bufferWrite at h
  split_ifs at h
  · obtain ⟨-, h⟩ := Prod.mk.inj (Option.some.inj h)
    obtain ⟨-, rfl⟩ := Prod.mk.inj h
    rfl
  · obtain ⟨offered, -, h⟩ := Option.bind_eq_some_iff.mp h
    obtain ⟨-, h⟩ := Prod.mk.inj (Option.some.inj h)
    obtain ⟨-, rfl⟩ := Prod.mk.inj h
    rfl

/-- Where nothing fails, the connection is kept. -/
theorem BodyConn.next_of_calm {s s' : BodyConn} {e : BodyEvent} (hstay : s.next = .stay)
    (hclose : s.connectionClose = false)
    (hcalm : (∀ n, e.read ≠ .fail n) ∧ (∀ n, e.write ≠ .fail n) ∧ e.endRequest = true)
    (h : s.handleStateServerBody e = some s') : s'.next = .stay ∨ s'.next = .keepalive := by
  obtain ⟨⟨size, hsize⟩, ⟨count, hcount⟩, hend⟩ :
      (∃ size, e.read = .chunk size) ∧ (∃ count, e.write = .accept count) ∧ e.endRequest = true := by
    refine ⟨?_, ?_, hcalm.2.2⟩
    · cases hread : e.read with
      | chunk size => exact ⟨size, rfl⟩
      | fail n => exact absurd hread (hcalm.1 n)
    · cases hwrite : e.write with
      | accept count => exact ⟨count, rfl⟩
      | fail n => exact absurd hwrite (hcalm.2.1 n)
  obtain ⟨⟨s₁, result⟩, hbody, h⟩ := Option.bind_eq_some_iff.mp h
  obtain ⟨herr, hnext, hclose₁⟩ : result.hasError = false ∧ s₁.next = .stay ∧ s₁.connectionClose = false := by
    unfold BodyConn.writeResponseBody at hbody
    split at hbody
    · obtain ⟨rfl, rfl⟩ := Prod.mk.inj (Option.some.inj hbody)
      exact ⟨rfl, hstay, hclose⟩
    · obtain ⟨⟨b, r⟩, hread, hbody⟩ := Option.bind_eq_some_iff.mp hbody
      obtain ⟨rfl, rfl⟩ := Prod.mk.inj (Option.some.inj hbody)
      rw [hsize] at hread
      exact ⟨hasError_bufferRead hread, hstay, hclose⟩
  have hended : ∀ t : BodyConn, t.connectionClose = false → (t.endRequest e.endRequest).next = .keepalive := by
    intro t ht
    simp [BodyConn.endRequest, hend, ht]
  simp only [herr, Option.pure_def, Bool.false_eq_true, if_false] at h
  split_ifs at h with hpos
  · obtain ⟨⟨b, taken, r⟩, hwrite, h⟩ := Option.bind_eq_some_iff.mp h
    rw [hcount] at hwrite
    simp only [hasError_bufferWrite hwrite, Bool.false_eq_true, if_false] at h
    split_ifs at h with hzero
    · obtain rfl := Option.some.inj h
      exact .inl hnext
    · obtain rfl := Option.some.inj h
      exact .inr (hended _ hclose₁)
  · obtain rfl := Option.some.inj h
    exact .inr (hended _ hclose₁)

theorem Session.not_closed_of_writes {s s' : Session} {e : BodyEvent} {counted : Bool}
    (hclose : s.connectionClose = false)
    (hcalm : (∀ n, e.read ≠ .fail n) ∧ (∀ n, e.write ≠ .fail n) ∧ e.endRequest = true)
    (h : s.writeResponse e = some (s', counted)) (hstate : s.state = .serverResponse ∨ s.state = .serverBody) :
    s'.state ≠ .closed := by
  obtain ⟨b, hbody, h⟩ := Option.bind_eq_some_iff.mp h
  have hnext := BodyConn.next_of_calm rfl hclose hcalm hbody
  simp only at h
  rcases hnext with hnext | hnext <;> simp only [hnext] at h <;>
    obtain ⟨rfl, rfl⟩ := Prod.mk.inj (Option.some.inj h)
  · rcases hstate with hstate | hstate <;> simp [hstate]
  · simp

/-! ### The invariant of a stream -/

/-- The connection of a request that is kept alive, from the end of its head on. -/
structure Session.Kept (cfg : ServerConfig) (s : Session) : Prop where
  sized : Sized cfg.ioBufferSize s.buffer
  reset_eq : s.request.reset = .resize cfg.headerBufferSize cfg.maxHeaders

/-- The requests in `rest` are still to come; `unread` is what the server has not read of them. -/
def Session.Expects (cfg : ServerConfig) (rest : List RequestText) (unread : Bytes) (s : Session) : Prop :=
  match s.state with
  | .clientRequest => ∃ text,
      Received cfg.ioBufferSize cfg.headerBufferSize cfg.maxHeaders text ⟨s.buffer, s.request⟩ ∧
      text ++ unread = rest.flatMap RequestText.bytes ∧ ∀ q ∈ rest.head?, text.length < q.head.length
  | .working => s.Kept cfg ∧ unread = rest.flatMap RequestText.bytes ∧
      ∃ version, s.request.httpVersion = some version ∧
        closesConnection version (s.request.store.getHeaderString headerConnection) = false
  | .serverResponse | .serverBody => s.Kept cfg ∧ unread = rest.flatMap RequestText.bytes ∧
      s.connectionClose = false
  | .waiting => Fresh cfg.ioBufferSize s.buffer ∧ unread = rest.flatMap RequestText.bytes ∧
      s.request.reset = .resize cfg.headerBufferSize cfg.maxHeaders
  | .closed => False

/-- The requests in `done` have been passed on, and the others are still to come. -/
structure Stream.Follows (cfg : ServerConfig) (done rest : List RequestText) (s : Stream) : Prop where
  works_eq : s.works = done.map (RequestText.work cfg)
  expects : s.session.Expects cfg rest s.unread

section Invariant
variable {cfg : ServerConfig} {done rest : List RequestText} {s s' : Stream}

theorem Session.Expects.reading {unread : Bytes} {c : Session} (h : c.Expects cfg rest unread)
    (hstate : c.state = .clientRequest) : ∃ text,
      Received cfg.ioBufferSize cfg.headerBufferSize cfg.maxHeaders text ⟨c.buffer, c.request⟩ ∧
      text ++ unread = rest.flatMap RequestText.bytes ∧ ∀ q ∈ rest.head?, text.length < q.head.length := by
  rwa [Session.Expects, hstate] at h

/-- What has been parsed of the next head is its beginning. -/
theorem Received.parsedBytes {text : Bytes} {c : Session}
    (h : Received cfg.ioBufferSize cfg.headerBufferSize cfg.maxHeaders text ⟨c.buffer, c.request⟩) :
    c.parsedBytes = text := by
  have hlive := h.live
  have hhead : c.request = _ := h.head
  rw [HttpRequest.parser_ofText] at hlive
  rw [Session.parsedBytes, hhead, HttpRequest.parser_ofText, HttpParser.nread_of_not_stops text hlive]
  exact h.mem

theorem Stream.Follows.framed (hgood : ∀ q ∈ rest, q.WellFormed cfg) (h : s.Follows cfg done rest) :
    Framed cfg (done ++ rest) s := by
  have hlen : s.works.length = done.length := by rw [h.works_eq, List.length_map]
  have hdone : rest = [] → s.works = (done ++ rest).map (RequestText.work cfg) := by
    rintro rfl
    rw [List.append_nil, h.works_eq]
  have hflat : rest.flatMap RequestText.bytes = [] → rest = [] := by
    intro hnil
    cases rest with
    | nil => rfl
    | cons q rest =>
      have hhead := (hgood q List.mem_cons_self).head_ne_nil
      simp [RequestText.bytes, hhead] at hnil
  refine ⟨?_, ?_, ?_, ?_⟩
  · rw [h.works_eq, List.map_append]
    exact List.prefix_append _ _
  · intro hclosed
    have hexp := h.expects
    rw [Session.Expects, hclosed] at hexp
    exact hexp
  · intro hstate
    obtain ⟨text, htext, happend, hlt⟩ := h.expects.reading hstate
    rw [htext.parsedBytes, hlen, List.getElem?_append_right le_rfl, Nat.sub_self]
    cases rest with
    | nil =>
      rw [List.flatMap_nil, List.append_eq_nil_iff] at happend
      rw [happend.1]
      exact List.nil_prefix
    | cons q rest =>
      have hle : text.length < q.head.length := hlt q rfl
      have hpre : text <+: q.head ++ (q.body ++ rest.flatMap RequestText.bytes) := by
        rw [← List.append_assoc, ← RequestText.bytes, ← List.flatMap_cons, ← happend]
        exact List.prefix_append _ _
      exact List.prefix_of_prefix_length_le hpre (List.prefix_append _ _) hle.le
  · intro hunread
    refine hdone (hflat ?_)
    have hexp := h.expects
    rw [hunread] at hexp
    unfold Session.Expects at hexp
    split at hexp
    · obtain ⟨text, -, happend, hlt⟩ := hexp
      cases rest with
      | nil => rfl
      | cons q rest =>
        have hle : text.length < q.head.length := hlt q rfl
        have hlength := congrArg List.length happend
        simp [RequestText.bytes] at hlength
        omega
    · exact hexp.2.1.symm
    · exact hexp.2.1.symm
    · exact hexp.2.1.symm
    · exact hexp.2.1.symm
    · exact hexp.elim

/-- A read takes the stream on by some of the bytes of the request at hand, or to its end. -/
theorem Stream.Follows.read (hgood : ∀ q ∈ rest, q.WellFormed cfg ∧ q.PathAccepted cfg)
    (h : s.Follows cfg done rest) {n : Nat} (hcalm : Calm s (.read n))
    (haligned : Aligned (done ++ rest) s (.read n))
    (hstep : (streamMachine cfg (done ++ rest)).step s (.read n) = some s') :
    ∃ done' rest', done ++ rest = done' ++ rest' ∧ s'.Follows cfg done' rest' := by
  obtain ⟨⟨c, counted⟩, hsession, hstep⟩ := Option.bind_eq_some_iff.mp hstep
  obtain rfl := Option.some.inj hstep
  obtain ⟨hstate, hread⟩ := Session.step_read hsession
  obtain ⟨⟨conn, next⟩, hevent, hread⟩ := Option.bind_eq_some_iff.mp hread
  obtain rfl := Option.some.inj hread
  obtain ⟨text, htext, happend, hlt⟩ := h.expects.reading hstate
  -- the read is one of the request at the head of `rest`
  obtain ⟨q, rest, rfl⟩ : ∃ q qs, rest = q :: qs := by
    cases rest with
    | nil => simp [hcalm.2] at happend
    | cons q qs => exact ⟨q, qs, rfl⟩
  obtain ⟨hwf, hpath⟩ := hgood q List.mem_cons_self
  have hlt : text.length < q.head.length := hlt q rfl
  have hfit := hwf.fits
  have hto : s.session.buffer.bytesToRead = cfg.ioBufferSize - text.length % cfg.ioBufferSize :=
    htext.awaiting.filled.bytesToRead
  set d := s.brought n with hd
  have hdelivered : (ReaderOutcome.data (s.unread.take n)).delivered
      (cfg.ioBufferSize - text.length % cfg.ioBufferSize) = d := by
    rw [hd, Stream.brought, hto]
    rfl
  have hsplit : d ++ s.unread.drop d.length = s.unread := by
    have hpre : d <+: s.unread := (List.take_prefix _ _).trans (List.take_prefix _ _)
    obtain ⟨t, ht⟩ := hpre
    rw [← ht, List.drop_left]
  have hne : d ≠ [] := by
    have hpos : 0 < cfg.ioBufferSize - text.length % cfg.ioBufferSize := by
      have := Nat.mod_lt text.length htext.awaiting.filled.pos
      omega
    have hn := hcalm.1
    rw [hd, Stream.brought, hto, Ne, List.take_eq_nil_iff, List.take_eq_nil_iff]
    rintro (h0 | h0 | h0)
    · omega
    · omega
    · exact hcalm.2 h0
  have hpos : ((done ++ q :: rest).flatMap RequestText.bytes).length - s.unread.length =
      (done.flatMap RequestText.bytes).length + text.length := by
    have hlength := congrArg List.length happend
    rw [List.length_append] at hlength
    rw [List.flatMap_append, List.length_append, ← hlength]
    omega
  have hnext : (text ++ d) ++ s.unread.drop d.length = q.bytes ++ rest.flatMap RequestText.bytes := by
    rw [List.append_assoc, hsplit, happend, List.flatMap_cons]
  have hbytes : q.bytes.length = q.head.length + q.body.length := List.length_append
  have hend := haligned text.length q (by rw [hpos]; exact locate_append done q rest (by omega))
  rw [← hd, ← List.length_append] at hend
  have hwith : withDelivered cfg.ioBufferSize text (.data (s.unread.take n)) = text ++ d := by
    rw [withDelivered, hdelivered]
  rw [← hdelivered] at hne
  rcases hend with hend | hend
  · have hpre : text ++ d <+: q.head := by
      have hhead : q.head <+: q.bytes ++ rest.flatMap RequestText.bytes :=
        (List.prefix_append q.head q.body).trans (List.prefix_append _ _)
      refine List.prefix_of_prefix_length_le ?_ hhead hend.le
      rw [← hnext]
      exact List.prefix_append _ _
    rw [← hwith] at hpre hend
    obtain ⟨rfl, hreceived⟩ := hwf.event_inside htext hevent hne hpre hend
    rw [hwith] at hend hreceived
    refine ⟨done, q :: rest, rfl, h.works_eq, text ++ d, hreceived, hnext, ?_⟩
    rintro p hp
    obtain rfl := Option.some.inj hp
    exact hend
  · obtain ⟨hall, hunread⟩ := List.append_inj hnext hend
    rw [← hwith] at hall
    obtain ⟨rfl, hsized, hwork, hreset, hversion⟩ := hwf.event_ends hpath htext hevent hne hall
    refine ⟨done ++ [q], rest, by simp, ?_, ⟨hsized, hreset⟩, hunread, hversion⟩
    rw [List.map_append, ← h.works_eq, List.map_singleton, ← hwork]
    rfl

theorem Stream.Follows.work (h : s.Follows cfg done rest) {reply : Reply}
    (hcalm : Calm s (.step (.work reply))) {c : Session} (hstate : s.session.state = .working)
    (hwork : s.session.workerProcessRequest reply = some c) :
    Stream.Follows cfg done rest { s with session := c } := by
  have hexp := h.expects
  rw [Session.Expects, hstate] at hexp
  obtain ⟨hkept, hunread, version, hversion, hclose⟩ := hexp
  obtain ⟨hreq, hsized, -, version', method, hversion', -, hclose', hnext⟩ :=
    Session.workerProcessRequest_cases hkept.sized hwork
  rw [hversion] at hversion'
  obtain rfl := Option.some.inj hversion'
  have hopen : c.state ≠ .closed := s.session.not_closed_of_toBuffer hcalm hwork
  have hkept' : c.Kept cfg := ⟨hsized, hreq ▸ hkept.reset_eq⟩
  refine ⟨h.works_eq, ?_⟩
  rcases hnext with hnext | hnext
  · exact absurd hnext hopen
  cases hbody : responseHasBody method reply.statusCode with
  | true =>
    rw [hbody, if_pos rfl] at hnext
    rw [Session.Expects, hnext]
    exact ⟨hkept', hunread, hclose'.trans hclose⟩
  | false =>
    rw [hbody, if_neg (by decide)] at hnext
    rw [Session.Expects, hnext]
    exact ⟨hkept', hunread, hclose'.trans hclose⟩

theorem Stream.Follows.write (h : s.Follows cfg done rest) {e : BodyEvent}
    (hcalm : Calm s (.step (.write e))) {c : Session} {counted : Bool}
    (hstate : s.session.state = .serverResponse ∨ s.session.state = .serverBody)
    (hwrite : s.session.writeResponse e = some (c, counted)) :
    Stream.Follows cfg done rest { s with session := c } := by
  obtain ⟨hkept, hunread, hclose⟩ : s.session.Kept cfg ∧ s.unread = rest.flatMap RequestText.bytes ∧
      s.session.connectionClose = false := by
    have hexp := h.expects
    unfold Session.Expects at hexp
    rcases hstate with hstate | hstate <;> rw [hstate] at hexp <;> exact hexp
  obtain ⟨hreq, -, hclose', hcases⟩ := Session.writeResponse_cases hkept.sized hwrite
  have hopen := Session.not_closed_of_writes hclose hcalm hwrite
  refine ⟨h.works_eq, ?_⟩
  obtain ⟨hsame, hsized, -⟩ | hclosed | ⟨hwaiting, hfresh⟩ := hcases
  · have hkept' : c.Kept cfg := ⟨hsized, hreq ▸ hkept.reset_eq⟩
    rw [← hsame] at hstate
    unfold Session.Expects
    rcases hstate with hstate | hstate <;> simp only [hstate] <;>
      exact ⟨hkept', hunread, hclose'.trans hclose⟩
  · exact absurd hclosed (hopen hstate)
  · rw [Session.Expects, hwaiting]
    exact ⟨hfresh, hunread, hreq ▸ hkept.reset_eq⟩

/-- A connection that was waiting starts with an empty buffer at the next request. -/
theorem Stream.Follows.wake (hgood : ∀ q ∈ rest, q.WellFormed cfg ∧ q.PathAccepted cfg)
    (h : s.Follows cfg done rest) (hstate : s.session.state = .waiting) :
    Stream.Follows cfg done rest { s with session := s.session.processHeaders } := by
  have hexp := h.expects
  rw [Session.Expects, hstate] at hexp
  obtain ⟨hfresh, hunread, hreset⟩ := hexp
  refine ⟨h.works_eq, [], ?_, hunread, ?_⟩
  · change Received _ _ _ [] ⟨s.session.buffer, s.session.request.reset⟩
    rw [hreset]
    exact received_nil hfresh
  · intro q hq
    exact List.length_pos_of_ne_nil (hgood q (List.mem_of_mem_head? hq)).1.head_ne_nil

theorem Stream.Follows.step (hgood : ∀ q ∈ rest, q.WellFormed cfg ∧ q.PathAccepted cfg)
    (h : s.Follows cfg done rest) {e : StreamEvent} (hcalm : Calm s e)
    (haligned : Aligned (done ++ rest) s e)
    (hstep : (streamMachine cfg (done ++ rest)).step s e = some s') :
    ∃ done' rest', done ++ rest = done' ++ rest' ∧ s'.Follows cfg done' rest' := by
  match e with
  | .read n => exact h.read hgood hcalm haligned hstep
  | .step (.read _) | .step .drop => exact hcalm.elim
  | .step (.work reply) =>
    obtain ⟨⟨c, counted⟩, hsession, hstep⟩ := Option.bind_eq_some_iff.mp hstep
    obtain rfl := Option.some.inj hstep
    obtain ⟨hstate, hwork⟩ := Session.step_work hsession
    exact ⟨done, rest, rfl, h.work hcalm hstate hwork⟩
  | .step (.write e) =>
    obtain ⟨⟨c, counted⟩, hsession, hstep⟩ := Option.bind_eq_some_iff.mp hstep
    obtain rfl := Option.some.inj hstep
    obtain ⟨hstate, hwrite⟩ := Session.step_write hsession
    exact ⟨done, rest, rfl, h.write hcalm hstate hwrite⟩
  | .step .wake =>
    obtain ⟨⟨c, counted⟩, hsession, hstep⟩ := Option.bind_eq_some_iff.mp hstep
    obtain rfl := Option.some.inj hstep
    obtain ⟨hstate, rfl⟩ := Session.step_wake hsession
    exact ⟨done, rest, rfl, h.wake hgood hstate⟩

/-- In every run in which nothing fails and every read that ends a head ends with its request, on
requests whose paths are accepted, the heads passed on are those of the stream. -/
theorem keepalive_framed (cfg : ServerConfig) (requests : List RequestText)
    (hgood : ∀ q ∈ requests, q.WellFormed cfg ∧ q.PathAccepted cfg) (s : Stream)
    (h : (streamMachine cfg requests).Reaches (fun s e => Calm s e ∧ Aligned requests s e) s) :
    Framed cfg requests s := by
  have hinv : ∃ done rest, requests = done ++ rest ∧ s.Follows cfg done rest := by
    refine Machine.Reaches.invariant (M := streamMachine cfg requests)
      (P := fun s => ∃ done rest, requests = done ++ rest ∧ s.Follows cfg done rest) ?_ ?_ h
    · rintro t ⟨⟨contents, hlen, hsession⟩, hunread, hworks⟩
      refine ⟨[], requests, rfl, hworks, ?_⟩
      rw [hsession]
      refine ⟨[], received_nil (.resize cfg.pow2 cfg.lt hlen), hunread, fun q hq => ?_⟩
      exact List.length_pos_of_ne_nil (hgood q (List.mem_of_mem_head? hq)).1.head_ne_nil
    · rintro t e t' ⟨done, rest, rfl, ht⟩ ⟨hcalm, haligned⟩ hstep
      exact ht.step (fun q hq => hgood q (List.mem_append_right done hq)) hcalm haligned hstep
  obtain ⟨done, rest, rfl, hs⟩ := hinv
  exact hs.framed fun q hq => (hgood q (List.mem_append_right done hq)).1

end Invariant

def framingConfig : ServerConfig := ⟨64, 64, 4, pow2_64, lt_two_pow_64⟩

/-- "GET", the path and "HTTP/1.1", without fields. -/
def framingGet (path : Bytes) : RequestText :=
  ⟨[71, 69, 84, 32] ++ path ++ [32, 72, 84, 84, 80, 47, 49, 46, 49, 10, 10], []⟩

/-- "POST / HTTP/1.1" with a Content-Length of 1, and the body "P". -/
def framingPost : RequestText :=
  ⟨[80, 79, 83, 84, 32, 47, 32, 72, 84, 84, 80, 47, 49, 46, 49, 10] ++ headerContentLength ++
    [58, 32, 49, 10, 10], [80]⟩

def framingStart (requests : List RequestText) : Stream :=
  ⟨framingConfig.newSession (List.replicate 64 0), requests.flatMap RequestText.bytes, []⟩

/-- A response of two bytes is sent, and the connection is taken up again. -/
def framingAnswer : List StreamEvent :=
  [.step (.work ⟨[], 200, [79, 75], [], some [72, 105]⟩), .step (.write ⟨.chunk 2, .accept 64, true⟩),
    .step (.write ⟨.chunk 2, .accept 64, true⟩), .step .wake]

theorem framing_reaches {requests : List RequestText} {ok : Stream → StreamEvent → Prop}
    [∀ s e, Decidable (ok s e)] {events : List StreamEvent} {s : Stream}
    (h : ((streamMachine framingConfig requests).guard ok).run (framingStart requests) events = some s) :
    (streamMachine framingConfig requests).Reaches ok s :=
  .of_guard_run (.start ⟨⟨List.replicate 64 0, rfl, rfl⟩, rfl, rfl⟩) h

theorem framing_good {q : RequestText} (hfits : q.head.length ≤ 64)
    (h : let r := q.parsed framingConfig
      r.isFinished = true ∧ r.hasError = false ∧ r.parser.nread = q.head.length ∧
        r.httpVersion = some [72, 84, 84, 80, 47, 49, 46, 49] ∧
        closesConnection [72, 84, 84, 80, 47, 49, 46, 49] (r.store.getHeaderString headerConnection) = false ∧
        q.body.length = contentLength r ∧ (q.processed framingConfig).map Prod.snd = some true) :
    q.WellFormed framingConfig ∧ q.PathAccepted framingConfig := by
  obtain ⟨hfin, herr, hnread, hversion, hclose, hbody, hok⟩ := h
  obtain ⟨⟨r, ok⟩, hr, rfl⟩ := Option.map_eq_some_iff.mp hok
  exact ⟨⟨hfin, herr, hnread, hfits, ⟨_, hversion, hclose⟩, hbody⟩, r, hr⟩

/-- The root and then "/a": the first head comes in two reads, and the second request is read only
when the first is done. -/
theorem keepalive_framed_two : ∃ s, (streamMachine framingConfig [framingGet [47], framingGet [47, 97]]).Reaches
      (fun s e => Calm s e ∧ Aligned [framingGet [47], framingGet [47, 97]] s e) s ∧ s.unread = [] ∧
    Framed framingConfig [framingGet [47], framingGet [47, 97]] s := by
  have hrun : (((streamMachine framingConfig [framingGet [47], framingGet [47, 97]]).guard
      fun s e => Calm s e ∧ Aligned [framingGet [47], framingGet [47, 97]] s e).run
      (framingStart [framingGet [47], framingGet [47, 97]])
      ([.read 5, .read 11] ++ framingAnswer ++ [.read 64])).map Stream.unread = some [] := by decide +kernel
  obtain ⟨s, hs, hunread⟩ := Option.map_eq_some_iff.mp hrun
  have hreach := framing_reaches hs
  refine ⟨s, hreach, hunread, keepalive_framed framingConfig _ ?_ s hreach⟩
  intro q hq
  obtain rfl | rfl : q = framingGet [47] ∨ q = framingGet [47, 97] := by simpa using hq
  · exact framing_good (by decide) (by decide +kernel)
  · exact framing_good (by decide) (by decide +kernel)

/-- Two requests that come in one read: the second is lost. A body that comes in a read of its own:
it is parsed as a head. -/
theorem keepalive_not_framed :
    (∃ s, (∀ q ∈ [framingGet [47], framingGet [47, 97]],
        q.WellFormed framingConfig ∧ q.PathAccepted framingConfig) ∧
      (streamMachine framingConfig [framingGet [47], framingGet [47, 97]]).Reaches Calm s ∧
      ¬Framed framingConfig [framingGet [47], framingGet [47, 97]] s) ∧
    ∃ s, (∀ q ∈ [framingPost], q.WellFormed framingConfig ∧ q.PathAccepted framingConfig) ∧
      (streamMachine framingConfig [framingPost]).Reaches Calm s ∧
      s.session.state = .clientRequest ∧ s.session.parsedBytes = framingPost.body ∧
      ¬Framed framingConfig [framingPost] s := by
  refine ⟨?_, ?_⟩
  · have hrun : (((streamMachine framingConfig [framingGet [47], framingGet [47, 97]]).guard Calm).run
        (framingStart [framingGet [47], framingGet [47, 97]]) [.read 64]).map
        (fun s => (s.unread, s.works.length)) = some ([], 1) := by decide +kernel
    obtain ⟨s, hs, hvals⟩ := Option.map_eq_some_iff.mp hrun
    obtain ⟨hunread, hworks⟩ := Prod.mk.inj hvals
    refine ⟨s, ?_, framing_reaches hs, fun h => ?_⟩
    · intro q hq
      obtain rfl | rfl : q = framingGet [47] ∨ q = framingGet [47, 97] := by simpa using hq
      · exact framing_good (by decide) (by decide +kernel)
      · exact framing_good (by decide) (by decide +kernel)
    · rw [h.complete hunread] at hworks
      cases hworks
  · have hrun : (((streamMachine framingConfig [framingPost]).guard Calm).run (framingStart [framingPost])
        ([.read 35] ++ framingAnswer ++ [.read 64])).map
        (fun s => (s.session.state, s.works.length, s.session.parsedBytes)) =
          some (.clientRequest, 1, [80]) := by decide +kernel
    obtain ⟨s, hs, hvals⟩ := Option.map_eq_some_iff.mp hrun
    obtain ⟨hstate, hvals⟩ := Prod.mk.inj hvals
    obtain ⟨hworks, hparsed⟩ := Prod.mk.inj hvals
    refine ⟨s, ?_, framing_reaches hs, hstate, hparsed, fun h => ?_⟩
    · intro q hq
      obtain rfl : q = framingPost := by simpa using hq
      exact framing_good (by decide) (by decide +kernel)
    · have hpre := h.inHead hstate
      rw [hparsed, hworks] at hpre
      exact absurd hpre (by decide)

end Latypus.Server
