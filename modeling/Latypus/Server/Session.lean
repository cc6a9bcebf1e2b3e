import Latypus.Http.Constants
import Latypus.Server.HeaderOverflow

/-! A connection of `http_server` from request to request, with its data: a head is read, a
worker has the handler reply to it, the reply is sent, and the connection is kept for the next
head. The handlers under src/ never ask for the body of a request. -/

namespace Latypus.Server
open Lib Io Http

/-- Where a connection stands. In `working` the message for `worker_process_request` is under
way; `closed` is a connection that no longer reads requests. -/
inductive SessionState where
  | clientRequest
  | working
  | serverResponse
  | serverBody
  | waiting
  | closed
deriving DecidableEq, Repr

structure Session where
  state : SessionState
  buffer : IoRingBuffer
  request : HttpRequest
  response : HttpResponse
  /-- What the handler's reader has left. -/
  reader : Option Bytes
  connectionClose : Bool
deriving DecidableEq, Repr

/-- What a handler has to say to a request; `greeting` are the fields that
`process_request_headers` has put in the response before it. -/
structure Reply where
  greeting : List (Bytes × Bytes)
  statusCode : Int
  statusText : Bytes
  fields : List (Bytes × Bytes)
  reader : Option Bytes
deriving DecidableEq, Repr

/-- The calls that fill the response, from its version "HTTP/1.1" on. -/
def Reply.calls (reply : Reply) : List ResponseCall :=
  .setHttpVersion [72, 84, 84, 80, 47, 49, 46, 49] ::
    reply.greeting.map (fun f => .setHeaderField f.1 f.2) ++
    [.setStatusCode reply.statusCode, .setReasonPhrase reply.statusText] ++
    reply.fields.map fun f => .setHeaderField f.1 f.2

/-- `response_has_body` as the `populate_response` of all three handlers sets it. -/
def responseHasBody (method : Bytes) (statusCode : Int) : Bool :=
  match getMethodType method with
  | .get => statusCode ≠ 304
  | .head => false
  | .other => true

inductive SessionEvent where
  | read (socket : ReaderOutcome)
  | work (reply : Reply)
  | write (e : BodyEvent)
  | wake
  /-- A hangup, an error or a timeout. -/
  | drop
deriving DecidableEq, Repr

namespace Session

/-- An event in `client_request`. -/
def readRequest (s : Session) (socket : ReaderOutcome) : Option Session := do
  let (c, next) ← clientRequestEvent ⟨s.buffer, s.request⟩ socket
  some { s with
    buffer := c.buffer
    request := c.head
    state := match next with
      | .stay => .clientRequest
      | .work => .working
      | .abort | .close | .keepalive => .closed }

/-- `worker_process_request`. The handlers read the version and the method through pointers, and
`request_has_body` is false in all of them. -/
def workerProcessRequest (s : Session) (reply : Reply) : Option Session := do
  let version ← s.request.httpVersion
  let method ← s.request.requestMethod
  let p ← populateResponseHeaders s.buffer s.response.reset reply.calls true
  some { s with
    buffer := p.buffer
    response := p.response
    reader := reply.reader
    connectionClose := closesConnection version (s.request.store.getHeaderString headerConnection)
    state :=
      if 0 < p.length.getD 0 then
        if responseHasBody method reply.statusCode then .serverBody else .serverResponse
      else .closed }

/-- An event in `server_response` or `server_body`; the former has no body to send. The second
component tells whether a request is counted as processed. -/
def writeResponse (s : Session) (e : BodyEvent) : Option (Session × Bool) := do
  let reader := if s.state = .serverBody then s.reader else none
  let b ← BodyConn.handleStateServerBody ⟨s.buffer, reader, [], s.connectionClose, false, .stay⟩ e
  let s := { s with buffer := b.buffer, reader := if s.state = .serverBody then b.reader else s.reader }
  match b.next with
  | .stay => some (s, false)
  | .close => some ({ s with state := .closed }, true)
  | .keepalive => some ({ s with state := .waiting, buffer := s.buffer.reset }, true)
  | .abort | .work => some ({ s with state := .closed }, false)

/-- An event in `waiting`, which a router takes up with `router_process_headers`. -/
def processHeaders (s : Session) : Session :=
  { s with request := s.request.reset, state := .clientRequest }

/-- One step of the connection, and whether it counts a request as processed. -/
def step (s : Session) (e : SessionEvent) : Option (Session × Bool) :=
  match s.state, e with
  | .clientRequest, .read socket => (s.readRequest socket).map (·, false)
  | .working, .work reply => (s.workerProcessRequest reply).map (·, false)
  | .serverResponse, .write e | .serverBody, .write e => s.writeResponse e
  | .waiting, .wake => some (s.processHeaders, false)
  | .clientRequest, .drop | .serverResponse, .drop | .serverBody, .drop | .waiting, .drop =>
    some ({ s with state := .closed }, false)
  | _, _ => none

end Session

structure ServerConfig where
  ioBufferSize : Nat
  headerBufferSize : Nat
  maxHeaders : Nat
  pow2 : ∃ k, ioBufferSize = 2 ^ k
  lt : ioBufferSize < 2 ^ 63

/-- Buffers of 64 bytes, for the examples. -/
theorem pow2_64 : ∃ k, 64 = 2 ^ k := ⟨6, rfl⟩

theorem lt_two_pow_64 : 64 < 2 ^ 63 := by decide

/-- A connection as `new_connection` and `router_process_headers` leave it. -/
def ServerConfig.newSession (cfg : ServerConfig) (contents : Bytes) : Session :=
  { state := .clientRequest, buffer := .resize contents
    request := .resize cfg.headerBufferSize cfg.maxHeaders
    response := .resize cfg.headerBufferSize cfg.maxHeaders, reader := none, connectionClose := true }

/-! ### What the steps keep -/

section Sized
variable {N : Nat} {b b' : IoRingBuffer}

theorem sized_of_bufferRead {socket : ReaderOutcome} {result : IoResult} (hb : Sized N b)
    (h : b.bufferRead socket = some (b', result)) : Sized N b' := by
  unfold IoRingBuffer.bufferRead at h
  split_ifs at h
  · obtain ⟨rfl, -⟩ : b = b' ∧ .ofSize 0 = result := by simpa using h
    exact hb
  · obtain ⟨mem, hstore, h⟩ := Option.bind_eq_some_iff.mp h
    obtain ⟨rfl, -⟩ := Prod.mk.inj (Option.some.inj h)
    exact ⟨hb.pow2, hb.lt, (length_of_store hstore).trans hb.size_eq, hb.mask_eq⟩

theorem sized_of_bufferWrite {socket : WriterOutcome} {taken : Bytes} {result : IoResult}
    (hb : Sized N b) (h : b.bufferWrite socket = some (b', taken, result)) : Sized N b' := by
  unfold IoRingBuffer.bufferWrite at h
  split_ifs at h
  · obtain ⟨rfl, -⟩ : b = b' ∧ _ := by simpa using h
    exact hb
  · obtain ⟨offered, -, h⟩ := Option.bind_eq_some_iff.mp h
    obtain ⟨rfl, -⟩ := Prod.mk.inj (Option.some.inj h)
    exact ⟨hb.pow2, hb.lt, hb.size_eq, hb.mask_eq⟩

theorem sized_of_handleStateServerBody {s s' : BodyConn} {e : BodyEvent} (hb : Sized N s.buffer)
    (h : s.handleStateServerBody e = some s') : Sized N s'.buffer := by
  obtain ⟨⟨s₁, result⟩, hbody, h⟩ := Option.bind_eq_some_iff.mp h
  have hb₁ : Sized N s₁.buffer := by
    unfold BodyConn.writeResponseBody at hbody
    split at hbody
    · obtain ⟨rfl, -⟩ := Prod.mk.inj (Option.some.inj hbody)
      exact hb
    · obtain ⟨⟨b, r⟩, hread, hbody⟩ := Option.bind_eq_some_iff.mp hbody
      obtain ⟨rfl, -⟩ := Prod.mk.inj (Option.some.inj hbody)
      exact sized_of_bufferRead hb hread
  simp only [Option.pure_def] at h
  split_ifs at h with herr hpos
  · obtain rfl := Option.some.inj h
    exact hb₁
  · obtain ⟨⟨b, taken, r⟩, hwrite, h⟩ := Option.bind_eq_some_iff.mp h
    have hb₂ := sized_of_bufferWrite hb₁ hwrite
    simp only at h
    split_ifs at h <;> obtain rfl := Option.some.inj h <;> exact hb₂
  · obtain rfl := Option.some.inj h
    exact hb₁

theorem sized_of_populateBuffer {header : Bytes} (hb : Sized N b)
    (h : populateBuffer b header = some b') : Sized N b' := by
  obtain ⟨mem, hstore, h⟩ := Option.bind_eq_some_iff.mp h
  obtain rfl := Option.some.inj h
  exact ⟨hb.pow2, hb.lt, (length_of_store hstore).trans hb.size_eq, hb.mask_eq⟩

end Sized

theorem statusCode_calls (r : HttpResponse) (reply : Reply) :
    (reply.calls.foldl HttpResponse.call r).statusCode = reply.statusCode := by
  have hfields : ∀ (fields : List (Bytes × Bytes)) (r : HttpResponse),
      ((fields.map fun f => ResponseCall.setHeaderField f.1 f.2).foldl HttpResponse.call r).statusCode =
        r.statusCode := by
    intro fields
    induction fields with
    | nil => exact fun _ => rfl
    | cons f fields ih => exact fun r => ih _
  rw [Reply.calls, List.foldl_append, hfields, List.foldl_append]
  rfl

namespace Session
variable {s s' : Session} {N : Nat}

/-- What `worker_process_request` leaves when the response is ready. -/
theorem workerProcessRequest_cases {reply : Reply} (hb : Sized N s.buffer)
    (h : s.workerProcessRequest reply = some s') :
    s'.request = s.request ∧ Sized N s'.buffer ∧ s'.response.statusCode = reply.statusCode ∧
      ∃ version method, s.request.httpVersion = some version ∧ s.request.requestMethod = some method ∧
        s'.connectionClose =
          closesConnection version (s.request.store.getHeaderString headerConnection) ∧
        (s'.state = .closed ∨
          s'.state = if responseHasBody method reply.statusCode then .serverBody else .serverResponse) := by
  obtain ⟨version, hversion, h⟩ := Option.bind_eq_some_iff.mp h
  obtain ⟨method, hmethod, h⟩ := Option.bind_eq_some_iff.mp h
  obtain ⟨p, hp, h⟩ := Option.bind_eq_some_iff.mp h
  obtain rfl := Option.some.inj h
  have hpop : p.response = reply.calls.foldl HttpResponse.call s.response.reset ∧ Sized N p.buffer := by
    unfold populateResponseHeaders at hp
    simp only at hp
    split at hp
    · obtain rfl := Option.some.inj hp
      exact ⟨rfl, (Fresh.reset hb).toSized⟩
    · obtain ⟨b, hpop, rfl⟩ := Option.map_eq_some_iff.mp hp
      exact ⟨rfl, sized_of_populateBuffer hb hpop⟩
  refine ⟨rfl, hpop.2, ?_, version, method, hversion, hmethod, rfl, ?_⟩
  · change p.response.statusCode = _
    rw [hpop.1, statusCode_calls]
  · simp only
    split_ifs <;> simp

/-- What an event that sends a response can do. A request is counted when it leaves the state
for `waiting` or is closed with it. -/
theorem writeResponse_cases {e : BodyEvent} {counted : Bool} (hb : Sized N s.buffer)
    (h : s.writeResponse e = some (s', counted)) :
    s'.request = s.request ∧ s'.response = s.response ∧ s'.connectionClose = s.connectionClose ∧
      ((s'.state = s.state ∧ Sized N s'.buffer ∧ counted = false) ∨ s'.state = .closed ∨
        (s'.state = .waiting ∧ Fresh N s'.buffer)) := by
  obtain ⟨b, hbody, h⟩ := Option.bind_eq_some_iff.mp h
  have hsized := sized_of_handleStateServerBody (N := N) hb hbody
  simp only at h
  split at h <;> obtain ⟨rfl, rfl⟩ := Prod.mk.inj (Option.some.inj h)
  · exact ⟨rfl, rfl, rfl, .inl ⟨rfl, hsized, rfl⟩⟩
  · exact ⟨rfl, rfl, rfl, .inr (.inl rfl)⟩
  · exact ⟨rfl, rfl, rfl, .inr (.inr ⟨rfl, Fresh.reset hsized⟩)⟩
  · exact ⟨rfl, rfl, rfl, .inr (.inl rfl)⟩
  · exact ⟨rfl, rfl, rfl, .inr (.inl rfl)⟩

/-! What each event needs. -/

theorem step_read {socket : ReaderOutcome} {counted : Bool} (h : s.step (.read socket) = some (s', counted)) :
    s.state = .clientRequest ∧ s.readRequest socket = some s' := by
  cases hstate : s.state <;> simp only [step, hstate] at h <;> try cases h
  obtain ⟨t, ht, hpair⟩ := Option.map_eq_some_iff.mp h
  obtain ⟨rfl, -⟩ := Prod.mk.inj hpair
  exact ⟨rfl, ht⟩

theorem step_work {reply : Reply} {counted : Bool} (h : s.step (.work reply) = some (s', counted)) :
    s.state = .working ∧ s.workerProcessRequest reply = some s' := by
  cases hstate : s.state <;> simp only [step, hstate] at h <;> try cases h
  obtain ⟨t, ht, hpair⟩ := Option.map_eq_some_iff.mp h
  obtain ⟨rfl, -⟩ := Prod.mk.inj hpair
  exact ⟨rfl, ht⟩

theorem step_write {e : BodyEvent} {counted : Bool} (h : s.step (.write e) = some (s', counted)) :
    (s.state = .serverResponse ∨ s.state = .serverBody) ∧ s.writeResponse e = some (s', counted) := by
  cases hstate : s.state <;> simp only [step, hstate] at h <;> try cases h
  · exact ⟨.inl rfl, h⟩
  · exact ⟨.inr rfl, h⟩

theorem step_wake {counted : Bool} (h : s.step .wake = some (s', counted)) :
    s.state = .waiting ∧ s' = s.processHeaders := by
  cases hstate : s.state <;> simp only [step, hstate] at h <;> try cases h
  exact ⟨rfl, rfl⟩

end Session
end Latypus.Server
