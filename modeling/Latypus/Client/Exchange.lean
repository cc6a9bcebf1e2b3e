import Latypus.Client.ReadEvents
import Latypus.Client.Requests
import Latypus.Server.Sending

/-! A client and a server on one connection: the requests of the client, one at a time, and the
responses, on a stream in each direction that delivers its bytes in pieces. -/

namespace Latypus.Client
open Lib Io Http Server

/-- Where the client stands with the request at the head of its queue. -/
inductive ClientPhase where
  | processing
  | clientRequest
  | reading
  | closed
deriving DecidableEq, Repr

structure Exchange where
  phase : ClientPhase
  /-- `url_requests` -/
  queue : List ClientRequest
  request : HttpRequest
  conn : ClientConn
  /-- What has been sent and not yet been read, to the server and to the client. -/
  up : Bytes
  down : Bytes
  session : Session
  /-- The requests submitted, the heads that the server has worked on, with its replies, and the files
  of the requests that have ended. -/
  asked : List ClientRequest
  served : List (HeadFields × Reply)
  saved : List (ClientRequest × Option Bytes)

inductive ExchangeEvent where
  | submit (q : ClientRequest)
  | process
  | clientWrite (count : Nat)
  | serverRead (n : Nat)
  | work (reply : Reply)
  | serverWrite (chunk count : Nat)
  | wake
  | clientRead (n m k : Nat)
deriving DecidableEq, Repr

namespace Exchange

/-- `process_next_request`, with a handler that has just been made for the request. -/
def process (s : Exchange) : Option Exchange :=
  match s.phase, s.queue with
  | .processing, q :: _ => do
    let request := q.fill s.request
    let (buffer, length) ← populateRequestHeaders s.conn.buffer request
    let conn : ClientConn := { s.conn with
      state := .serverResponse, buffer, response := s.conn.response.reset, responseHasBody := q.responseHasBody
      contentLength := -1, totalRead := 0, file := some [] }
    some { s with request, conn, phase := if 0 < length then .clientRequest else .closed }
  | _, _ => none

/-- `handle_state_client_request`; of the body of a request nothing is sent. -/
def clientWrite (s : Exchange) (count : Nat) : Option Exchange :=
  if s.phase = .clientRequest then do
    let (buffer, taken, _) ← s.conn.buffer.bufferWrite (.accept count)
    if 0 < buffer.bytesReadable then
      some { s with conn := { s.conn with buffer }, up := s.up ++ taken }
    else
      some { s with conn := { s.conn with buffer := buffer.reset }, up := s.up ++ taken, phase := .reading }
  else none

/-- A request has ended, and with it what is left of `url_requests` is known. -/
def ended (s : Exchange) (conn : ClientConn) (phase : ClientPhase) : Exchange :=
  { s with conn, phase, queue := s.queue.drop (s.queue.length - conn.urlRequests)
           saved := s.saved ++ s.queue.head?.toList.map fun q => (q, conn.file) }

/-- `handle_state_server_response` or `handle_state_server_body`. -/
def clientRead (s : Exchange) (n m k : Nat) : Option Exchange :=
  if s.phase = .reading then do
    let (conn, reads, next) ← { s.conn with urlRequests := s.queue.length }.readEvent s.down n m k
    let s := { s with down := s.down.drop (reads.map IoResult.size).sum.toNat }
    match next with
    | .stay => some { s with conn }
    | .abort => some { s with conn, phase := .closed }
    | .close => some (s.ended conn .closed)
    | .process => some (s.ended conn .processing)
  else none

end Exchange

/-- A connection as `init` and `connect_host` leave it, with the request that it was opened for. -/
def newExchange (client server : ServerConfig) (q : ClientRequest) (clientMem serverMem : Bytes) : Exchange where
  phase := .processing
  queue := [q]
  request := .resize client.headerBufferSize client.maxHeaders
  conn := ⟨.serverResponse, .resize clientMem, .resize client.headerBufferSize client.maxHeaders, false, true,
    -1, 0, none, 1⟩
  up := []
  down := []
  session := server.newSession serverMem
  asked := [q]
  served := []
  saved := []

def exchangeMachine (client server : ServerConfig) (q : ClientRequest) : Machine Exchange ExchangeEvent where
  init s := ∃ clientMem serverMem, clientMem.length = client.ioBufferSize ∧ serverMem.length = server.ioBufferSize ∧
    s = newExchange client server q clientMem serverMem
  step s
    | .submit q => if s.phase ≠ .closed then some { s with queue := s.queue ++ [q], asked := s.asked ++ [q] } else none
    | .process => s.process
    | .clientWrite count => s.clientWrite count
    | .serverRead n => do
      let (session, _) ← s.session.step (.read (.data (s.up.take n)))
      some { s with session, up := s.up.drop ((s.up.take n).take s.session.buffer.bytesToRead).length }
    | .work reply => do
      let (session, _) ← s.session.step (.work reply)
      some { s with session, served := s.served ++ [(headFields s.session.request, reply)] }
    | .serverWrite chunk count => do
      let (session, _) ← s.session.step (.write (.progress chunk count))
      some { s with session, down := s.down ++ s.session.sent (.progress chunk count) }
    | .wake => do
      let (session, _) ← s.session.step .wake
      some { s with session }
    | .clientRead n m k => s.clientRead n m k

/-- The body that a client gets with a reply. -/
def ClientRequest.body (q : ClientRequest) (reply : Reply) : Bytes :=
  if q.responseHasBody then reply.reader.getD [] else []

/-- The reply is a head with a body of the length that it announces, for which there is room on both sides. -/
structure Answers (client server : ServerConfig) (q : ClientRequest) (reply : Reply) (head : ResponseHead) : Prop where
  serialised : (reply.calls.foldl HttpResponse.call (.resize server.headerBufferSize server.maxHeaders)).toBuffer
    server.ioBufferSize = some head.bytes
  body : Server.responseHasBody (getMethodText q.method) reply.statusCode = q.responseHasBody
  keeps : closesConnection head.version (head.fields.lookup headerConnection) = false
  length : q.responseHasBody = true →
    (head.fields.lookup headerContentLength).map strtoll = some ((q.body reply).length : Int)
  buffer : head.bytes.length ≤ client.ioBufferSize
  capacity : 2 * head.bytes.length ≤ client.headerBufferSize
  max : head.fields.length ≤ client.maxHeaders
  small : server.ioBufferSize + 2 * (head.bytes ++ q.body reply).length < 2 ^ 63

/-- Reads and writes make progress, no refill goes over unsent bytes, no read of the client finds an empty socket,
the file takes the whole buffer, requests have room in the buffers and replies are what `Answers` says. -/
def Smooth (client server : ServerConfig) (s : Exchange) : ExchangeEvent → Prop
  | .submit q => Sendable client server q
  | .process | .wake => True
  | .clientWrite count => 0 < count
  | .serverRead n => 0 < n ∧ s.up ≠ []
  | .work reply => ∀ q, s.queue.head? = some q → ∃ head, Answers client server q reply head
  | .serverWrite chunk count => 0 < chunk ∧ 0 < count ∧ RefillFits (s.session.bodyConn []) (.progress chunk count)
  | .clientRead n m k => s.down ≠ [] ∧ 0 < n ∧ 0 < m ∧ client.ioBufferSize ≤ k ∧
    ∀ conn reads next, { s.conn with urlRequests := s.queue.length }.readEvent s.down n m k = some (conn, reads, next) →
      .ofError eagain ∉ reads

/-- The file of a request holds the body of the reply. -/
def Holds (saved : ClientRequest × Option Bytes) (served : HeadFields × Reply) : Prop :=
  saved.2 = some (saved.1.body served.2)

/-- Every request has been worked on once, in order and as the client meant it, every file is the body of the
reply to its request, and the connection is closed when nothing is left to ask. -/
structure InOrder (s : Exchange) : Prop where
  asked_eq : s.saved.map Prod.fst ++ s.queue = s.asked
  understood : List.Forall₂ ClientRequest.Understood (s.asked.take s.served.length) (s.served.map Prod.fst)
  saved : List.Forall₂ Holds s.saved (s.served.take s.saved.length)
  closed : s.phase = .closed → s.queue = []

/-! ### The invariant -/

section Invariant
variable (client server : ServerConfig)

/-- The response of a client before the first byte. -/
def freshResponse : HttpResponse := .resize client.headerBufferSize client.maxHeaders

/-- The connection of a client that waits for the response to `q`. -/
structure Awaits (q : ClientRequest) (response : HttpResponse) (c : ClientConn) : Prop where
  state : c.state = .serverResponse
  file : c.file = some []
  hasBody : c.responseHasBody = q.responseHasBody
  sizes : SameSizes (freshResponse client) response
  response_eq : c.response = response.reset

/-- Where the two parties are with the request at the head of the queue. -/
inductive Stage (s : Exchange) : Prop
  | processing {q : ClientRequest} (phase : s.phase = .processing) (queue : s.queue.head? = some q)
    (sized : Sized client.ioBufferSize s.conn.buffer) (sizes : SameSizes (freshResponse client) s.conn.response)
    (listens : s.session.Listens server []) (up : s.up = []) (down : s.down = [])
    (served : s.served.length = s.saved.length)
  | requesting {q : ClientRequest} {response : HttpResponse} {a : Nat} {t : Bytes} (phase : s.phase = .clientRequest)
    (queue : s.queue.head? = some q) (filled : Filled client.ioBufferSize a q.text.length s.conn.buffer)
    (mem : s.conn.buffer.buffer.take q.text.length = q.text) (lt : a < q.text.length)
    (awaits : Awaits client q response s.conn) (listens : s.session.Listens server t)
    (up : t ++ s.up = q.text.take a) (down : s.down = []) (served : s.served.length = s.saved.length)
  | sent {q : ClientRequest} {response : HttpResponse} {t : Bytes} (phase : s.phase = .reading)
    (queue : s.queue.head? = some q) (fresh : Fresh client.ioBufferSize s.conn.buffer)
    (awaits : Awaits client q response s.conn) (listens : s.session.Listens server t) (lt : t.length < q.text.length)
    (up : t ++ s.up = q.text) (down : s.down = []) (served : s.served.length = s.saved.length)
  | working {q : ClientRequest} {response : HttpResponse} (phase : s.phase = .reading) (queue : s.queue.head? = some q)
    (fresh : Fresh client.ioBufferSize s.conn.buffer) (awaits : Awaits client q response s.conn)
    (works : s.session.Works server q.requestText) (up : s.up = []) (down : s.down = [])
    (served : s.served.length = s.saved.length)
  | answering {q : ClientRequest} {response : HttpResponse} {head : ResponseHead} {f : HeadFields} {reply : Reply}
    {r : Bytes} {got : Nat} (phase : s.phase = .reading) (queue : s.queue.head? = some q)
    (last : s.served.getLast? = some (f, reply)) (answers : Answers client server q reply head)
    (sizes : SameSizes (freshResponse client) response)
    (reads : ClientConn.Reads client.ioBufferSize response head (q.body reply) r s.conn) (up : s.up = [])
    (down : r ++ s.down = (head.bytes ++ q.body reply).take got)
    (replies : s.session.Replies server (head.bytes ++ q.body reply) got)
    (served : s.served.length = s.saved.length + 1)
  | closed (phase : s.phase = .closed) (queue : s.queue = []) (listens : s.session.Listens server []) (up : s.up = [])
    (down : s.down = []) (served : s.served.length = s.saved.length)

structure Synchronised (s : Exchange) : Prop where
  stage : Stage client server s
  sendable : ∀ q ∈ s.queue, Sendable client server q
  request : s.request.store.capacity = client.headerBufferSize ∧ s.request.store.maxHeaders = client.maxHeaders
  reset_eq : s.session.response.reset = .resize server.headerBufferSize server.maxHeaders
  asked_eq : s.saved.map Prod.fst ++ s.queue = s.asked
  understood : List.Forall₂ ClientRequest.Understood (s.asked.take s.served.length) (s.served.map Prod.fst)
  saved : List.Forall₂ Holds s.saved (s.served.take s.saved.length)

end Invariant

section Steps
variable {client server : ServerConfig} {s s' : Exchange}

theorem append_drop_of_prefix {d w : Bytes} (h : d <+: w) : d ++ w.drop d.length = w := by
  obtain ⟨rest, rfl⟩ := h
  rw [List.drop_left]

theorem Answers.headFits {q : ClientRequest} {reply : Reply} {head : ResponseHead} {response : HttpResponse}
    (h : Answers client server q reply head) (sizes : SameSizes (freshResponse client) response) :
    HeadFits client.ioBufferSize response head :=
  ⟨h.buffer, sizes.1.symm ▸ h.capacity, sizes.2.symm ▸ h.max⟩

/-- A step that starts and ends no request. -/
theorem Synchronised.move (h : Synchronised client server s) (hstage : Stage client server s')
    (hqueue : s'.queue = s.queue) (hasked : s'.asked = s.asked) (hserved : s'.served = s.served)
    (hsaved : s'.saved = s.saved)
    (hrequest : s'.request.store.capacity = s.request.store.capacity ∧
      s'.request.store.maxHeaders = s.request.store.maxHeaders)
    (hreset : s'.session.response.reset = s.session.response.reset) : Synchronised client server s' := by
  refine ⟨hstage, ?_, ?_, hreset.trans h.reset_eq, ?_, ?_, ?_⟩
  · rw [hqueue]
    exact h.sendable
  · rw [hrequest.1, hrequest.2]
    exact h.request
  · rw [hsaved, hqueue, hasked]
    exact h.asked_eq
  · rw [hasked, hserved]
    exact h.understood
  · rw [hsaved, hserved]
    exact h.saved

theorem Synchronised.inOrder (h : Synchronised client server s) : InOrder s := by
  refine ⟨h.asked_eq, h.understood, h.saved, fun hclosed => ?_⟩
  cases h.stage with
  | closed _ queue => exact queue
  | processing phase | requesting phase | sent phase | working phase | answering phase =>
    cases phase.symm.trans hclosed

/-- A request that is submitted goes to the end of the queue. -/
theorem Synchronised.submit (h : Synchronised client server s) {q : ClientRequest} (hq : Sendable client server q)
    (hopen : s.phase ≠ .closed) :
    Synchronised client server { s with queue := s.queue ++ [q], asked := s.asked ++ [q] } := by
  have hhead {p : ClientRequest} (hp : s.queue.head? = some p) : (s.queue ++ [q]).head? = some p := by
    rw [List.head?_append, hp, Option.some_or]
  have hlen : s.served.length ≤ s.asked.length := by
    have := h.understood.length_eq
    simp at this
    omega
  refine ⟨?_, ?_, h.request, h.reset_eq, ?_, ?_, h.saved⟩
  · cases h.stage with
    | processing phase queue => exact .processing phase (hhead queue) ‹_› ‹_› ‹_› ‹_› ‹_› ‹_›
    | requesting phase queue => exact .requesting phase (hhead queue) ‹_› ‹_› ‹_› ‹_› ‹_› ‹_› ‹_› ‹_›
    | sent phase queue => exact .sent phase (hhead queue) ‹_› ‹_› ‹_› ‹_› ‹_› ‹_› ‹_›
    | working phase queue => exact .working phase (hhead queue) ‹_› ‹_› ‹_› ‹_› ‹_› ‹_›
    | answering phase queue => exact .answering phase (hhead queue) ‹_› ‹_› ‹_› ‹_› ‹_› ‹_› ‹_› ‹_›
    | closed phase => exact absurd phase hopen
  · intro p hp
    obtain hp | hp := List.mem_append.mp hp
    · exact h.sendable p hp
    · exact List.mem_singleton.mp hp ▸ hq
  · rw [← List.append_assoc, h.asked_eq]
  · rw [List.take_append_of_le_length hlen]
    exact h.understood

/-- `process_next_request` puts the request in the buffer. -/
theorem Synchronised.process_eq (h : Synchronised client server s) {q : ClientRequest} (hphase : s.phase = .processing)
    (hqueue : s.queue.head? = some q) :
    ∃ buffer, Filled client.ioBufferSize 0 q.text.length buffer ∧ buffer.buffer.take q.text.length = q.text ∧
      0 < q.text.length ∧ SameSizes (freshResponse client) s.conn.response ∧
      s.process = some { s with
        request := q.fill s.request
        phase := .clientRequest
        conn := { s.conn with
          state := .serverResponse, buffer, response := s.conn.response.reset, responseHasBody := q.responseHasBody
          contentLength := -1, totalRead := 0, file := some [] } } := by
  cases h.stage with
  | requesting phase | sent phase | working phase | answering phase | closed phase => cases phase.symm.trans hphase
  | processing _ _ sized sizes =>
    obtain ⟨rest, hrest⟩ := List.head?_eq_some_iff.mp hqueue
    have hq := h.sendable q (List.mem_of_mem_head? hqueue)
    have htext := toBuffer_fill (q := q) (r := s.request) (h.request.1 ▸ hq.space) (h.request.2 ▸ hq.clientMax)
      hq.clientFits
    obtain ⟨b, hpopulate, hfilled, hmem⟩ := populateRequestHeaders_of_toBuffer sized htext hq.clientFits
    have hne : q.text ≠ [] := hq.wellFormed.head_ne_nil
    have hpos := List.length_pos_of_ne_nil hne
    have hlength : (0 : Int) < q.text.length := by omega
    refine ⟨b, hfilled, hmem, hpos, sizes, ?_⟩
    simp only [Exchange.process, hphase, hrest, hpopulate, Option.bind_eq_bind, Option.bind_some, if_pos hlength]

theorem process_of_some (hstep : s.process = some s') : s.phase = .processing ∧ ∃ q, s.queue.head? = some q := by
  unfold Exchange.process at hstep
  split at hstep
  · rename_i q rest hphase hqueue
    exact ⟨hphase, q, by rw [hqueue]; rfl⟩
  · cases hstep

theorem Synchronised.process (h : Synchronised client server s) (hstep : s.process = some s') :
    Synchronised client server s' := by
  obtain ⟨hphase, q, hqueue⟩ := process_of_some hstep
  obtain ⟨buffer, hfilled, hmem, hpos, sizes, hprocess⟩ := h.process_eq hphase hqueue
  obtain rfl := Option.some.inj (hprocess.symm.trans hstep)
  cases h.stage with
  | requesting phase | sent phase | working phase | answering phase | closed phase => cases phase.symm.trans hphase
  | processing _ _ _ _ listens up down served =>
    refine h.move (.requesting rfl hqueue hfilled hmem hpos ⟨rfl, rfl, rfl, sizes, rfl⟩ listens ?_ down served)
      rfl rfl rfl rfl (store_fill q s.request) rfl
    rw [List.take_zero]
    exact up

/-- The socket takes some of the request. -/
theorem clientWrite_eq {q : ClientRequest} {a : Nat} (hphase : s.phase = .clientRequest)
    (filled : Filled client.ioBufferSize a q.text.length s.conn.buffer)
    (mem : s.conn.buffer.buffer.take q.text.length = q.text) (lt : a < q.text.length)
    (hfits : q.text.length < client.ioBufferSize) (count : Nat) :
    ∃ buffer taken, taken.length = min count (q.text.length - a) ∧ taken = (q.text.drop a).take taken.length ∧
      Filled client.ioBufferSize (a + taken.length) q.text.length buffer ∧
      buffer.buffer.take q.text.length = q.text ∧
      s.clientWrite count = some (if a + taken.length < q.text.length then
          { s with conn := { s.conn with buffer }, up := s.up ++ taken }
        else { s with conn := { s.conn with buffer := buffer.reset }, up := s.up ++ taken, phase := .reading }) := by
  obtain ⟨offered, hload, hwrite⟩ := filled.bufferWrite (.accept count) lt
  obtain ⟨-, hoffered⟩ := load_eq_some.mp hload
  have hoffered' : offered = q.text.drop a := by
    rw [hoffered, Nat.mod_eq_of_lt (by omega), min_eq_right (by omega), ← List.drop_take, mem]
  set taken := (WriterOutcome.accept count).taken offered with htaken
  have hlen : taken.length = min count (q.text.length - a) := by
    rw [htaken, WriterOutcome.taken, hoffered', List.length_take, List.length_drop]
  have htake : (q.text.drop a).take taken.length = taken := by
    rw [hlen, htaken, WriterOutcome.taken, hoffered', ← List.take_take, List.take_of_length_le (i := q.text.length - a)]
    simp
  have hfilled := filled.bufferWrite_filled (n := taken.length) (by omega)
  refine ⟨_, taken, hlen, htake.symm, hfilled, mem, ?_⟩
  simp only [Exchange.clientWrite, hphase, if_true, hwrite, Option.bind_eq_bind, Option.bind_some,
    hfilled.bytesReadable,
    Nat.sub_pos_iff_lt]
  split_ifs <;> rfl

theorem clientWrite_of_some {count : Nat} (hstep : s.clientWrite count = some s') : s.phase = .clientRequest := by
  by_contra hphase
  rw [Exchange.clientWrite, if_neg hphase] at hstep
  cases hstep

theorem Synchronised.clientWrite (h : Synchronised client server s) {count : Nat}
    (hstep : s.clientWrite count = some s') : Synchronised client server s' := by
  have hphase := clientWrite_of_some hstep
  cases h.stage with
  | processing phase | sent phase | working phase | answering phase | closed phase => cases phase.symm.trans hphase
  | @requesting q response a t _ queue filled mem lt awaits listens up down served =>
    have hfits := (h.sendable q (List.mem_of_mem_head? queue)).clientFits
    obtain ⟨buffer, taken, hlen, htaken, hfilled, hmem, hwrite⟩ := clientWrite_eq hphase filled mem lt hfits count
    have hup : t ++ (s.up ++ taken) = q.text.take (a + taken.length) := by
      rw [← List.append_assoc, up, List.take_add, ← htaken]
    rw [hwrite] at hstep
    obtain rfl := Option.some.inj hstep
    split_ifs with hmore
    · exact h.move (.requesting hphase queue hfilled hmem hmore ⟨awaits.state, awaits.file, awaits.hasBody,
        awaits.sizes,
        awaits.response_eq⟩ listens hup down served) rfl rfl rfl rfl ⟨rfl, rfl⟩ rfl
    · have hall : a + taken.length = q.text.length := by omega
      rw [hall, List.take_length] at hup
      have hlt : t.length < q.text.length := by
        have hlength := congrArg List.length up
        rw [List.length_append, List.length_take] at hlength
        omega
      exact h.move (.sent rfl queue (Fresh.reset hfilled.toSized) ⟨awaits.state, awaits.file, awaits.hasBody,
        awaits.sizes,
        awaits.response_eq⟩ listens hlt hup down served) rfl rfl rfl rfl ⟨rfl, rfl⟩ rfl

/-- The server reads on in the request, or to its end. -/
theorem Synchronised.serverRead (h : Synchronised client server s) {n : Nat} (hn : 0 < n) (hup : s.up ≠ [])
    {session : Session} {counted : Bool}
    (hstep : s.session.step (.read (.data (s.up.take n))) = some (session, counted)) :
    Synchronised client server { s with
      session, up := s.up.drop ((s.up.take n).take s.session.buffer.bytesToRead).length } := by
  have hreset := congrArg HttpResponse.reset (Session.response_step hstep (by simp))
  cases h.stage with
  | processing _ _ _ _ _ up | working _ _ _ _ _ up | answering _ _ _ _ _ _ up | closed _ _ _ up => exact absurd up hup
  | @requesting q response a t phase queue filled mem lt awaits listens up down served =>
    have hq := h.sendable q (List.mem_of_mem_head? queue)
    have hpre : t ++ s.up <+: q.text := up ▸ List.take_prefix _ _
    obtain ⟨hdup, -, ⟨-, hlistens⟩ | ⟨hall, -⟩⟩ :=
      listens.read hq.wellFormed hq.accepted rfl hpre hn hup hstep
    · refine h.move (.requesting phase queue filled mem lt awaits hlistens ?_ down served) rfl rfl rfl rfl ⟨rfl, rfl⟩
        hreset
      rw [List.append_assoc, append_drop_of_prefix hdup, up]
    · have hlen := congrArg List.length up
      have hlen' : (t ++ (s.up.take n).take s.session.buffer.bytesToRead).length = q.text.length :=
        congrArg List.length hall
      have hle := hdup.length_le
      simp only [List.length_append, List.length_take] at hlen hlen' hle
      omega
  | @sent q response t phase queue fresh awaits listens lt up down served =>
    have hq := h.sendable q (List.mem_of_mem_head? queue)
    have hpre : t ++ s.up <+: q.text := up ▸ List.prefix_refl _
    obtain ⟨hdup, -, ⟨hlt, hlistens⟩ | ⟨hall, hworks⟩⟩ :=
      listens.read hq.wellFormed hq.accepted rfl hpre hn hup hstep
    · refine h.move (.sent phase queue fresh awaits hlistens hlt ?_ down served) rfl rfl rfl rfl ⟨rfl, rfl⟩
        hreset
      rw [List.append_assoc, append_drop_of_prefix hdup, up]
    · refine h.move (.working phase queue fresh awaits hworks ?_ down served) rfl rfl rfl rfl ⟨rfl, rfl⟩
        hreset
      have hwhole : t ++ s.up = t ++ (s.up.take n).take s.session.buffer.bytesToRead := up.trans hall.symm
      rw [← List.append_cancel_left hwhole, List.drop_length]

/-- The worker can answer. -/
theorem Synchronised.worker_works (h : Synchronised client server s) {q : ClientRequest} (hq : Sendable client server q)
    (works : s.session.Works server q.requestText) {reply : Reply} {head : ResponseHead}
    (hhead : Answers client server q reply head) :
    ∃ session, s.session.workerProcessRequest reply = some session ∧
      session.Sends server.ioBufferSize (head.bytes ++ q.body reply) 0 head.bytes.length ∧
      session.request = s.session.request ∧ session.response.reset = s.session.response.reset := by
  have hunderstood := hq.understood
  rw [← works.fields] at hunderstood
  have hmethod : s.session.request.requestMethod = some (getMethodText q.method) := hunderstood.method
  obtain ⟨version, hversion, hkeeps⟩ := works.keeps
  have htext : Session.responseText (getMethodText q.method) reply head.bytes = head.bytes ++ q.body reply := by
    rw [Session.responseText, hhead.body]
    rfl
  rw [← htext]
  refine Session.workerProcessRequest_sends works.sized hversion hmethod hkeeps ?_ head.bytes_ne_nil ?_
  · rw [h.reset_eq]
    exact hhead.serialised
  · rw [htext]
    exact hhead.small

/-- A worker works on the request at the head of the queue. -/
theorem Synchronised.working (h : Synchronised client server s) (hstate : s.session.state = .working) :
    ∃ q, s.queue.head? = some q ∧ s.session.Works server q.requestText ∧ s.served.length = s.saved.length := by
  cases h.stage with
  | processing _ _ _ _ listens | requesting _ _ _ _ _ _ listens | sent _ _ _ _ listens | closed _ _ listens =>
    exact absurd hstate listens.not_working
  | answering _ _ _ _ _ _ _ _ replies => exact absurd hstate replies.not_working
  | working _ queue _ _ works _ _ served => exact ⟨_, queue, works, served⟩

/-- The request at the head of the queue is the next to be served. -/
theorem Synchronised.take_asked (h : Synchronised client server s) {q : ClientRequest} (queue : s.queue.head? = some q)
    (served : s.served.length = s.saved.length) :
    s.asked.take (s.served.length + 1) = s.asked.take s.served.length ++ [q] := by
  have hlen : (s.saved.map Prod.fst).length = s.served.length := by rw [List.length_map, served]
  rw [← h.asked_eq, List.take_add_one, List.getElem?_append_right hlen.le, hlen, Nat.sub_self,
    ← List.head?_eq_getElem?, queue]
  rfl

/-- The worker answers the request at the head of the queue. -/
theorem Synchronised.work (h : Synchronised client server s) {reply : Reply}
    (hanswers : ∀ q, s.queue.head? = some q → ∃ head, Answers client server q reply head)
    {session : Session} {counted : Bool} (hstep : s.session.step (.work reply) = some (session, counted)) :
    Synchronised client server { s with session, served := s.served ++ [(headFields s.session.request, reply)] } := by
  obtain ⟨hstate, hwork⟩ := Session.step_work hstep
  cases h.stage with
  | processing _ _ _ _ listens | requesting _ _ _ _ _ _ listens | sent _ _ _ _ listens | closed _ _ listens =>
    exact absurd hstate listens.not_working
  | answering _ _ _ _ _ _ _ _ replies => exact absurd hstate replies.not_working
  | @working q response phase queue fresh awaits works up down served =>
    obtain ⟨head, hhead⟩ := hanswers q queue
    have hq := h.sendable q (List.mem_of_mem_head? queue)
    have hunderstood := hq.understood
    rw [← works.fields] at hunderstood
    obtain ⟨session', hwork', hsends, hrequest, hreset⟩ := h.worker_works hq works hhead
    obtain rfl : session' = session := Option.some.inj (hwork'.symm.trans hwork)
    have hreads : ClientConn.Reads client.ioBufferSize response head (q.body reply) [] s.conn := by
      refine .head awaits.state (List.length_pos_of_ne_nil head.bytes_ne_nil) List.nil_prefix ?_ awaits.file ?_ ?_
      · rw [awaits.response_eq]
        exact receivedHead_nil fresh
      · intro hbody
        rw [awaits.hasBody] at hbody
        simp [ClientRequest.body, hbody]
      · intro hbody
        rw [awaits.hasBody] at hbody
        exact ⟨hhead.keeps, hhead.length hbody⟩
    have hnext := h.take_asked queue served
    refine ⟨.answering phase queue List.getLast?_concat hhead awaits.sizes hreads up ?_ (.inl ⟨_, hsends, ?_⟩)
      (by simp [served]),
      h.sendable, h.request, hreset.trans h.reset_eq, h.asked_eq, ?_, ?_⟩
    · rw [List.nil_append, List.take_zero]
      exact down
    · rw [hrequest]
      exact works.reset_eq
    · rw [List.length_append, List.length_singleton, hnext, List.map_append]
      exact List.rel_append h.understood (.cons hunderstood .nil)
    · have hsaved := h.saved
      rw [← served, List.take_length] at hsaved
      simp only [← served, List.take_left]
      exact hsaved

/-- The server does something, and sends some bytes, but has not read or worked. -/
theorem Stage.withSession (h : Stage client server s) {session : Session} {sent : Bytes}
    (hstate : s.session.state ≠ .working)
    (hlistens : ∀ t, s.session.Listens server t → session.Listens server t ∧ sent = [])
    (hreplies : ∀ response got, server.ioBufferSize + 2 * response.length < 2 ^ 63 →
      s.session.Replies server response got →
        ∃ got', session.Replies server response got' ∧ response.take got ++ sent = response.take got') :
    Stage client server { s with session, down := s.down ++ sent } := by
  cases h with
  | processing phase queue sized sizes listens up down served =>
    obtain ⟨hlistens', rfl⟩ := hlistens _ listens
    exact .processing phase queue sized sizes hlistens' up ((List.append_nil _).trans down) served
  | requesting phase queue filled mem lt awaits listens up down served =>
    obtain ⟨hlistens', rfl⟩ := hlistens _ listens
    exact .requesting phase queue filled mem lt awaits hlistens' up ((List.append_nil _).trans down) served
  | sent phase queue fresh awaits listens lt up down served =>
    obtain ⟨hlistens', rfl⟩ := hlistens _ listens
    exact .sent phase queue fresh awaits hlistens' lt up ((List.append_nil _).trans down) served
  | working _ _ _ _ works => exact absurd works.state hstate
  | answering phase queue last answers sizes reads up down replies served =>
    obtain ⟨got', hreplies', hsent⟩ := hreplies _ _ answers.small replies
    refine .answering phase queue last answers sizes reads up ?_ hreplies' served
    rw [← List.append_assoc, down, hsent]
  | closed phase queue listens up down served =>
    obtain ⟨hlistens', rfl⟩ := hlistens _ listens
    exact .closed phase queue hlistens' up ((List.append_nil _).trans down) served

/-- What the server sends is what it has to send next. -/
theorem Synchronised.serverWrite (h : Synchronised client server s) {chunk count : Nat} (hchunk : 0 < chunk)
    (hcount : 0 < count) (hfit : RefillFits (s.session.bodyConn []) (.progress chunk count))
    {session : Session} {counted : Bool}
    (hstep : s.session.step (.write (.progress chunk count)) = some (session, counted)) :
    Synchronised client server { s with session, down := s.down ++ s.session.sent (.progress chunk count) } := by
  have hreset := congrArg HttpResponse.reset (Session.response_step hstep (by simp))
  have hstate : s.session.state ≠ .working := by
    obtain ⟨hstate, -⟩ := Session.step_write hstep
    rcases hstate with hstate | hstate <;> simp [hstate]
  refine h.move (h.stage.withSession hstate ?_ ?_) rfl rfl rfl rfl ⟨rfl, rfl⟩ hreset
  · exact fun t hlistens => hlistens.write hchunk hcount hfit hstep
  · exact fun response got hsmall hreplies => hreplies.write hsmall hchunk hcount hfit hstep

theorem Synchronised.wake (h : Synchronised client server s) {session : Session} {counted : Bool}
    (hstep : s.session.step .wake = some (session, counted)) : Synchronised client server { s with session } := by
  have hreset := congrArg HttpResponse.reset (Session.response_step hstep (by simp))
  have hstate : s.session.state ≠ .working := by
    obtain ⟨hstate, -⟩ := Session.step_wake hstep
    simp [hstate]
  have hstage : Stage client server { s with session, down := s.down ++ [] } := h.stage.withSession hstate
    (fun t hlistens => ⟨hlistens.wake hstep, rfl⟩)
    (fun response got _ hreplies => ⟨got, hreplies.wake hstep, List.append_nil _⟩)
  rw [List.append_nil] at hstage
  exact h.move hstage rfl rfl rfl rfl ⟨rfl, rfl⟩ hreset

/-- A request ends with its file complete. -/
theorem Synchronised.ended (h : Synchronised client server s) {q : ClientRequest} {rest : List ClientRequest}
    {init : List (HeadFields × Reply)} {f : HeadFields} {reply : Reply} {response : HttpResponse} {conn : ClientConn}
    (hqueue : s.queue = q :: rest) (hserved : s.served = init ++ [(f, reply)]) (hlen : init.length = s.saved.length)
    (hsizes : SameSizes (freshResponse client) response) (hup : s.up = [])
    (hlistens : s.session.Listens server [])
    (hdone : ClientConn.ReadAll client.ioBufferSize response (q.body reply) conn)
    (hrequests : conn.urlRequests = rest.length) :
    Synchronised client server ({ s with down := [] }.ended conn
      (if 0 < rest.length then .processing else .closed)) := by
  have hrest : (s.queue.drop (s.queue.length - conn.urlRequests)) = rest := by
    rw [hqueue, hrequests, List.length_cons, Nat.add_sub_cancel_left]
    rfl
  have hhead : s.queue.head?.toList.map (fun q => (q, conn.file)) = [(q, conn.file)] := by rw [hqueue]; rfl
  have hcount : s.served.length = (s.saved ++ [(q, conn.file)]).length := by simp [hserved, hlen]
  simp only [Exchange.ended, hrest, hhead]
  refine ⟨?_, ?_, h.request, h.reset_eq, ?_, h.understood, ?_⟩
  · cases rest with
    | nil => exact .closed rfl rfl hlistens hup rfl hcount
    | cons q' rest =>
      have hsame : SameSizes (freshResponse client) conn.response :=
        ⟨hdone.sizes.1.trans hsizes.1, hdone.sizes.2.trans hsizes.2⟩
      exact .processing (q := q') rfl rfl hdone.sized hsame hlistens hup rfl hcount
  · exact fun p hp => h.sendable p (hqueue ▸ List.mem_cons_of_mem q hp)
  · rw [← h.asked_eq, hqueue, List.map_append, List.append_assoc]
    rfl
  · have hsaved := h.saved
    rw [hserved, ← hlen, List.take_left] at hsaved
    rw [← hcount, List.take_length, hserved]
    exact List.rel_append hsaved (.cons hdone.file .nil)

/-- The client reads on in the response, or to its end. -/
theorem Synchronised.clientRead (h : Synchronised client server s) {n m k : Nat}
    (hsmooth : Smooth client server s (.clientRead n m k)) (hstep : s.clientRead n m k = some s') :
    Synchronised client server s' ∧ s'.asked = s.asked ∧ s'.served = s.served ∧
      (s'.saved.length = s.saved.length + 1 ∨
        s.phase = .reading ∧ ∃ conn δ, 0 < δ ∧ δ ≤ s.down.length ∧ s' = { s with conn, down := s.down.drop δ }) := by
  obtain ⟨hdown, hn, hm, hk, hcalm⟩ := hsmooth
  unfold Exchange.clientRead at hstep
  by_cases hphase : s.phase = .reading
  swap
  · rw [if_neg hphase] at hstep
    cases hstep
  rw [if_pos hphase] at hstep
  cases h.stage with
  | processing phase | requesting phase | closed phase => cases phase.symm.trans hphase
  | sent _ _ _ _ _ _ _ down | working _ _ _ _ _ _ down => exact absurd down hdown
  | @answering q response head f reply r got _ queue last answers sizes reads up down replies served =>
  have hreads := reads.withRequests s.queue.length
  have hfits := answers.headFits sizes
  have hpre : r ++ s.down <+: head.bytes ++ q.body reply := down ▸ List.take_prefix _ _
  obtain ⟨conn, ios, next, δ, hevent, hsum, -, hpos, hle, hread⟩ :=
    hreads.step hfits answers.keeps hpre hdown hn hm hk (hreads.findsBody hfits hdown hn hcalm)
  simp only [hevent, hsum, Int.toNat_natCast, Option.bind_eq_bind, Option.bind_some] at hstep
  cases hread with
  | more hmore =>
    obtain rfl := Option.some.inj hstep
    refine ⟨?_, rfl, rfl, .inr ⟨hphase, conn, δ, hpos, hle, rfl⟩⟩
    refine h.move (.answering hphase queue last answers sizes hmore up ?_ replies served) rfl rfl rfl rfl ⟨rfl, rfl⟩ rfl
    rw [List.append_assoc, List.take_append_drop, down]
  | @ends c hall hdone hrequests =>
    -- everything has been read
    have hout : s.down.drop δ = [] ∧ (head.bytes ++ q.body reply).length ≤ got := by
      have hlength := congrArg List.length down
      have hlength' := congrArg List.length hall
      simp only [List.length_append, List.length_take] at hlength hlength' ⊢
      exact ⟨List.drop_eq_nil_of_le (by omega), by omega⟩
    obtain ⟨rest, hrest⟩ : ∃ rest, s.queue = q :: rest := List.head?_eq_some_iff.mp queue
    obtain ⟨init, hinit⟩ : ∃ init, s.served = init ++ [(f, reply)] := List.getLast?_eq_some_iff.mp last
    have hlen : init.length = s.saved.length := by
      rw [hinit, List.length_append] at served
      simpa using served
    have hend : c.endRequest =
        ({ c with urlRequests := rest.length }, if 0 < rest.length then .process else .close) := by
      have hurl : c.urlRequests - 1 = rest.length := by simp [hrequests, hrest]
      simp only [ClientConn.endRequest, hdone.keeps, Bool.false_eq_true, if_false, hurl]
    have hread : ClientConn.ReadAll client.ioBufferSize response (q.body reply) { c with urlRequests := rest.length } :=
      ⟨hdone.sized, hdone.sizes, hdone.file, hdone.keeps⟩
    have hended := h.ended hrest hinit hlen sizes up (replies.listens answers.small hout.2) hread rfl
    rw [hend, hout.1] at hstep
    have hsaved (c : ClientConn) (phase : ClientPhase) :
        (Exchange.ended { s with down := [] } c phase).saved.length = s.saved.length + 1 := by
      simp [Exchange.ended, queue]
    split_ifs at hstep hended with hmore <;> obtain rfl := Option.some.inj hstep <;>
      exact ⟨hended, rfl, rfl, .inl (hsaved _ _)⟩

theorem Synchronised.step {q : ClientRequest} (h : Synchronised client server s) {e : ExchangeEvent}
    (hsmooth : Smooth client server s e) (hstep : (exchangeMachine client server q).step s e = some s') :
    Synchronised client server s' := by
  match e with
  | .submit q =>
    simp only [exchangeMachine] at hstep
    split_ifs at hstep with hopen
    obtain rfl := Option.some.inj hstep
    exact h.submit hsmooth hopen
  | .process => exact h.process hstep
  | .clientWrite count => exact h.clientWrite hstep
  | .clientRead n m k => exact (h.clientRead hsmooth hstep).1
  | .serverRead n =>
    obtain ⟨⟨session, counted⟩, hsession, hstep⟩ := Option.bind_eq_some_iff.mp hstep
    obtain rfl := Option.some.inj hstep
    exact h.serverRead hsmooth.1 hsmooth.2 hsession
  | .work reply =>
    obtain ⟨⟨session, counted⟩, hsession, hstep⟩ := Option.bind_eq_some_iff.mp hstep
    obtain rfl := Option.some.inj hstep
    exact h.work hsmooth hsession
  | .serverWrite chunk count =>
    obtain ⟨⟨session, counted⟩, hsession, hstep⟩ := Option.bind_eq_some_iff.mp hstep
    obtain rfl := Option.some.inj hstep
    exact h.serverWrite hsmooth.1 hsmooth.2.1 hsmooth.2.2 hsession
  | .wake =>
    obtain ⟨⟨session, counted⟩, hsession, hstep⟩ := Option.bind_eq_some_iff.mp hstep
    obtain rfl := Option.some.inj hstep
    exact h.wake hsession

end Steps

end Latypus.Client
