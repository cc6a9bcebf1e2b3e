import Latypus.Client.ResponseBody
import Latypus.Lib.Machine
import Latypus.Server.HeaderOverflow

/-! The end of the stream in the states that wait for the other side to send. Only a server
that has nothing of a request yet takes it for the end: everywhere else the connection stays in
the pollset, where the next event finds the end of the stream again. -/

namespace Latypus.Http

theorem HttpRequest.parse_nil (r : HttpRequest) (mem : Bytes) (buf : Nat) : r.parse mem buf 0 = r := by
  simp [parse, HttpParser.parse]

theorem HttpResponse.parse_nil (r : HttpResponse) (mem : Bytes) (buf : Nat) :
    r.parse mem buf 0 = r := by
  simp [parse, HttpParser.parse]

end Latypus.Http

namespace Latypus.Server
open Lib Io Http

/-- `handle_state_lingering_close`, with what the read of the socket returned. -/
def handleStateLingeringClose (b : IoRingBuffer) (socket : ReaderOutcome) :
    Option (IoRingBuffer × List IoResult × Next) := do
  let (b, result) ← b.reset.bufferRead socket
  return (b, [result], if result.hasError then .close else .stay)

/-- A server connection stays exactly when its head does. -/
theorem clientRequestEvent_stay {c c' : HeadConn HttpRequest} {socket : ReaderOutcome} {next : Next}
    (h : clientRequestEvent c socket = some (c', next)) :
    ∃ c₁ call headNext, handleStateClientRequest c socket = some (c₁, call, headNext) ∧
      (next = .stay ↔ headNext = .stay) ∧ (headNext = .stay → c' = c₁) := by
  obtain ⟨⟨c₁, call, headNext⟩, hread, h⟩ := Option.bind_eq_some_iff.mp h
  refine ⟨c₁, call, headNext, hread, ?_⟩
  cases headNext with
  | finished =>
    obtain ⟨⟨request, ok⟩, -, h⟩ := Option.bind_eq_some_iff.mp h
    obtain ⟨-, rfl⟩ : _ = c' ∧ _ = next := by simpa using h
    cases ok <;> simp
  | stay | bufferFull | readException | eof | parseError =>
    obtain ⟨rfl, rfl⟩ := Prod.mk.inj (Option.some.inj h)
    simp

theorem clientRequestEvent_defined {c c₁ : HeadConn HttpRequest} {socket : ReaderOutcome}
    {call : Option ParseCall} {headNext : HeadNext} (hne : headNext ≠ .finished)
    (h : handleStateClientRequest c socket = some (c₁, call, headNext)) :
    ∃ next, clientRequestEvent c socket = some (c₁, next) := by
  rw [clientRequestEvent, h]
  cases headNext with
  | finished => exact absurd rfl hne
  | stay | bufferFull | readException | eof | parseError => exact ⟨_, rfl⟩

end Latypus.Server

namespace Latypus.Client
open Lib Io Http Server

namespace ClientConn
variable {c c' : ClientConn} {socket again : ReaderOutcome} {write : WriterOutcome}
  {reads : List IoResult} {next : ClientNext} {N : Nat}

theorem endRequest_ne_stay (c : ClientConn) : c.endRequest.2 ≠ .stay := by
  unfold endRequest
  split_ifs
  · simp
  · simp only
    split_ifs <;> simp

theorem handleStateServerBody_filled (hfilled : ∃ k, Filled N 0 k c.buffer)
    (h : c.handleStateServerBody socket write = some (c', reads, .stay)) :
    (∃ k, Filled N 0 k c'.buffer) := by
  obtain ⟨⟨c₁, reads₁, result⟩, hread, h⟩ := Option.bind_eq_some_iff.mp h
  simp only [Option.pure_def] at h
  split_ifs at h with herr hzero
  · simp at h
  · simp [c₁.endRequest_ne_stay] at h
  · obtain ⟨rfl, -⟩ : c₁ = c' ∧ reads₁ = reads := by simpa using h
    exact readResponseBody_filled hfilled hread

theorem handleStateServerBody_state (h : c.handleStateServerBody socket write = some (c', reads, next)) :
    c'.state = c.state := by
  obtain ⟨⟨c₁, reads₁, result⟩, hread, h⟩ := Option.bind_eq_some_iff.mp h
  have hstate : c₁.state = c.state := by
    obtain ⟨-, hc, -⟩ | ⟨-, -, rfl, -⟩ | ⟨-, -, buffer, r, -, -, hcases⟩ := readResponseBody_cases hread
    · exact (saveBuffer_eq_some hc).2.2.2
    · rfl
    obtain ⟨-, rfl, -⟩ | ⟨-, -, hc, -⟩ | ⟨-, -, rfl, -⟩ := hcases
    · rfl
    · exact (saveBuffer_eq_some hc).2.2.2
    · rfl
  simp only [Option.pure_def] at h
  split_ifs at h
  · obtain ⟨rfl, -⟩ := Prod.mk.inj (Option.some.inj h)
    exact hstate
  · obtain ⟨rfl, -⟩ := Prod.mk.inj (Option.some.inj h)
    unfold endRequest
    split_ifs <;> exact hstate
  · obtain ⟨rfl, -⟩ := Prod.mk.inj (Option.some.inj h)
    exact hstate

/-- The end of the stream inside a body. -/
theorem handleStateServerBody_eof (hfilled : ∃ k, Filled N 0 k c.buffer)
    (h : c.handleStateServerBody socket write = some (c', reads, next)) (heof : .ofSize 0 ∈ reads) :
    next = .stay ∧ Filled N 0 0 c'.buffer ∧ c'.totalRead ≠ c'.contentLength ∧ c'.state = c.state := by
  obtain ⟨⟨c₁, reads₁, result⟩, hread, h⟩ := Option.bind_eq_some_iff.mp h
  have hreads : reads₁ = reads := by
    simp only [Option.pure_def] at h
    split_ifs at h <;> simp at h <;> exact h.2.1
  rw [← hreads] at heof
  obtain ⟨herr, hsize, hfill, hmore, hstate⟩ := readResponseBody_eof hfilled hread heof
  simp only [herr, hsize, Bool.false_eq_true, if_false, Option.pure_def, Option.some.injEq,
    Prod.mk.injEq] at h
  obtain ⟨rfl, -, rfl⟩ := h
  exact ⟨rfl, hfill, hmore, hstate⟩

theorem handleStateServerBody_defined (write : WriterOutcome) (hfill : Filled N 0 0 c.buffer)
    (hmore : c.totalRead ≠ c.contentLength) :
    ∃ c' next, c.handleStateServerBody (.data []) write = some (c', [.ofSize 0], next) := by
  have hnone : c.buffer.bytesReadable = 0 := hfill.bytesReadable
  obtain ⟨mem, hstore, hread⟩ := hfill.bufferRead (.data [])
  have hlen : mem.length = N := by rw [length_of_store hstore, hfill.size_eq]
  have hres : (ReaderOutcome.data []).result (N - 0 % N) = .ofSize 0 := by simp [ReaderOutcome.result]
  have hdel : (ReaderOutcome.data []).delivered (N - 0 % N) = [] := by simp [ReaderOutcome.delivered]
  rw [hdel, hres] at hread
  have hlt := hfill.lt
  have hagain : Filled N 0 (0 + 0) { c.buffer with buffer := mem, back := (0 + 0 : Nat) } :=
    hfill.bufferRead_filled hlen (by omega) (by have := hfill.le_two_pow; omega)
  have hnone' := hagain.bytesReadable
  have herr : (IoResult.ofSize 0).hasError = false := rfl
  simp only [handleStateServerBody, readResponseBody, hnone, hmore, hread, List.length_nil, hnone', herr,
    lt_irrefl, if_false, Bool.false_eq_true, Option.pure_def, Option.bind_eq_bind, Option.bind_some,
    Nat.sub_self, Nat.add_zero]
  split_ifs <;> exact ⟨_, _, rfl⟩

theorem filled_of_set {b b' : IoRingBuffer} {src : Bytes} (hb : Sized N b) (h : b.set src = some b') :
    Filled N 0 src.length b' := by
  have hle := hb.le_two_pow
  obtain ⟨mem, hstore, hb'⟩ := Option.bind_eq_some_iff.mp h
  obtain rfl := Option.some.inj hb'
  have hlen : mem.length = N := by rw [length_of_store hstore, hb.size_eq]
  have hfit : src.length ≤ N := by
    have := (store_eq_some.mp hstore).1
    rw [hb.size_eq] at this
    omega
  refine ⟨⟨hb.pow2, hb.lt, hlen, hb.mask_eq⟩, rfl, ?_, Nat.zero_le _, by omega, by omega⟩
  simp [IoRingBuffer.size, hb.size_eq]

/-- What an event of `handle_state_server_response` can do. -/
theorem handleStateServerResponse_cases
    (h : c.handleStateServerResponse socket again write = some (c', reads, next)) :
    ∃ hc call headNext, Server.handleStateServerResponse ⟨c.buffer, c.response⟩ socket =
        some (hc, call, headNext) ∧
      ((headNext = .stay ∧ c' = { c with buffer := hc.buffer, response := hc.head } ∧
        reads = headReads ⟨c.buffer, c.response⟩ socket ∧ next = .stay) ∨
      (headNext = .finished ∧ ∃ (c₁ : ClientConn) (buffer : IoRingBuffer) (bodyReads : List IoResult),
        hc.buffer.set (bytesAt hc.buffer.buffer hc.head.bodyStart) = some buffer ∧
        c₁.buffer = buffer ∧ c₁.state = .serverBody ∧
        c₁.handleStateServerBody again write = some (c', bodyReads, next) ∧
        reads = headReads ⟨c.buffer, c.response⟩ socket ++ bodyReads) ∨
      (headNext ≠ .stay ∧ next ≠ .stay ∧ reads = headReads ⟨c.buffer, c.response⟩ socket)) := by
  obtain ⟨⟨⟨buffer, response⟩, call, headNext⟩, hread, h⟩ := Option.bind_eq_some_iff.mp h
  refine ⟨⟨buffer, response⟩, call, headNext, hread, ?_⟩
  cases headNext with
  | stay =>
    obtain ⟨rfl, rfl, rfl⟩ : _ = c' ∧ _ = reads ∧ .stay = next := by simpa using h
    exact .inl ⟨rfl, rfl, rfl, rfl⟩
  | finished =>
    obtain ⟨c₁, hresp, h⟩ := Option.bind_eq_some_iff.mp h
    have hkeep : c₁.buffer = buffer ∧ c₁.response = response := by
      obtain ⟨version, -, hc₁⟩ := Option.bind_eq_some_iff.mp hresp
      obtain rfl := Option.some.inj hc₁
      exact ⟨rfl, rfl⟩
    by_cases hbody : c₁.responseHasBody = true
    · rw [if_pos hbody] at h
      obtain ⟨b, hset, h⟩ := Option.bind_eq_some_iff.mp h
      obtain ⟨⟨c₂, bodyReads, next₂⟩, hbodyStep, h⟩ := Option.bind_eq_some_iff.mp h
      obtain ⟨rfl, rfl, rfl⟩ : c₂ = c' ∧ _ = reads ∧ next₂ = next := by simpa using h
      rw [hkeep.1, hkeep.2] at hset
      exact .inr (.inl ⟨rfl, _, b, bodyReads, hset, rfl, rfl, hbodyStep, rfl⟩)
    · rw [if_neg hbody] at h
      obtain ⟨-, rfl, rfl⟩ : _ = c' ∧ _ = reads ∧ c₁.endRequest.2 = next := by simpa using h
      exact .inr (.inr ⟨by decide, c₁.endRequest_ne_stay, rfl⟩)
  | bufferFull | readException | eof | parseError =>
    obtain ⟨-, rfl, rfl⟩ : _ = c' ∧ _ = reads ∧ .abort = next := by simpa using h
    exact .inr (.inr ⟨by decide, by decide, rfl⟩)

end ClientConn

/-- A connection in a state that waits for the other side to send: of `http_server`
`client_request` and `lingering_close`, of `http_client` `server_response` and `server_body`. -/
inductive Reading where
  | clientRequest (c : HeadConn HttpRequest)
  | lingeringClose (buffer : IoRingBuffer)
  | client (c : ClientConn)
deriving DecidableEq, Repr

/-- An event with only `poll_event_in`: what the socket gives to the read of the handler and to
the one that may follow it, and what the file does. -/
structure PollIn where
  read : ReaderOutcome
  readAgain : ReaderOutcome
  write : WriterOutcome
deriving DecidableEq, Repr

namespace Reading

/-- The callback of the state, with what the reads of the socket returned, and whether the
connection is still in the pollset. -/
def handle : Reading → PollIn → Option (Reading × List IoResult × Bool)
  | .clientRequest c, e => do
    let (c', next) ← clientRequestEvent c e.read
    return (.clientRequest c', headReads c e.read, next = .stay)
  | .lingeringClose b, e => do
    let (b, reads, next) ← handleStateLingeringClose b e.read
    return (.lingeringClose b, reads, next = .stay)
  | .client c, e => do
    let (c, reads, next) ← match c.state with
      | .serverResponse => c.handleStateServerResponse e.read e.readAgain e.write
      | .serverBody => c.handleStateServerBody e.read e.write
    return (.client c, reads, next = .stay)

/-- The states as they are entered: a head is read into a fresh buffer, and lingering begins
with any. -/
def Entered (N : Nat) : Reading → Prop
  | .clientRequest c => Fresh N c.buffer ∧ ∃ r : HttpRequest, c.head = r.reset
  | .lingeringClose b => Sized N b
  | .client c => c.state = .serverResponse ∧ Fresh N c.buffer ∧ ∃ r : HttpResponse, c.response = r.reset

/-- In the event a read of the socket returns nothing. -/
def EofRead (s : Reading) (e : PollIn) : Prop :=
  ∃ s' reads registered, s.handle e = some (s', reads, registered) ∧ .ofSize 0 ∈ reads

/-- The handler takes the connection out of the pollset. -/
def TakenOut (s : Reading) (e : PollIn) : Prop := ∃ s' reads, s.handle e = some (s', reads, false)

/-- A server that has received nothing of the request it waits for. -/
def NewRequest : Reading → Prop
  | .clientRequest c => c.buffer.back = 0
  | .lingeringClose _ | .client _ => False

/-- What holds in a state that waits. -/
def Waiting (N : Nat) : Reading → Prop
  | .clientRequest c => ∃ n, Awaiting N n c
  | .lingeringClose b => Sized N b
  | .client c =>
    match c.state with
    | .serverResponse => ∃ n, Awaiting N n (⟨c.buffer, c.response⟩ : HeadConn HttpResponse)
    | .serverBody => ∃ k, Filled N 0 k c.buffer

end Reading

/-- A connection in such a state, with whether it is in the pollset. -/
def readingMachine (N : Nat) : Machine (Reading × Bool) PollIn where
  init s := s.1.Entered N ∧ s.2 = true
  step s e := if s.2 then (s.1.handle e).map fun (s', _, registered) => (s', registered) else none

namespace Reading
variable {N : Nat} {s s' : Reading} {e : PollIn} {reads : List IoResult} {registered : Bool}

theorem Entered.waiting (h : s.Entered N) : s.Waiting N := by
  cases s with
  | clientRequest c =>
    obtain ⟨hfresh, r, hr⟩ := h
    exact ⟨0, hfresh.filled, Nat.zero_le N, by rw [hr]; rfl, by rw [hr]; rfl⟩
  | lingeringClose b => exact h
  | client c =>
    obtain ⟨hstate, hfresh, r, hr⟩ := h
    rw [Waiting, hstate]
    exact ⟨0, hfresh.filled, Nat.zero_le N, by rw [hr]; rfl, by rw [hr]; rfl⟩

/-- The next event makes a read of the socket. -/
def Hungry (N : Nat) (s : Reading) : Prop :=
  s.Waiting N ∧ ∀ c, s = .client c → c.state = .serverBody →
    Filled N 0 0 c.buffer ∧ c.totalRead ≠ c.contentLength

theorem handle_clientRequest {c : HeadConn HttpRequest}
    (h : (clientRequest c).handle e = some (s', reads, registered)) :
    ∃ c' next, clientRequestEvent c e.read = some (c', next) ∧ s' = .clientRequest c' ∧
      reads = headReads c e.read ∧ registered = decide (next = .stay) := by
  obtain ⟨⟨c', next⟩, hevent, h⟩ := Option.bind_eq_some_iff.mp h
  obtain ⟨rfl, rfl, rfl⟩ : _ = s' ∧ _ = reads ∧ decide (next = .stay) = registered := by
    simpa only [Option.pure_def, Option.some.injEq, Prod.mk.injEq] using h
  exact ⟨c', next, hevent, rfl, rfl, rfl⟩

theorem handle_lingeringClose {b : IoRingBuffer}
    (h : (lingeringClose b).handle e = some (s', reads, registered)) :
    ∃ b' result, b.reset.bufferRead e.read = some (b', result) ∧ s' = .lingeringClose b' ∧
      reads = [result] ∧ registered = !result.hasError := by
  obtain ⟨⟨b₁, reads₁, next⟩, hlinger, h⟩ := Option.bind_eq_some_iff.mp h
  obtain ⟨rfl, rfl, rfl⟩ : _ = s' ∧ reads₁ = reads ∧ decide (next = .stay) = registered := by
    simpa only [Option.pure_def, Option.some.injEq, Prod.mk.injEq] using h
  obtain ⟨⟨b', result⟩, hread, hrest⟩ := Option.bind_eq_some_iff.mp hlinger
  obtain ⟨rfl, rfl, rfl⟩ : b' = b₁ ∧ [result] = reads₁ ∧ _ = next := by
    simpa only [Option.pure_def, Option.some.injEq, Prod.mk.injEq] using hrest
  refine ⟨b', result, hread, rfl, rfl, ?_⟩
  cases result.hasError <;> rfl

theorem handle_client {c : ClientConn} (h : (client c).handle e = some (s', reads, registered)) :
    ∃ c' next, s' = .client c' ∧ registered = decide (next = .stay) ∧
      ((c.state = .serverResponse ∧
        c.handleStateServerResponse e.read e.readAgain e.write = some (c', reads, next)) ∨
      (c.state = .serverBody ∧ c.handleStateServerBody e.read e.write = some (c', reads, next))) := by
  unfold handle at h
  cases hstate : c.state with
  | serverResponse =>
    simp only [hstate] at h
    obtain ⟨⟨c', reads', next⟩, hevent, h⟩ := Option.bind_eq_some_iff.mp h
    obtain ⟨rfl, rfl, rfl⟩ : _ = s' ∧ reads' = reads ∧ decide (next = .stay) = registered := by
      simpa only [Option.pure_def, Option.some.injEq, Prod.mk.injEq] using h
    exact ⟨c', next, rfl, rfl, .inl ⟨rfl, hevent⟩⟩
  | serverBody =>
    simp only [hstate] at h
    obtain ⟨⟨c', reads', next⟩, hevent, h⟩ := Option.bind_eq_some_iff.mp h
    obtain ⟨rfl, rfl, rfl⟩ : _ = s' ∧ reads' = reads ∧ decide (next = .stay) = registered := by
      simpa only [Option.pure_def, Option.some.injEq, Prod.mk.injEq] using h
    exact ⟨c', next, rfl, rfl, .inr ⟨rfl, hevent⟩⟩

theorem Waiting.step (hs : s.Waiting N) (h : s.handle e = some (s', reads, true)) : s'.Waiting N := by
  cases s with
  | clientRequest c =>
    obtain ⟨n, hn⟩ := hs
    obtain ⟨c', next, hevent, rfl, -, hreg⟩ := handle_clientRequest h
    obtain ⟨c₁, call, headNext, hread, hiff, hsame⟩ := clientRequestEvent_stay hevent
    obtain rfl := hiff.mp (of_decide_eq_true hreg.symm)
    rw [hsame rfl]
    exact hn.stay hread
  | lingeringClose b =>
    obtain ⟨b', result, hread, rfl, -, -⟩ := handle_lingeringClose h
    obtain ⟨mem, hstore, hread'⟩ := (Fresh.reset hs).filled.bufferRead e.read
    rw [hread'] at hread
    obtain ⟨rfl, -⟩ := Prod.mk.inj (Option.some.inj hread)
    exact ⟨hs.pow2, hs.lt, by rw [length_of_store hstore]; exact hs.size_eq, hs.mask_eq⟩
  | client c =>
    obtain ⟨c', next, rfl, hreg, hcases⟩ := handle_client h
    obtain rfl : next = .stay := of_decide_eq_true hreg.symm
    obtain ⟨hstate, hevent⟩ | ⟨hstate, hevent⟩ := hcases
    · rw [Waiting, hstate] at hs
      obtain ⟨n, hn⟩ := hs
      obtain ⟨hc, call, headNext, hread, hresp⟩ := ClientConn.handleStateServerResponse_cases hevent
      obtain ⟨rfl, rfl, -, -⟩ | ⟨-, c₁, buffer, bodyReads, hset, rfl, hstate₁, hbody, -⟩ | ⟨-, hne, -⟩ :=
        hresp
      · rw [Waiting, hstate]
        exact hn.stay hread
      · have hfill := ClientConn.filled_of_set (hn.sized hread) hset
        rw [Waiting, (ClientConn.handleStateServerBody_state hbody).trans hstate₁]
        exact ClientConn.handleStateServerBody_filled ⟨_, hfill⟩ hbody
      · exact absurd rfl hne
    · rw [Waiting, hstate] at hs
      rw [Waiting, (ClientConn.handleStateServerBody_state hevent).trans hstate]
      exact ClientConn.handleStateServerBody_filled hs hevent

/-- An event that finds the end of the stream: the connection is taken out of the pollset if it
is a new request, and otherwise left there to read again. -/
theorem Waiting.eof (hs : s.Waiting N) (h : s.handle e = some (s', reads, registered))
    (heof : .ofSize 0 ∈ reads) :
    (registered = true ↔ ¬s.NewRequest) ∧ (registered = true → s'.Hungry N) := by
  have hwaiting : registered = true → s'.Waiting N := by
    rintro rfl
    exact hs.step h
  cases s with
  | clientRequest c =>
    obtain ⟨n, hn⟩ := hs
    obtain ⟨c', next, hevent, rfl, rfl, rfl⟩ := handle_clientRequest h
    obtain ⟨c₁, call, headNext, hread, hiff, -⟩ := clientRequestEvent_stay hevent
    have hnext := hn.eof c.head.parse_nil heof hread
    refine ⟨?_, fun hreg => ⟨hwaiting hreg, fun c hc => by cases hc⟩⟩
    rw [decide_eq_true_iff, hiff, hnext, NewRequest]
    by_cases hback : c.buffer.back = 0 <;> simp [hback]
  | lingeringClose b =>
    obtain ⟨b', result, hread, rfl, rfl, rfl⟩ := handle_lingeringClose h
    obtain rfl := List.mem_singleton.mp heof
    exact ⟨iff_of_true rfl not_false, fun hreg => ⟨hwaiting hreg, fun c hc => by cases hc⟩⟩
  | client c =>
    obtain ⟨c', next, rfl, rfl, hcases⟩ := handle_client h
    suffices hstay : next = .stay ∧ (c'.state = .serverBody →
        Filled N 0 0 c'.buffer ∧ c'.totalRead ≠ c'.contentLength) by
      obtain ⟨rfl, hbody⟩ := hstay
      refine ⟨iff_of_true rfl not_false, fun hreg => ⟨hwaiting hreg, ?_⟩⟩
      rintro c₂ hc₂ hstate
      obtain rfl := Reading.client.inj hc₂
      exact hbody hstate
    obtain ⟨hstate, hevent⟩ | ⟨hstate, hevent⟩ := hcases
    · rw [Waiting, hstate] at hs
      obtain ⟨n, hn⟩ := hs
      obtain ⟨hc, call, headNext, hread, hresp⟩ := ClientConn.handleStateServerResponse_cases hevent
      have hhead : ∀ {rs : List IoResult}, .ofSize 0 ∈ rs → rs = headReads ⟨c.buffer, c.response⟩ e.read →
          headNext = .stay := by
        rintro rs hmem rfl
        simpa using hn.eof c.response.parse_nil hmem hread
      obtain ⟨rfl, rfl, -, rfl⟩ | ⟨rfl, c₁, buffer, bodyReads, hset, rfl, -, hbody, rfl⟩ | ⟨hne, -, hreads⟩ :=
        hresp
      · exact ⟨rfl, fun hbody => by rw [hstate] at hbody; cases hbody⟩
      · obtain hmem | hmem := List.mem_append.mp heof
        · cases hhead hmem rfl
        · have hfill := ClientConn.filled_of_set (hn.sized hread) hset
          obtain ⟨rfl, hfill', hmore, -⟩ := ClientConn.handleStateServerBody_eof ⟨_, hfill⟩ hbody hmem
          exact ⟨rfl, fun _ => ⟨hfill', hmore⟩⟩
      · exact absurd (hhead heof hreads) hne
    · rw [Waiting, hstate] at hs
      obtain ⟨rfl, hfill, hmore, -⟩ := ClientConn.handleStateServerBody_eof hs hevent heof
      exact ⟨rfl, fun _ => ⟨hfill, hmore⟩⟩

/-- The end of the stream is found again. -/
theorem Hungry.eofRead (hs : s.Hungry N) : s.EofRead ⟨.data [], .data [], .accept 0⟩ := by
  obtain ⟨hs, hbody⟩ := hs
  have hnil : ∀ n, (ReaderOutcome.data []).result n = .ofSize 0 := fun n => by simp [ReaderOutcome.result]
  cases s with
  | clientRequest c =>
    obtain ⟨n, hn⟩ := hs
    obtain ⟨c', call, headNext, hread⟩ := hn.eof_defined true
    have hmem : .ofSize 0 ∈ headReads c (.data []) := by simp [hn.headReads_eq, hnil]
    have hnext := hn.eof c.head.parse_nil hmem hread
    have hne : headNext ≠ .finished := by
      rw [hnext]
      split_ifs <;> decide
    obtain ⟨next, hevent⟩ := clientRequestEvent_defined hne hread
    exact ⟨.clientRequest c', _, decide (next = .stay), by simp [handle, hevent], hmem⟩
  | lingeringClose b =>
    obtain ⟨mem, -, hread⟩ := (Fresh.reset hs).filled.bufferRead (.data [])
    rw [hnil] at hread
    obtain ⟨b', hlinger⟩ : ∃ b', handleStateLingeringClose b (.data []) =
        some (b', [.ofSize 0], .stay) := by
      rw [handleStateLingeringClose, hread]
      exact ⟨_, rfl⟩
    exact ⟨.lingeringClose b', [.ofSize 0], true, by rw [handle, hlinger]; rfl,
      List.mem_singleton_self _⟩
  | client c =>
    cases hstate : c.state with
    | serverResponse =>
      rw [Waiting, hstate] at hs
      obtain ⟨n, hn⟩ := hs
      obtain ⟨c', call, headNext, hread⟩ := hn.eof_defined false
      have hmem : .ofSize 0 ∈ headReads (⟨c.buffer, c.response⟩ : HeadConn HttpResponse) (.data []) := by
        simp [hn.headReads_eq, hnil]
      obtain rfl : headNext = .stay := by simpa using hn.eof c.response.parse_nil hmem hread
      have hevent : c.handleStateServerResponse (.data []) (.data []) (.accept 0) =
          some ({ c with buffer := c'.buffer, response := c'.head }, headReads ⟨c.buffer, c.response⟩ (.data []),
            .stay) := by
        simp only [ClientConn.handleStateServerResponse, Server.handleStateServerResponse, hread,
          Option.bind_eq_bind, Option.bind_some, Option.pure_def]
      exact ⟨.client { c with buffer := c'.buffer, response := c'.head }, _, true,
        by simp [handle, hstate, hevent], hmem⟩
    | serverBody =>
      obtain ⟨hfill, hmore⟩ := hbody c rfl hstate
      obtain ⟨c', next, hevent⟩ := ClientConn.handleStateServerBody_defined (.accept 0) hfill hmore
      exact ⟨.client c', [.ofSize 0], decide (next = .stay), by simp [handle, hstate, hevent],
        List.mem_singleton_self _⟩

theorem Waiting.of_reaches (h : (readingMachine N).Reaches (fun _ _ => True) (s, true)) :
    s.Waiting N := by
  suffices hinv : ∀ t, (readingMachine N).Reaches (fun _ _ => True) t → t.2 = true → t.1.Waiting N from
    hinv _ h rfl
  intro t ht
  refine Machine.Reaches.invariant (M := readingMachine N) (P := fun t => t.2 = true → t.1.Waiting N)
    (fun t h0 _ => Entered.waiting h0.1) (fun t e t' hinv _ hstep hreg => ?_) ht
  unfold readingMachine at hstep
  simp only at hstep
  split_ifs at hstep with ht
  obtain ⟨⟨s', reads, registered⟩, hhandle, rfl⟩ := Option.map_eq_some_iff.mp hstep
  obtain rfl : registered = true := hreg
  exact (hinv ht).step hhandle

/-- In a state that is reached, an event that finds the end of the stream takes the connection
out of the pollset exactly when it is a server connection that has received nothing of a
request, and otherwise the end of the stream can be found again. -/
theorem eof_ends_wait_iff (N : Nat) (s : Reading)
    (h : (readingMachine N).Reaches (fun _ _ => True) (s, true)) (e : PollIn) (heof : s.EofRead e) :
    (s.TakenOut e ↔ s.NewRequest) ∧
    ((¬∃ s' e', (readingMachine N).step (s, true) e = some (s', true) ∧ s'.EofRead e') ↔
      s.NewRequest) := by
  obtain ⟨s', reads, registered, hhandle, hmem⟩ := heof
  obtain ⟨hiff, hhungry⟩ := (Waiting.of_reaches h).eof hhandle hmem
  have hstep : (readingMachine N).step (s, true) e = some (s', registered) := by
    simp [readingMachine, hhandle]
  cases registered with
  | false =>
    have hnew : s.NewRequest := by
      by_contra hnew
      cases hiff.mpr hnew
    refine ⟨iff_of_true ⟨s', reads, hhandle⟩ hnew, iff_of_true ?_ hnew⟩
    rintro ⟨s₁, e', hstep', -⟩
    rw [hstep] at hstep'
    cases hstep'
  | true =>
    have hnew : ¬s.NewRequest := hiff.mp rfl
    refine ⟨iff_of_false ?_ hnew, iff_of_false ?_ hnew⟩
    · rintro ⟨s₁, reads₁, hhandle'⟩
      rw [hhandle] at hhandle'
      cases hhandle'
    · exact not_not_intro ⟨s', _, hstep, (hhungry rfl).eofRead⟩

/-- A server connection as it comes from a router, with a buffer of 32 bytes. -/
def eofConn : HeadConn HttpRequest := ⟨.resize (List.replicate 32 0), (HttpRequest.resize 16 4).reset⟩

def eofEvent : PollIn := ⟨.data [], .data [], .accept 0⟩

theorem eofConn_reached : (readingMachine 32).Reaches (fun _ _ => True) (clientRequest eofConn, true) :=
  .start ⟨⟨.resize ⟨5, rfl⟩ (by decide) rfl, HttpRequest.resize 16 4, rfl⟩, rfl⟩

/-- The end of the stream before a request, which takes the connection out. -/
theorem eof_ends_wait_new_request : (clientRequest eofConn).EofRead eofEvent ∧
    (clientRequest eofConn).TakenOut eofEvent := by
  have heof : (clientRequest eofConn).EofRead eofEvent :=
    ⟨_, _, _, rfl, by decide +kernel⟩
  exact ⟨heof, (eof_ends_wait_iff 32 _ eofConn_reached eofEvent heof).1.mpr rfl⟩

theorem eofRead_of_handle (h : (s.handle e).map Prod.snd = some ([.ofSize 0], true)) :
    s.EofRead e ∧ ¬s.TakenOut e := by
  obtain ⟨⟨s', reads, registered⟩, hhandle, hpair⟩ := Option.map_eq_some_iff.mp h
  obtain ⟨rfl, rfl⟩ : reads = [.ofSize 0] ∧ registered = true := Prod.mk.inj hpair
  refine ⟨⟨s', _, _, hhandle, List.mem_singleton_self _⟩, ?_⟩
  rintro ⟨s₁, reads₁, hhandle'⟩
  rw [hhandle] at hhandle'
  cases hhandle'

/-- A client connection that waits for the response to its only request. -/
def eofClient : ClientConn :=
  ⟨.serverResponse, .resize (List.replicate 32 0), (HttpResponse.resize 32 4).reset, true, false, -1, 0,
    none, 1⟩

/-- "G", the start of a request. -/
def eofPartial : Reading :=
  (((clientRequest eofConn).handle ⟨.data [71], .data [], .accept 0⟩).map Prod.fst).getD
    (clientRequest eofConn)

/-- "HTTP/1.0 200 OK", a head without a content length. -/
def eofHead : Bytes := [72, 84, 84, 80, 47, 49, 46, 48, 32, 50, 48, 48, 32, 79, 75, 10, 10]

def eofBody : Reading :=
  (((client eofClient).handle ⟨.data eofHead, .data [], .accept 0⟩).map Prod.fst).getD
    (client eofClient)

/-- In each of the four states there is a connection that the end of the stream leaves in the
pollset: a request cut off after a byte, a lingering one, one without a response, and one whose
body is delimited by the end of the stream. -/
theorem eof_leaves_waiting :
    ((readingMachine 32).Reaches (fun _ _ => True) (eofPartial, true) ∧
      eofPartial.EofRead eofEvent ∧ ¬eofPartial.TakenOut eofEvent) ∧
    ((readingMachine 32).Reaches (fun _ _ => True) (lingeringClose eofConn.buffer, true) ∧
      (lingeringClose eofConn.buffer).EofRead eofEvent ∧ ¬(lingeringClose eofConn.buffer).TakenOut eofEvent) ∧
    ((readingMachine 32).Reaches (fun _ _ => True) (client eofClient, true) ∧
      (client eofClient).EofRead eofEvent ∧ ¬(client eofClient).TakenOut eofEvent) ∧
    (readingMachine 32).Reaches (fun _ _ => True) (eofBody, true) ∧
      eofBody.EofRead eofEvent ∧ ¬eofBody.TakenOut eofEvent := by
  have hfresh : Fresh 32 eofConn.buffer := .resize ⟨5, rfl⟩ (by decide) rfl
  have hclient : (readingMachine 32).Reaches (fun _ _ => True) (client eofClient, true) :=
    .start ⟨⟨rfl, hfresh, HttpResponse.resize 32 4, rfl⟩, rfl⟩
  have hstep : ∀ (s s' : Reading) (e : PollIn) (reads : List IoResult),
      (readingMachine 32).Reaches (fun _ _ => True) (s, true) → s.handle e = some (s', reads, true) →
        (readingMachine 32).Reaches (fun _ _ => True) (s', true) := by
    intro s s' e reads hs hhandle
    have hnext : (readingMachine 32).step (s, true) e = some (s', true) := by
      simp [readingMachine, hhandle]
    exact .next hs trivial hnext
  refine ⟨⟨hstep _ _ ⟨.data [71], .data [], .accept 0⟩ [.ofSize 1] eofConn_reached ?_, ?_⟩,
    ⟨.start ⟨hfresh.toSized, rfl⟩, ?_⟩, ⟨hclient, ?_⟩,
    hstep _ _ ⟨.data eofHead, .data [], .accept 0⟩ [.ofSize 17, .ofSize 0] hclient ?_, ?_⟩
  · decide +kernel
  · exact eofRead_of_handle (by decide +kernel)
  · exact eofRead_of_handle (by decide +kernel)
  · exact eofRead_of_handle (by decide +kernel)
  · decide +kernel
  · exact eofRead_of_handle (by decide +kernel)

end Reading
end Latypus.Client
