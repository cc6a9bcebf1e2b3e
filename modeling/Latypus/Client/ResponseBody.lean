import Latypus.Http.Constants
import Latypus.Server.ReadHead

/-! Receiving a response: `http_client::handle_state_server_response` reads the head, and
`handle_state_server_body` has `http_client_handler_file` move the body from the socket to a
file, beginning in the event that ends the head. A read that returns nothing is told from the
others nowhere. -/

namespace Latypus.Client
open Lib Io Http Server

/-- `strtoll` in base ten. -/
def strtoll (str : Bytes) : Int := max (-2 ^ 63) (min (atoi (cString str)) (2 ^ 63 - 1))

inductive ClientState where
  | serverResponse
  | serverBody
deriving DecidableEq, Repr

/-- A connection and the `http_client_handler_file` of its request. -/
structure ClientConn where
  state : ClientState
  buffer : IoRingBuffer
  response : HttpResponse
  responseHasBody : Bool
  connectionClose : Bool
  contentLength : Int
  totalRead : Int
  /-- What has been written to `file_resource`, if it is open. -/
  file : Option Bytes
  /-- The number of `url_requests`. -/
  urlRequests : Nat
deriving DecidableEq, Repr

/-- What a state handler of `http_client` does with the connection at its end. -/
inductive ClientNext where
  | stay
  | abort
  | close
  | process
deriving DecidableEq, Repr

namespace ClientConn

/-- The result of `read_response_body`: the bytes still to come, or -1 when the content length
is not known. -/
def bytesAvailable (c : ClientConn) : IoResult :=
  if 0 ≤ c.contentLength then .ofSize (c.contentLength - c.totalRead) else .ofSize (-1)

/-- The buffer goes to the file, and counts as read whatever the file takes of it. -/
def saveBuffer (c : ClientConn) (write : WriterOutcome) : Option ClientConn := do
  let file ← match c.file with
    | none => some none
    | some written => do
      let (_, taken, _) ← c.buffer.bufferWrite write
      some (some (written ++ taken))
  some { c with
    file
    buffer := c.buffer.reset
    totalRead := c.totalRead + ssizeT c.buffer.bytesReadable }

/-- `read_response_body`, with what the reads of the socket returned. -/
def readResponseBody (c : ClientConn) (socket : ReaderOutcome) (write : WriterOutcome) :
    Option (ClientConn × List IoResult × IoResult) := do
  if 0 < c.buffer.bytesReadable then
    let c ← c.saveBuffer write
    return (c, [], c.bytesAvailable)
  if c.totalRead = c.contentLength then return (c, [], .ofSize 0)
  let (buffer, result) ← c.buffer.bufferRead socket
  if result.hasError then return ({ c with buffer }, [result], .ofError result.errcode)
  if 0 < buffer.bytesReadable then
    let c ← { c with buffer }.saveBuffer write
    return (c, [result], c.bytesAvailable)
  return ({ c with buffer }, [result], c.bytesAvailable)

/-- The end of a request, for a handler whose `end_request` returns true. -/
def endRequest (c : ClientConn) : ClientConn × ClientNext :=
  if c.connectionClose then (c, .close)
  else
    let c := { c with urlRequests := c.urlRequests - 1 }
    (c, if 0 < c.urlRequests then .process else .close)

def handleStateServerBody (c : ClientConn) (socket : ReaderOutcome) (write : WriterOutcome) :
    Option (ClientConn × List IoResult × ClientNext) := do
  let (c, reads, result) ← c.readResponseBody socket write
  if result.hasError then return (c, reads, .abort)
  if result.size = 0 then return (c.endRequest.1, reads, c.endRequest.2)
  return (c, reads, .stay)

/-- `handle_response`; a response without a version has a null pointer for it. -/
def handleResponse (c : ClientConn) : Option ClientConn := do
  let version ← c.response.httpVersion
  some { c with
    connectionClose := closesConnection version (c.response.store.getHeaderString headerConnection)
    contentLength := ((c.response.store.getHeaderString headerContentLength).map strtoll).getD (-1)
    totalRead := 0 }

/-- `handle_state_server_response` to its end; the body handler reads from the socket a second
time when nothing of the body stands behind the head. -/
def handleStateServerResponse (c : ClientConn) (socket again : ReaderOutcome) (write : WriterOutcome) :
    Option (ClientConn × List IoResult × ClientNext) := do
  let reads := headReads ⟨c.buffer, c.response⟩ socket
  let (⟨buffer, response⟩, _, next) ← Server.handleStateServerResponse ⟨c.buffer, c.response⟩ socket
  let c := { c with buffer, response }
  match next with
  | .stay => return (c, reads, .stay)
  | .finished =>
    let c ← c.handleResponse
    if c.responseHasBody then
      let buffer ← c.buffer.set (bytesAt c.buffer.buffer c.response.bodyStart)
      let (c, bodyReads, next) ←
        { c with buffer, state := .serverBody }.handleStateServerBody again write
      return (c, reads ++ bodyReads, next)
    else return (c.endRequest.1, reads, c.endRequest.2)
  | .bufferFull | .readException | .eof | .parseError => return (c, reads, .abort)

variable {c c' : ClientConn} {socket again : ReaderOutcome} {write : WriterOutcome}
  {reads : List IoResult} {result : IoResult} {N : Nat}

theorem saveBuffer_eq_some (h : c.saveBuffer write = some c') :
    c'.buffer = c.buffer.reset ∧ c'.contentLength = c.contentLength ∧
      c'.totalRead = c.totalRead + ssizeT c.buffer.bytesReadable ∧ c'.state = c.state := by
  unfold saveBuffer at h
  cases hfile : c.file with
  | none =>
    obtain rfl : _ = c' := by simpa [hfile] using h
    exact ⟨rfl, rfl, rfl, rfl⟩
  | some written =>
    simp only [hfile] at h
    obtain ⟨file, -, hc⟩ := Option.bind_eq_some_iff.mp h
    obtain rfl := Option.some.inj hc
    exact ⟨rfl, rfl, rfl, rfl⟩

/-- What a call can do, with all that it has tested. -/
theorem readResponseBody_cases (h : c.readResponseBody socket write = some (c', reads, result)) :
    (0 < c.buffer.bytesReadable ∧ c.saveBuffer write = some c' ∧ reads = [] ∧
      result = c'.bytesAvailable) ∨
    (c.buffer.bytesReadable = 0 ∧ c.totalRead = c.contentLength ∧ c' = c ∧ reads = [] ∧
      result = .ofSize 0) ∨
    (c.buffer.bytesReadable = 0 ∧ c.totalRead ≠ c.contentLength ∧
      ∃ buffer r, c.buffer.bufferRead socket = some (buffer, r) ∧ reads = [r] ∧
        ((r.hasError = true ∧ c' = { c with buffer } ∧ result = .ofError r.errcode) ∨
        (r.hasError = false ∧ 0 < buffer.bytesReadable ∧ { c with buffer }.saveBuffer write = some c' ∧
          result = c'.bytesAvailable) ∨
        (r.hasError = false ∧ buffer.bytesReadable = 0 ∧ c' = { c with buffer } ∧
          result = c'.bytesAvailable))) := by
  unfold readResponseBody at h
  simp only [Option.pure_def] at h
  by_cases hpos : 0 < c.buffer.bytesReadable
  · rw [if_pos hpos] at h
    obtain ⟨c₁, hsave, h⟩ := Option.bind_eq_some_iff.mp h
    obtain ⟨rfl, rfl, rfl⟩ : c₁ = c' ∧ [] = reads ∧ c₁.bytesAvailable = result := by simpa using h
    exact .inl ⟨hpos, hsave, rfl, rfl⟩
  rw [if_neg hpos] at h
  have hzero : c.buffer.bytesReadable = 0 := by omega
  by_cases hall : c.totalRead = c.contentLength
  · rw [if_pos hall] at h
    obtain ⟨rfl, rfl, rfl⟩ : c = c' ∧ [] = reads ∧ .ofSize 0 = result := by simpa using h
    exact .inr (.inl ⟨hzero, hall, rfl, rfl, rfl⟩)
  rw [if_neg hall] at h
  obtain ⟨⟨buffer, r⟩, hread, h⟩ := Option.bind_eq_some_iff.mp h
  refine .inr (.inr ⟨hzero, hall, buffer, r, hread, ?_⟩)
  simp only at h
  by_cases herr : r.hasError = true
  · rw [if_pos herr] at h
    obtain ⟨rfl, rfl, rfl⟩ : _ = c' ∧ [r] = reads ∧ .ofError r.errcode = result := by simpa using h
    exact ⟨rfl, .inl ⟨herr, rfl, rfl⟩⟩
  rw [if_neg herr] at h
  rw [Bool.not_eq_true] at herr
  by_cases hgot : 0 < buffer.bytesReadable
  · rw [if_pos hgot] at h
    obtain ⟨c₁, hsave, h⟩ := Option.bind_eq_some_iff.mp h
    obtain ⟨rfl, rfl, rfl⟩ : c₁ = c' ∧ [r] = reads ∧ c₁.bytesAvailable = result := by simpa using h
    exact ⟨rfl, .inr (.inl ⟨herr, hgot, hsave, rfl⟩)⟩
  · rw [if_neg hgot] at h
    obtain ⟨rfl, rfl, rfl⟩ : _ = c' ∧ [r] = reads ∧ _ = result := by simpa using h
    exact ⟨rfl, .inr (.inr ⟨herr, by omega, rfl, rfl⟩)⟩

/-- In `server_body` the buffer holds a piece of the body that begins at its start. -/
theorem readResponseBody_filled (hfilled : ∃ k, Filled N 0 k c.buffer)
    (h : c.readResponseBody socket write = some (c', reads, result)) :
    ∃ k, Filled N 0 k c'.buffer := by
  obtain ⟨k, hk⟩ := hfilled
  have hreset : ∀ {b : IoRingBuffer}, Sized N b → ∃ k, Filled N 0 k b.reset :=
    fun hb => ⟨0, (Fresh.reset hb).filled⟩
  obtain ⟨-, hsave, -, -⟩ | ⟨-, -, rfl, -, -⟩ | ⟨hzero, -, buffer, r, hread, -, hcases⟩ :=
    readResponseBody_cases h
  · rw [(saveBuffer_eq_some hsave).1]
    exact hreset hk.toSized
  · exact ⟨k, hk⟩
  rw [hk.bytesReadable, Nat.sub_zero] at hzero
  subst hzero
  obtain ⟨mem, hstore, hread'⟩ := hk.bufferRead socket
  rw [hread'] at hread
  obtain ⟨hbuf, -⟩ := Prod.mk.inj (Option.some.inj hread)
  have hmem : mem.length = N := by rw [length_of_store hstore, hk.size_eq]
  have hdel := socket.length_delivered_le (N - 0 % N)
  have hfill : Filled N 0 (0 + (socket.delivered (N - 0 % N)).length) buffer := by
    have hle := hk.le_two_pow
    rw [← hbuf]
    exact hk.bufferRead_filled hmem (by omega) (by omega)
  obtain ⟨-, rfl, -⟩ | ⟨-, -, hsave, -⟩ | ⟨-, -, rfl, -⟩ := hcases
  · exact ⟨_, hfill⟩
  · rw [(saveBuffer_eq_some hsave).1]
    exact hreset hfill.toSized
  · exact ⟨_, hfill⟩

/-- A read that returns nothing leaves as many bytes to come as before, and these are not
none. -/
theorem readResponseBody_eof (hfilled : ∃ k, Filled N 0 k c.buffer)
    (h : c.readResponseBody socket write = some (c', reads, result)) (heof : .ofSize 0 ∈ reads) :
    result.hasError = false ∧ result.size ≠ 0 ∧ Filled N 0 0 c'.buffer ∧
      c'.totalRead ≠ c'.contentLength ∧ c'.state = c.state := by
  obtain ⟨k, hk⟩ := hfilled
  obtain ⟨-, -, rfl, -⟩ | ⟨-, -, -, rfl, -⟩ | ⟨hzero, hmore, buffer, r, hread, rfl, hcases⟩ :=
    readResponseBody_cases h
  · cases heof
  · cases heof
  obtain rfl := List.mem_singleton.mp heof
  rw [hk.bytesReadable, Nat.sub_zero] at hzero
  subst hzero
  obtain ⟨mem, hstore, hread'⟩ := hk.bufferRead socket
  rw [hread'] at hread
  obtain ⟨rfl, hr⟩ := Prod.mk.inj (Option.some.inj hread)
  have hdel : socket.delivered (N - 0 % N) = [] := by
    have hsize := socket.size_result (N - 0 % N)
    rw [hr] at hsize
    exact List.length_eq_zero_iff.mp (by simpa [IoResult.ofSize] using hsize.symm)
  rw [hdel] at hcases
  have hmem : mem.length = N := by rw [length_of_store hstore, hk.size_eq]
  have hlt := hk.lt
  have hfill : Filled N 0 (0 + 0) { c.buffer with buffer := mem, back := (0 + 0 : Nat) } :=
    hk.bufferRead_filled hmem (by omega) (by omega)
  have hnone := hfill.bytesReadable
  obtain ⟨herr, -⟩ | ⟨-, hpos, -⟩ | ⟨-, -, rfl, rfl⟩ := hcases
  · cases herr
  · rw [List.length_nil, hnone] at hpos
    exact absurd hpos (lt_irrefl 0)
  refine ⟨?_, ?_, hfill, hmore, rfl⟩
  · unfold bytesAvailable
    split_ifs <;> rfl
  · unfold bytesAvailable
    simp only
    split_ifs
    · exact sub_ne_zero.mpr hmore.symm
    · decide

end ClientConn
end Latypus.Client
