import Latypus.Http.Message
import Latypus.Io.RingBuffer

/-! Reading a request or response head: `http_server::handle_state_client_request` and
`http_client::handle_state_server_response` up to the point where the head is complete. Each
poll event appends what the socket has to the ring buffer and hands the new bytes to the
parser; the test for a full buffer never succeeds. -/

namespace Latypus.Server
open Lib Io Http

/-- What the two handlers use of the message they parse. -/
class Head (ρ : Type) where
  parse : ρ → Bytes → Nat → Nat → ρ
  isFinished : ρ → Bool
  hasError : ρ → Bool

instance : Head HttpRequest := ⟨HttpRequest.parse, HttpRequest.isFinished, HttpRequest.hasError⟩

instance : Head HttpResponse := ⟨HttpResponse.parse, HttpResponse.isFinished, HttpResponse.hasError⟩

structure HeadConn (ρ : Type) where
  buffer : IoRingBuffer
  head : ρ
deriving DecidableEq, Repr

/-- How one event ends. All but `stay` take the connection out of the state: `finished` hands
it on, `eof` closes it and the others abort it. -/
inductive HeadNext where
  | stay
  | bufferFull
  | readException
  | eof
  | finished
  | parseError
deriving DecidableEq, Repr

/-- The arguments of a call of `parse`, the pointer as an offset from the start of the
buffer. -/
structure ParseCall where
  offset : Int
  length : Nat
deriving DecidableEq, Repr

variable {ρ : Type} [Head ρ]

/-- One event of the handler that reads a head; `closesOnEof` tells the server's handler from
the client's, which has no test for the end of the stream. A slice outside the buffer is
undefined behaviour, and `none`. -/
def readHead (closesOnEof : Bool) (c : HeadConn ρ) (socket : ReaderOutcome) :
    Option (HeadConn ρ × Option ParseCall × HeadNext) := do
  if c.buffer.bytesWritable = 0 then return (c, none, .bufferFull)
  let (buffer, result) ← c.buffer.bufferRead socket
  if result.hasError then return ({ c with buffer }, none, .readException)
  if closesOnEof && result.size == 0 && buffer.back == 0 then return ({ c with buffer }, none, .eof)
  let offset := buffer.back - result.size
  if offset < 0 ∨ (buffer.size : Int) < offset + result.size then none
  let head := Head.parse c.head buffer.buffer offset.toNat result.size.toNat
  let next : HeadNext :=
    if Head.isFinished head then .finished else if Head.hasError head then .parseError else .stay
  some (⟨{ buffer with front := buffer.front + result.size }, head⟩,
    some ⟨offset, result.size.toNat⟩, next)

/-- What the read of the socket returns in such an event. -/
def headReads (c : HeadConn ρ) (socket : ReaderOutcome) : List IoResult :=
  if c.buffer.bytesWritable = 0 then [] else ((c.buffer.bufferRead socket).map Prod.snd).toList

/-- `http_server::handle_state_client_request`. -/
def handleStateClientRequest : HeadConn HttpRequest → ReaderOutcome →
    Option (HeadConn HttpRequest × Option ParseCall × HeadNext) := readHead true

/-- `http_client::handle_state_server_response`. -/
def handleStateServerResponse : HeadConn HttpResponse → ReaderOutcome →
    Option (HeadConn HttpResponse × Option ParseCall × HeadNext) := readHead false

/-- What an event can do, with all that it has tested. -/
theorem readHead_cases {closesOnEof : Bool} {c c' : HeadConn ρ} {socket : ReaderOutcome}
    {call : Option ParseCall} {next : HeadNext}
    (h : readHead closesOnEof c socket = some (c', call, next)) :
    (c.buffer.bytesWritable = 0 ∧ c' = c ∧ next = .bufferFull) ∨
    (c.buffer.bytesWritable ≠ 0 ∧ ∃ buffer result, c.buffer.bufferRead socket = some (buffer, result) ∧
      ((result.hasError = true ∧ c' = { c with buffer } ∧ next = .readException) ∨
      (result.hasError = false ∧ closesOnEof = true ∧ result.size = 0 ∧ buffer.back = 0 ∧
        c' = { c with buffer } ∧ next = .eof) ∨
      (result.hasError = false ∧ (closesOnEof && result.size == 0 && buffer.back == 0) = false ∧
        0 ≤ buffer.back - result.size ∧ buffer.back ≤ buffer.size ∧
        c'.buffer = { buffer with front := buffer.front + result.size } ∧
        c'.head = Head.parse c.head buffer.buffer (buffer.back - result.size).toNat result.size.toNat ∧
        next = if Head.isFinished c'.head then .finished
          else if Head.hasError c'.head then .parseError else .stay))) := by
  unfold readHead at h
  by_cases hfull : c.buffer.bytesWritable = 0
  · simp only [hfull, if_true, Option.pure_def, Option.some.injEq, Prod.mk.injEq] at h
    obtain ⟨rfl, -, rfl⟩ := h
    exact .inl ⟨hfull, rfl, rfl⟩
  · rw [if_neg hfull] at h
    obtain ⟨⟨buffer, result⟩, hread, h⟩ := Option.bind_eq_some_iff.mp h
    refine .inr ⟨hfull, buffer, result, hread, ?_⟩
    simp only [Option.pure_def] at h
    by_cases herr : result.hasError = true
    · rw [if_pos herr] at h
      obtain ⟨rfl, -, rfl⟩ : { c with buffer } = c' ∧ none = call ∧ .readException = next := by
        simpa using h
      exact .inl ⟨herr, rfl, rfl⟩
    rw [if_neg herr] at h
    rw [Bool.not_eq_true] at herr
    by_cases heof : (closesOnEof && result.size == 0 && buffer.back == 0) = true
    · rw [if_pos heof] at h
      obtain ⟨rfl, -, rfl⟩ : { c with buffer } = c' ∧ none = call ∧ .eof = next := by simpa using h
      simp only [Bool.and_eq_true, beq_iff_eq] at heof
      exact .inr (.inl ⟨herr, heof.1.1, heof.1.2, heof.2, rfl, rfl⟩)
    rw [if_neg heof] at h
    rw [Bool.not_eq_true] at heof
    by_cases hoob : buffer.back - result.size < 0 ∨
        (buffer.size : Int) < buffer.back - result.size + result.size
    · rw [if_pos hoob] at h
      cases h
    rw [if_neg hoob] at h
    obtain ⟨hc, -, hnext⟩ : _ = c' ∧ _ = call ∧ _ = next := by
      simpa only [Option.some.injEq, Prod.mk.injEq] using h
    subst hc
    exact .inr (.inr ⟨herr, heof, by omega, by omega, rfl, rfl, hnext.symm⟩)

variable (handler : HeadConn ρ → ReaderOutcome → Option (HeadConn ρ × Option ParseCall × HeadNext))

/-- The slice given to the parser lies in the first `N` positions and holds the bytes just
received. -/
def ParseCall.Holds (call : ParseCall) (N : Nat) (buffer : Bytes) (received : Bytes) : Prop :=
  0 ≤ call.offset ∧ call.offset + call.length ≤ N ∧
    (buffer.drop call.offset.toNat).take call.length = received

/-- The run never leaves the buffer: as long as fewer than `N` bytes have come in, every call
of the parser is given exactly the bytes just received, and once `N` have, the next event
finds the buffer full. The run ends with the first event that is not followed by another. -/
def ReadsInBuffer (N : Nat) : Nat → HeadConn ρ → List ReaderOutcome → Prop
  | _, _, [] => True
  | received, c, socket :: rest =>
    if N ≤ received then ∃ c' call, handler c socket = some (c', call, .bufferFull)
    else
      let bytes := socket.delivered c.buffer.bytesToRead
      ∃ c' call next, handler c socket = some (c', call, next) ∧
        (∀ p, call = some p → p.Holds N c'.buffer.buffer bytes) ∧
        (next = .stay → call.isSome ∧ ReadsInBuffer N (received + bytes.length) c' rest)

/-- Every event of the run comes while the buffer still has room behind the bytes received. -/
def RoomAtEvents (N : Nat) : HeadConn ρ → List ReaderOutcome → Prop
  | _, [] => True
  | c, socket :: rest =>
    c.buffer.back < N ∧ ∀ c' call, handler c socket = some (c', call, .stay) → RoomAtEvents N c' rest

omit [Head ρ] in
theorem readsInBuffer_congr {N : Nat} {socket : ReaderOutcome} {rest : List ReaderOutcome}
    {received : Nat} {c : HeadConn ρ} (h : received < N) :
    ReadsInBuffer handler N received c (socket :: rest) ↔
      ∃ c' call next, handler c socket = some (c', call, next) ∧
        (∀ p, call = some p → p.Holds N c'.buffer.buffer (socket.delivered c.buffer.bytesToRead)) ∧
        (next = .stay → call.isSome ∧ ReadsInBuffer handler N
          (received + (socket.delivered c.buffer.bytesToRead).length) c' rest) := by
  rw [ReadsInBuffer, if_neg (by omega)]

section Event
variable {N n : Nat} {c : HeadConn ρ} {closesOnEof : Bool}

/-- After `n` bytes, all of them parsed and skipped by hand, the free space reads `N + 2 * n`:
the buffer is never full. -/
theorem readHead_ne_bufferFull (h : Filled N n n c.buffer) (socket : ReaderOutcome)
    (c' : HeadConn ρ) (call : Option ParseCall) :
    readHead closesOnEof c socket ≠ some (c', call, .bufferFull) := by
  have hpos := h.pos
  intro heq
  rw [readHead, h.bytesWritable, if_neg (by omega)] at heq
  obtain ⟨⟨buffer, result⟩, -, heq⟩ := Option.bind_eq_some_iff.mp heq
  simp only [Option.pure_def] at heq
  split_ifs at heq <;> simp at heq

/-- One event with room left: the parser gets the new bytes. -/
theorem readHead_room (closesOnEof : Bool) (h : Filled N n n c.buffer) (hn : n < N)
    (socket : ReaderOutcome) :
    ∃ c' call next, readHead closesOnEof c socket = some (c', call, next) ∧
      (∀ p, call = some p → p.Holds N c'.buffer.buffer (socket.delivered (N - n))) ∧
      (next = .stay → call.isSome ∧
        Filled N (n + (socket.delivered (N - n)).length) (n + (socket.delivered (N - n)).length)
          c'.buffer) := by
  have hlt := h.lt
  have hle := h.le_two_pow
  set d := socket.delivered (N - n) with hd
  have hdlen : d.length ≤ N - n := socket.length_delivered_le _
  obtain ⟨buffer, hstore, hread⟩ := h.bufferRead socket
  rw [Nat.mod_eq_of_lt hn, ← hd] at hstore hread
  have hblen : buffer.length = N := by rw [length_of_store hstore, h.size_eq]
  have hslice : (buffer.drop n).take d.length = d := by
    obtain ⟨-, rfl⟩ := store_eq_some.mp hstore
    have hlen : (c.buffer.buffer.take n).length = n := by simp [h.size_eq]; omega
    rw [List.append_assoc, List.drop_append_of_le_length hlen.ge, List.drop_of_length_le hlen.le,
      List.nil_append, List.take_left']
    rfl
  have hfilled : Filled N (n + d.length) (n + d.length)
      { c.buffer with buffer, back := (n + d.length : Nat), front := (N + (n + d.length) : Nat) } :=
    ⟨⟨h.pow2, hlt, hblen, h.mask_eq⟩, rfl, rfl, le_rfl, by omega, by omega⟩
  have hsize : (socket.result (N - n)).size = d.length := by simp [hd]
  rw [readHead, h.bytesWritable, if_neg (by omega)]
  have hoob : ¬(((n + d.length : Nat) : Int) - d.length < 0 ∨
      (N : Int) < ((n + d.length : Nat) : Int) - d.length + d.length) := by omega
  simp only [hread, Option.bind_eq_bind, Option.bind_some, hsize, Option.pure_def,
    IoRingBuffer.size, hblen, if_neg hoob]
  by_cases herr : (socket.result (N - n)).hasError
  · rw [if_pos herr]
    exact ⟨_, _, _, rfl, by simp, by simp⟩
  rw [if_neg herr]
  by_cases heof : closesOnEof && ((d.length : Int) == 0) && (((n + d.length : Nat) : Int) == 0)
  · rw [if_pos heof]
    exact ⟨_, _, _, rfl, by simp, by simp⟩
  rw [if_neg heof]
  refine ⟨_, _, _, rfl, ?_, fun _ => ⟨rfl, ?_⟩⟩
  · rintro p hp
    obtain rfl := Option.some.inj hp
    refine ⟨by dsimp; omega, by dsimp; omega, ?_⟩
    have hoff : (((n + d.length : Nat) : Int) - d.length).toNat = n := by omega
    rw [hoff, Int.toNat_natCast]
    exact hslice
  · have hfront : c.buffer.front + (d.length : Int) = ((N + (n + d.length) : Nat) : Int) := by
      rw [h.front_eq]
      omega
    simpa only [hfront] using hfilled

end Event

/-! ### A head that needs more -/

section Awaiting
variable {ρ : Type} [Head ρ] {N : Nat} {closesOnEof : Bool} {c c' : HeadConn ρ} {socket : ReaderOutcome}
  {call : Option ParseCall} {next : HeadNext}

/-- A head of which `n` bytes have been received, and more are needed. -/
structure Awaiting (N n : Nat) (c : HeadConn ρ) : Prop where
  filled : Filled N n n c.buffer
  le : n ≤ N
  notFinished : Head.isFinished c.head = false
  noError : Head.hasError c.head = false

theorem Awaiting.headReads_eq {n : Nat} (h : Awaiting N n c) (socket : ReaderOutcome) :
    headReads c socket = [socket.result (N - n % N)] := by
  have hpos := h.filled.pos
  obtain ⟨buffer, -, hread⟩ := h.filled.bufferRead socket
  rw [headReads, h.filled.bytesWritable, if_neg (by omega), hread]
  rfl

/-- The buffer after the read of an event. -/
theorem Awaiting.sized_of_read {n : Nat} (h : Awaiting N n c) {buffer : IoRingBuffer}
    {result : IoResult} (hread : c.buffer.bufferRead socket = some (buffer, result)) :
    Sized N buffer ∧ buffer.front = c.buffer.front ∧ result = socket.result (N - n % N) ∧
      buffer.back = (n + (socket.delivered (N - n % N)).length : Nat) := by
  obtain ⟨mem, hstore, hread'⟩ := h.filled.bufferRead socket
  rw [hread'] at hread
  obtain ⟨rfl, rfl⟩ := Prod.mk.inj (Option.some.inj hread)
  have hlen : mem.length = N := by rw [length_of_store hstore, h.filled.size_eq]
  exact ⟨⟨h.filled.pow2, h.filled.lt, hlen, h.filled.mask_eq⟩, rfl, rfl, rfl⟩

theorem Awaiting.sized {n : Nat} (h : Awaiting N n c)
    (hread : readHead closesOnEof c socket = some (c', call, next)) : Sized N c'.buffer := by
  obtain ⟨-, rfl, -⟩ | ⟨-, buffer, result, hbuf, hcases⟩ := readHead_cases hread
  · exact h.filled.toSized
  obtain ⟨hsized, -⟩ := h.sized_of_read hbuf
  obtain ⟨-, rfl, -⟩ | ⟨-, -, -, -, rfl, -⟩ | ⟨-, -, -, -, hb, -⟩ := hcases
  · exact hsized
  · exact hsized
  · rw [hb]
    exact ⟨hsized.pow2, hsized.lt, hsized.size_eq, hsized.mask_eq⟩

theorem Awaiting.stay {n : Nat} (h : Awaiting N n c)
    (hread : readHead closesOnEof c socket = some (c', call, .stay)) : ∃ m, Awaiting N m c' := by
  have hle := h.filled.le_two_pow
  obtain ⟨-, -, hnext⟩ | ⟨-, buffer, result, hbuf, hcases⟩ := readHead_cases hread
  · cases hnext
  obtain ⟨hsized, hfront, hres, hback⟩ := h.sized_of_read hbuf
  obtain ⟨-, -, hnext⟩ | ⟨-, -, -, -, -, hnext⟩ | ⟨-, -, -, hend, hb, -, hnext⟩ := hcases
  · cases hnext
  · cases hnext
  -- the parser had its slice, so the bytes received still lie in the buffer
  have hsize : result.size = (socket.delivered (N - n % N)).length := by rw [hres, socket.size_result]
  have hroom : n + (socket.delivered (N - n % N)).length ≤ N := by
    rw [IoRingBuffer.size, hsized.size_eq, hback] at hend
    omega
  refine ⟨n + (socket.delivered (N - n % N)).length, ?_, hroom, ?_, ?_⟩
  · rw [hb]
    refine ⟨⟨hsized.pow2, hsized.lt, hsized.size_eq, hsized.mask_eq⟩, hback, ?_, le_rfl, by omega, by omega⟩
    change buffer.front + result.size = _
    rw [hfront, h.filled.front_eq, hsize]
    omega
  · cases hfin : Head.isFinished c'.head with
    | false => rfl
    | true => simp [hfin] at hnext
  · cases hfin : Head.isFinished c'.head with
    | true => simp [hfin] at hnext
    | false =>
      cases herr : Head.hasError c'.head with
      | false => rfl
      | true => simp [hfin, herr] at hnext

/-- The read that returns nothing leaves the head as it was. -/
theorem Awaiting.eof {n : Nat} (h : Awaiting N n c) (hnil : ∀ mem buf, Head.parse c.head mem buf 0 = c.head)
    (heof : .ofSize 0 ∈ headReads c socket)
    (hread : readHead closesOnEof c socket = some (c', call, next)) :
    next = if closesOnEof = true ∧ c.buffer.back = 0 then .eof else .stay := by
  have hpos := h.filled.pos
  rw [h.headReads_eq, List.mem_singleton] at heof
  obtain ⟨hfull, -, -⟩ | ⟨-, buffer, result, hbuf, hcases⟩ := readHead_cases hread
  · rw [h.filled.bytesWritable] at hfull
    omega
  obtain ⟨-, -, hres, hback⟩ := h.sized_of_read hbuf
  rw [← heof] at hres
  have hsize : result.size = 0 := by rw [hres]; rfl
  have hdel : (socket.delivered (N - n % N)).length = 0 := by
    have := socket.size_result (N - n % N)
    rw [← heof] at this
    exact Int.ofNat_eq_zero.mp this.symm
  rw [hdel, Nat.add_zero, ← h.filled.back_eq] at hback
  rw [hback, hsize] at hcases
  obtain ⟨herr, -⟩ | ⟨-, hcloses, -, hzero, -, rfl⟩ | ⟨-, hgo, -, -, -, hhead, rfl⟩ := hcases
  · rw [hres] at herr
    cases herr
  · rw [if_pos ⟨hcloses, hzero⟩]
  · rw [Int.toNat_zero, hnil] at hhead
    have hgo' : ¬(closesOnEof = true ∧ c.buffer.back = 0) := by
      rintro ⟨rfl, hzero⟩
      simp [hzero] at hgo
    rw [hhead, h.notFinished, h.noError, if_neg hgo']
    simp

theorem Awaiting.eof_defined {n : Nat} (h : Awaiting N n c) (closesOnEof : Bool) :
    ∃ c' call next, readHead closesOnEof c (.data []) = some (c', call, next) := by
  have hpos := h.filled.pos
  have hle := h.le
  obtain ⟨mem, hstore, hread⟩ := h.filled.bufferRead (.data [])
  have hlen : mem.length = N := by rw [length_of_store hstore, h.filled.size_eq]
  have hres : (ReaderOutcome.data []).result (N - n % N) = .ofSize 0 := by
    simp [ReaderOutcome.result]
  have herr : (IoResult.ofSize 0).hasError = false := rfl
  have hsize : (IoResult.ofSize 0).size = 0 := rfl
  have hdel : (ReaderOutcome.data []).delivered (N - n % N) = [] := by simp [ReaderOutcome.delivered]
  have hoob : ¬(((n + 0 : Nat) : Int) - 0 < 0 ∨ (N : Int) < ((n + 0 : Nat) : Int) - 0 + 0) := by omega
  rw [hdel, hres] at hread
  rw [readHead, h.filled.bytesWritable, if_neg (by omega), hread]
  simp only [Option.bind_eq_bind, Option.bind_some, herr, hsize, IoRingBuffer.size, hlen,
    List.length_nil, if_neg hoob, Bool.false_eq_true, if_false]
  split_ifs <;> exact ⟨_, _, _, rfl⟩

end Awaiting

theorem readsInBuffer_iff_room {N n : Nat} {c : HeadConn ρ} (closesOnEof : Bool)
    (h : Filled N n n c.buffer) (hn : n ≤ N) (events : List ReaderOutcome) :
    ReadsInBuffer (readHead closesOnEof) N n c events ↔
      RoomAtEvents (readHead closesOnEof) N c events := by
  induction events generalizing c n with
  | nil => simp [ReadsInBuffer, RoomAtEvents]
  | cons socket rest ih =>
    rw [RoomAtEvents, h.back_eq, Int.ofNat_lt]
    by_cases hlt : n < N
    · obtain ⟨c', call, next, hc', hholds, hstay⟩ :=
        readHead_room closesOnEof h hlt socket
      have hread : c.buffer.bytesToRead = N - n := by
        rw [h.bytesToRead, Nat.mod_eq_of_lt hlt]
      have hdlen := socket.length_delivered_le (N - n)
      rw [readsInBuffer_congr _ hlt, hread]
      constructor
      · rintro ⟨c1, call1, next1, h1, -, hrest⟩
        refine ⟨hlt, fun c2 call2 h2 => ?_⟩
        rw [h2] at h1
        obtain ⟨rfl, rfl, rfl⟩ : c2 = c1 ∧ call2 = call1 ∧ .stay = next1 := by simpa using h1
        rw [hc'] at h2
        obtain ⟨rfl, rfl, rfl⟩ : c' = c2 ∧ call = call2 ∧ next = .stay := by simpa using h2
        exact (ih (hstay rfl).2 (by omega)).mp (hrest rfl).2
      · rintro ⟨-, hrest⟩
        refine ⟨c', call, next, hc', hholds, ?_⟩
        rintro rfl
        obtain ⟨hsome, hfilled⟩ := hstay rfl
        exact ⟨hsome, (ih hfilled (by omega)).mpr (hrest c' call hc')⟩
    · refine iff_of_false ?_ fun hroom => hlt hroom.1
      rw [ReadsInBuffer, if_pos (by omega)]
      rintro ⟨c', call, hc'⟩
      exact readHead_ne_bufferFull h socket c' call hc'

/-- Reading heads stays in the buffer exactly as long as no event comes when the buffer's
worth of bytes has been received and the head is neither finished nor in error, for the
server's handler on a fresh request and for the client's on a fresh response. -/
theorem readsInBuffer_iff (N : Nat) (b : IoRingBuffer) (h : Fresh N b) :
    (∀ (r : HttpRequest) (events : List ReaderOutcome),
      ReadsInBuffer handleStateClientRequest N 0 ⟨b, r.reset⟩ events ↔
        RoomAtEvents handleStateClientRequest N ⟨b, r.reset⟩ events) ∧
    (∀ (r : HttpResponse) (events : List ReaderOutcome),
      ReadsInBuffer handleStateServerResponse N 0 ⟨b, r.reset⟩ events ↔
        RoomAtEvents handleStateServerResponse N ⟨b, r.reset⟩ events) :=
  ⟨fun r => readsInBuffer_iff_room (c := ⟨b, r.reset⟩) true h.filled (Nat.zero_le N),
    fun r => readsInBuffer_iff_room (c := ⟨b, r.reset⟩) false h.filled (Nat.zero_le N)⟩

theorem readsInBuffer_one_event :
    Fresh 2 (.resize [0, 0]) ∧ ReadsInBuffer handleStateClientRequest 2 0
      ⟨.resize [0, 0], (HttpRequest.resize 16 4).reset⟩ [.data [71, 69]] := by
  have h : Fresh 2 (.resize [0, 0]) := .resize ⟨1, rfl⟩ (by decide) rfl
  exact ⟨h, ((readsInBuffer_iff 2 _ h).1 (HttpRequest.resize 16 4) [.data [71, 69]]).mpr
    ⟨by decide, fun _ _ _ => trivial⟩⟩

/-- Two bytes of a method fill a buffer of two, and the third is read all the same: the slice
for the parser then starts at the end of the buffer. -/
theorem readsInBuffer_fails_third_byte :
    ¬∀ events, ReadsInBuffer handleStateClientRequest 2 0
      ⟨.resize [0, 0], (HttpRequest.resize 16 4).reset⟩ events := by
  intro h
  obtain ⟨c', call, next, hc', -, hstay⟩ := (readsInBuffer_congr _ (by decide)).mp
    (h [.data [71, 69], .data [84]])
  have hfirst : handleStateClientRequest ⟨.resize [0, 0], (HttpRequest.resize 16 4).reset⟩
      (.data [71, 69]) = some (⟨⟨[71, 69], 2, 4, 1⟩,
        { HttpRequest.resize 16 4 with parser := ⟨37, 2, some 0, none, none, 0⟩ }⟩,
        some ⟨0, 2⟩, .stay) := by decide +kernel
  rw [hfirst] at hc'
  obtain ⟨rfl, rfl, rfl⟩ := by simpa using hc'
  obtain ⟨c2, call2, h2⟩ := (hstay rfl).2
  have hsecond : handleStateClientRequest ⟨⟨[71, 69], 2, 4, 1⟩,
      { HttpRequest.resize 16 4 with parser := ⟨37, 2, some 0, none, none, 0⟩ }⟩
      (.data [84]) = none := by decide +kernel
  rw [hsecond] at h2
  exact absurd h2 (by simp)

end Latypus.Server
