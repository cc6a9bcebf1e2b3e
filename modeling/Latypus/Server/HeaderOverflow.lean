import Latypus.Http.SanitizePath
import Latypus.Server.ReadHead
import Latypus.Server.ResponseBody

/-! Header storage that overflows. The overflow flag of a request is looked at only when the head
is not finished, and that of a response never: a head that overflows the storage in the read
that ends it is worked on, and a response whose headers did not fit is sent without them. -/

namespace Latypus.Http

namespace HeaderStore

/-- There is room for the copy of a string. -/
def stringFits (s : HeaderStore) (str : Bytes) : Bool := str.length + 1 ≤ s.bytesWritable

/-- There is room for a header field, as a new one or joined to the value it has. -/
def fieldFits (s : HeaderStore) (name value : Bytes) : Bool :=
  s.headerMap.length ≠ s.maxHeaders &&
    match s.headerMap.lookup name with
    | none => name.length + value.length + 2 ≤ s.bytesWritable
    | some orig => orig.length + 2 + value.length + 1 ≤ s.bytesWritable

theorem overflow_allocString (s : HeaderStore) (str : Bytes) :
    (s.allocString str).1.overflow = (s.overflow || !s.stringFits str) := by
  unfold allocString stringFits
  split_ifs with h
  · simp [Nat.not_le.mpr h]
  · simp [Nat.not_lt.mp h]

theorem overflow_setHeaderField (s : HeaderStore) (name value : Bytes) :
    (s.setHeaderField name value).1.overflow = (s.overflow || !s.fieldFits name value) := by
  unfold setHeaderField fieldFits
  by_cases hmax : s.headerMap.length = s.maxHeaders
  · simp [hmax]
  · rw [if_neg hmax]
    cases s.headerMap.lookup name with
    | none =>
      simp only
      split_ifs with h
      · simp [Nat.not_le.mpr h]
      · simp [hmax, Nat.not_lt.mp h]
    | some orig =>
      have hlen : (orig ++ [44, 32] ++ value).length = orig.length + 2 + value.length := by
        simp only [List.length_append, List.length_cons, List.length_nil]
      simp only [hlen]
      split_ifs with h
      · simp [Nat.not_le.mpr h]
      · simp [hmax, Nat.not_lt.mp h]

end HeaderStore

namespace HttpRequest

/-- There is room for what a callback stores. -/
def fits (mem : Bytes) (r : HttpRequest) : Callback → Bool
  | .setHeaderField name value => r.store.fieldFits (bytesAt mem name) (bytesAt mem value)
  | .setRequestMethod str | .setRequestUri str | .setFragment str | .setRequestPath str
  | .setQueryString str | .setHttpVersion str => r.store.stringFits (bytesAt mem str)
  | .setParseType _ | .setBodyStart _ | .setReasonPhrase _ | .setStatusCode _ => true

/-- There is room for what each of the callbacks stores. -/
def allFit (mem : Bytes) : HttpRequest → List Callback → Bool
  | _, [] => true
  | r, cb :: cbs => r.fits mem cb && allFit mem (r.callback mem cb) cbs

theorem hasOverflow_callback (mem : Bytes) (r : HttpRequest) (cb : Callback) :
    (r.callback mem cb).hasOverflow = (r.hasOverflow || !r.fits mem cb) := by
  cases cb with
  | setHeaderField name value => exact r.store.overflow_setHeaderField _ _
  | setRequestMethod str | setRequestUri str | setFragment str | setRequestPath str
  | setQueryString str | setHttpVersion str => exact r.store.overflow_allocString _
  | setParseType _ | setBodyStart _ | setReasonPhrase _ | setStatusCode _ =>
    exact (Bool.or_false _).symm

/-- The flag is set when a callback does not fit, and stays set. -/
theorem hasOverflow_callbacks (mem : Bytes) (r : HttpRequest) (cbs : List Callback) :
    (cbs.foldl (callback mem) r).hasOverflow = (r.hasOverflow || !r.allFit mem cbs) := by
  induction cbs generalizing r with
  | nil => exact (Bool.or_false _).symm
  | cons cb cbs ih =>
    rw [List.foldl_cons, ih, hasOverflow_callback, allFit, Bool.not_and, Bool.or_assoc]

end HttpRequest

/-- The calls by which a handler fills a response. -/
inductive ResponseCall where
  | setHttpVersion (str : Bytes)
  | setStatusCode (code : Int)
  | setReasonPhrase (str : Bytes)
  | setHeaderField (name value : Bytes)
deriving DecidableEq, Repr

namespace HttpResponse

def call (r : HttpResponse) : ResponseCall → HttpResponse
  | .setHttpVersion str =>
    let (store, s) := r.store.allocString str
    { r with store, httpVersion := s }
  | .setStatusCode code => { r with statusCode := code }
  | .setReasonPhrase str =>
    let (store, s) := r.store.allocString str
    { r with store, reasonPhrase := s }
  | .setHeaderField name value => { r with store := (r.store.setHeaderField name value).1 }

def fits (r : HttpResponse) : ResponseCall → Bool
  | .setHttpVersion str | .setReasonPhrase str => r.store.stringFits str
  | .setStatusCode _ => true
  | .setHeaderField name value => r.store.fieldFits name value

def allFit : HttpResponse → List ResponseCall → Bool
  | _, [] => true
  | r, c :: cs => r.fits c && allFit (r.call c) cs

theorem hasOverflow_call (r : HttpResponse) (c : ResponseCall) :
    (r.call c).hasOverflow = (r.hasOverflow || !r.fits c) := by
  cases c with
  | setHttpVersion str | setReasonPhrase str => exact r.store.overflow_allocString str
  | setStatusCode code => exact (Bool.or_false _).symm
  | setHeaderField name value => exact r.store.overflow_setHeaderField name value

theorem hasOverflow_calls (r : HttpResponse) (cs : List ResponseCall) :
    (cs.foldl call r).hasOverflow = (r.hasOverflow || !r.allFit cs) := by
  induction cs generalizing r with
  | nil => exact (Bool.or_false _).symm
  | cons c cs ih =>
    rw [List.foldl_cons, ih, hasOverflow_call, allFit, Bool.not_and, Bool.or_assoc]

end HttpResponse
end Latypus.Http

namespace Latypus.Server
open Lib Io Http

/-- `process_request_headers` on the request: the path is rewritten in place, and a request
without a path or with one that `sanitize_path` refuses is not processed. -/
def processRequestHeaders (r : HttpRequest) : Option (HttpRequest × Bool) :=
  match r.requestPath with
  | none => some (r, false)
  | some path => (sanitizePath path).map fun (ret, mem) =>
    ({ r with requestPath := some (mem.take path.length) }, 0 ≤ ret)

/-- An event of `handle_state_client_request` to its end. -/
def clientRequestEvent (c : HeadConn HttpRequest) (socket : ReaderOutcome) :
    Option (HeadConn HttpRequest × Next) := do
  let (c, _, next) ← handleStateClientRequest c socket
  match next with
  | .stay => some (c, .stay)
  | .eof => some (c, .close)
  | .finished =>
    let (request, ok) ← processRequestHeaders c.head
    some ({ c with head := request }, if ok then .work else .abort)
  | .bufferFull | .readException | .parseError => some (c, .abort)

/-- The memory after the read that an event makes, and what the parser makes of the bytes in
it; `none` when nothing is parsed. -/
def parsed (c : HeadConn HttpRequest) (socket : ReaderOutcome) :
    Option (Bytes × HttpParser × List Callback) :=
  if c.buffer.bytesWritable = 0 then none
  else
    match c.buffer.bufferRead socket with
    | none => none
    | some (buffer, result) =>
      if result.hasError ∨ buffer.back < result.size ∨ (buffer.size : Int) < buffer.back then none
      else
        let offset := (buffer.back - result.size).toNat
        some (buffer.buffer,
          c.head.parser.parse offset ((buffer.buffer.drop offset).take result.size.toNat))

/-- If a read ends the head and the path is accepted, then everything that the read gives to
store fits. -/
def OverflowApart (c : HeadConn HttpRequest) (socket : ReaderOutcome) : Prop :=
  ∀ mem parser cbs, parsed c socket = some (mem, parser, cbs) → parser.isFinished = true →
    (∃ r, processRequestHeaders (cbs.foldl (HttpRequest.callback mem) { c.head with parser }) =
      some (r, true)) → HttpRequest.allFit mem { c.head with parser } cbs = true

/-- In a run of events, the overflow flag is never set but in a connection that is aborted. -/
def OverflowNoticed : HeadConn HttpRequest → List ReaderOutcome → Prop
  | _, [] => True
  | c, socket :: rest => ∀ c' next, clientRequestEvent c socket = some (c', next) →
    (c'.head.hasOverflow = true → next = .abort) ∧ (next = .stay → OverflowNoticed c' rest)

/-- Every event of a run meets the condition. -/
def ApartAtEvents : HeadConn HttpRequest → List ReaderOutcome → Prop
  | _, [] => True
  | c, socket :: rest => OverflowApart c socket ∧
    ∀ c', clientRequestEvent c socket = some (c', .stay) → ApartAtEvents c' rest

/-- What an event can do: nothing is parsed and the connection is left, or the request is what
the callbacks make of it. -/
theorem clientRequestEvent_cases {c c' : HeadConn HttpRequest} {socket : ReaderOutcome} {next : Next}
    (h : clientRequestEvent c socket = some (c', next)) :
    (c'.head = c.head ∧ (next = .abort ∨ next = .close) ∧
      ∀ mem parser cbs, parsed c socket = some (mem, parser, cbs) → cbs = []) ∨
    ∃ mem parser cbs, parsed c socket = some (mem, parser, cbs) ∧
      let r := cbs.foldl (HttpRequest.callback mem) { c.head with parser }
      (r.isFinished = true ∧ ∃ ok, processRequestHeaders r = some (c'.head, ok) ∧
        next = if ok then .work else .abort) ∨
      (r.isFinished = false ∧ c'.head = r ∧ next = if r.hasError then .abort else .stay) := by
  obtain ⟨⟨c₁, call, next₁⟩, hread, hnext⟩ := Option.bind_eq_some_iff.mp h
  obtain ⟨hfull, rfl, rfl⟩ | ⟨hfull, buffer, result, hbuf, hcases⟩ := readHead_cases hread
  · obtain ⟨rfl, rfl⟩ : c₁ = c' ∧ .abort = next := by simpa using hnext
    exact .inl ⟨rfl, .inl rfl, fun mem parser cbs hp => by simp [parsed, hfull] at hp⟩
  have hparsed : parsed c socket =
      if result.hasError ∨ buffer.back < result.size ∨ (buffer.size : Int) < buffer.back then none
      else some (buffer.buffer, c.head.parser.parse (buffer.back - result.size).toNat
        ((buffer.buffer.drop (buffer.back - result.size).toNat).take result.size.toNat)) := by
    rw [parsed, if_neg hfull, hbuf]
  obtain ⟨herr, rfl, rfl⟩ | ⟨herr, -, hsize, -, rfl, rfl⟩ | ⟨herr, -, hle, hle', -, hhead, rfl⟩ := hcases
  · obtain ⟨rfl, rfl⟩ : _ = c' ∧ .abort = next := by simpa using hnext
    exact .inl ⟨rfl, .inl rfl, fun mem parser cbs hp => by simp [hparsed, herr] at hp⟩
  · obtain ⟨rfl, rfl⟩ : _ = c' ∧ .close = next := by simpa using hnext
    refine .inl ⟨rfl, .inr rfl, fun mem parser cbs hp => ?_⟩
    rw [hparsed] at hp
    split_ifs at hp
    simp only [hsize, Int.toNat_zero, List.take_zero, HttpParser.parse, true_or, if_true,
      Option.some.injEq, Prod.mk.injEq] at hp
    exact hp.2.2.symm
  · have hpass : ¬(result.hasError = true ∨ buffer.back < result.size ∨
        (buffer.size : Int) < buffer.back) := by
      rw [herr]
      simp only [Bool.false_eq_true, false_or]
      omega
    rw [if_neg hpass] at hparsed
    rcases hparse : c.head.parser.parse (buffer.back - result.size).toNat
      ((buffer.buffer.drop (buffer.back - result.size).toNat).take result.size.toNat) with ⟨parser, cbs⟩
    rw [hparse] at hparsed
    have hreq : c₁.head = cbs.foldl (HttpRequest.callback buffer.buffer) { c.head with parser } := by
      rw [hhead]
      simp only [Head.parse, HttpRequest.parse, hparse]
    refine .inr ⟨buffer.buffer, parser, cbs, hparsed, ?_⟩
    simp only [← hreq]
    have hfin : Head.isFinished c₁.head = c₁.head.isFinished := rfl
    have herror : Head.hasError c₁.head = c₁.head.hasError := rfl
    rw [hfin, herror] at hnext
    cases hdone : c₁.head.isFinished with
    | true =>
      simp only [hdone, if_true] at hnext
      obtain ⟨⟨request, ok⟩, hproc, hnext⟩ := Option.bind_eq_some_iff.mp hnext
      obtain ⟨rfl, rfl⟩ : _ = c' ∧ _ = next := by simpa using hnext
      exact .inl ⟨rfl, ok, hproc, rfl⟩
    | false =>
      simp only [hdone, Bool.false_eq_true, if_false] at hnext
      refine .inr ⟨rfl, ?_⟩
      cases herr' : c₁.head.hasError with
      | true =>
        obtain ⟨rfl, rfl⟩ : c₁ = c' ∧ .abort = next := by simpa [herr'] using hnext
        exact ⟨rfl, rfl⟩
      | false =>
        obtain ⟨rfl, rfl⟩ : c₁ = c' ∧ .stay = next := by simpa [herr'] using hnext
        exact ⟨rfl, rfl⟩

/-- Where the parser reports something, the event has the head that the callbacks make. -/
theorem handleStateClientRequest_of_parsed {c : HeadConn HttpRequest} {socket : ReaderOutcome}
    {mem : Bytes} {parser : HttpParser} {cbs : List Callback}
    (hparsed : parsed c socket = some (mem, parser, cbs)) (hcbs : cbs ≠ [])
    (hfin : parser.isFinished = true) :
    ∃ buffer call, handleStateClientRequest c socket = some
      (⟨buffer, cbs.foldl (HttpRequest.callback mem) { c.head with parser }⟩, call, .finished) := by
  unfold parsed at hparsed
  split_ifs at hparsed with hfull
  cases hread : c.buffer.bufferRead socket with
  | none => simp [hread] at hparsed
  | some br =>
    obtain ⟨buffer, result⟩ := br
    simp only [hread] at hparsed
    split_ifs at hparsed with hpass
    rw [not_or, not_or] at hpass
    obtain ⟨herr, hle, hle'⟩ := hpass
    simp only [Option.some.injEq, Prod.mk.injEq] at hparsed
    obtain ⟨rfl, hparse⟩ := hparsed
    have hsize : result.size ≠ 0 := by
      intro h0
      rw [h0, Int.toNat_zero, List.take_zero] at hparse
      simp only [HttpParser.parse, true_or, if_true, Prod.mk.injEq] at hparse
      exact hcbs hparse.2.symm
    have hreq : HttpRequest.parse c.head buffer.buffer (buffer.back - result.size).toNat
        result.size.toNat = cbs.foldl (HttpRequest.callback buffer.buffer) { c.head with parser } := by
      simp only [HttpRequest.parse, hparse]
    have hdone : (cbs.foldl (HttpRequest.callback buffer.buffer) { c.head with parser }).isFinished =
        true := by
      rw [HttpRequest.isFinished, HttpRequest.parser_callbacks]
      exact hfin
    have hoob : ¬(buffer.back - result.size < 0 ∨
        (buffer.size : Int) < buffer.back - result.size + result.size) := by omega
    refine ⟨{ buffer with front := buffer.front + result.size },
      some ⟨buffer.back - result.size, result.size.toNat⟩, ?_⟩
    simp only [handleStateClientRequest, readHead, hfull, hread, if_false, Option.bind_eq_bind,
      Option.bind_some, herr, Bool.false_eq_true, beq_eq_false_iff_ne.mpr hsize, Bool.and_false,
      Bool.false_and, hoob, Head.parse, hreq, Head.isFinished, hdone, if_true]

theorem hasOverflow_processRequestHeaders {r r' : HttpRequest} {ok : Bool}
    (h : processRequestHeaders r = some (r', ok)) : r'.hasOverflow = r.hasOverflow := by
  unfold processRequestHeaders at h
  split at h
  · obtain ⟨rfl, -⟩ : r = r' ∧ false = ok := by simpa using h
    rfl
  · obtain ⟨⟨ret, mem⟩, -, hmem⟩ := Option.map_eq_some_iff.mp h
    obtain ⟨rfl, -⟩ : _ = r' ∧ _ = ok := by simpa using hmem
    rfl

theorem overflowApart_of_noticed {c : HeadConn HttpRequest} {socket : ReaderOutcome}
    (hnoticed : ∀ c' next, clientRequestEvent c socket = some (c', next) →
      c'.head.hasOverflow = true → next = .abort) : OverflowApart c socket := by
  intro mem parser cbs hparsed hfin hproc
  obtain ⟨r', hproc⟩ := hproc
  by_contra hfit
  have hcbs : cbs ≠ [] := by
    rintro rfl
    exact hfit rfl
  obtain ⟨buffer, call, hread⟩ := handleStateClientRequest_of_parsed hparsed hcbs hfin
  have hevent : clientRequestEvent c socket = some (⟨buffer, r'⟩, .work) := by
    simp only [clientRequestEvent, hread, Option.bind_eq_bind, Option.bind_some, hproc, if_true]
  have hover : r'.hasOverflow = true := by
    rw [Bool.not_eq_true] at hfit
    rw [hasOverflow_processRequestHeaders hproc, HttpRequest.hasOverflow_callbacks, hfit]
    exact Bool.or_true _
  cases hnoticed _ _ hevent hover

theorem noticed_of_overflowApart {c c' : HeadConn HttpRequest} {socket : ReaderOutcome} {next : Next}
    (h0 : c.head.hasOverflow = false) (hapart : OverflowApart c socket)
    (h : clientRequestEvent c socket = some (c', next)) (hover : c'.head.hasOverflow = true) :
    next = .abort := by
  obtain ⟨hhead, -, -⟩ | ⟨mem, parser, cbs, hparsed, hcases⟩ := clientRequestEvent_cases h
  · rw [hhead, h0] at hover
    cases hover
  obtain ⟨hfin, ok, hproc, rfl⟩ | ⟨hfin, hhead, rfl⟩ := hcases
  · cases ok with
    | false => rfl
    | true =>
      rw [HttpRequest.isFinished, HttpRequest.parser_callbacks] at hfin
      have hfit := hapart mem parser cbs hparsed hfin ⟨_, hproc⟩
      rw [hasOverflow_processRequestHeaders hproc, HttpRequest.hasOverflow_callbacks, hfit] at hover
      rw [Bool.not_true, Bool.or_false] at hover
      exact absurd (h0.symm.trans hover) (by decide)
  · rw [if_pos]
    rw [← hhead, HttpRequest.hasError, hover]
    simp

/-- The flag stays clear while a head is read on. -/
theorem hasOverflow_of_stay {c c' : HeadConn HttpRequest} {socket : ReaderOutcome}
    (h : clientRequestEvent c socket = some (c', .stay)) : c'.head.hasOverflow = false := by
  obtain ⟨-, hnext, -⟩ | ⟨mem, parser, cbs, -, hcases⟩ := clientRequestEvent_cases h
  · rcases hnext with hnext | hnext <;> cases hnext
  obtain ⟨-, ok, -, hnext⟩ | ⟨-, hhead, hnext⟩ := hcases
  · cases ok <;> cases hnext
  · by_contra hover
    rw [Bool.not_eq_false] at hover
    rw [← hhead, HttpRequest.hasError, hover] at hnext
    simp at hnext

theorem overflowNoticed_iff {c : HeadConn HttpRequest} (h0 : c.head.hasOverflow = false)
    (events : List ReaderOutcome) : OverflowNoticed c events ↔ ApartAtEvents c events := by
  induction events generalizing c with
  | nil => exact Iff.rfl
  | cons socket rest ih =>
    constructor
    · intro h
      refine ⟨overflowApart_of_noticed fun c' next hevent => (h c' next hevent).1, ?_⟩
      exact fun c' hevent => (ih (hasOverflow_of_stay hevent)).mp ((h c' .stay hevent).2 rfl)
    · rintro ⟨hapart, hrest⟩ c' next hevent
      refine ⟨noticed_of_overflowApart h0 hapart hevent, ?_⟩
      rintro rfl
      exact (ih (hasOverflow_of_stay hevent)).mpr (hrest c' hevent)

/-! ### Responses -/

/-- What `populate_response_headers` leaves: a length of `none` stands for -1. -/
structure Populated where
  buffer : IoRingBuffer
  response : HttpResponse
  length : Option Nat
  aborts : Nat
deriving DecidableEq, Repr

/-- `populate_response_headers` with a handler whose `populate_response` makes the given calls
and returns `ok`. -/
def populateResponseHeaders (b : IoRingBuffer) (r : HttpResponse) (calls : List ResponseCall)
    (ok : Bool) : Option Populated :=
  let r := calls.foldl HttpResponse.call r
  let aborts := if ok then 0 else 1
  match r.toBuffer b.size with
  | none => some ⟨b.reset, r, none, aborts + 1⟩
  | some header => (populateBuffer b header).map fun b => ⟨b, r, some header.length, aborts⟩

/-- A response that overflowed is not put in the buffer, which is left as after a reset. -/
def OverflowDropped (b : IoRingBuffer) (p : Populated) : Prop :=
  p.response.hasOverflow = true → p.length = none ∧ p.buffer = b.reset

theorem overflowDropped_iff {r : HttpResponse} (h0 : r.hasOverflow = false) (b : IoRingBuffer)
    (calls : List ResponseCall) (ok : Bool) {p : Populated}
    (h : populateResponseHeaders b r calls ok = some p) :
    OverflowDropped b p ↔
      r.allFit calls = true ∨ (calls.foldl HttpResponse.call r).toBuffer b.size = none := by
  have hover := r.hasOverflow_calls calls
  rw [h0, Bool.false_or] at hover
  unfold populateResponseHeaders at h
  simp only at h
  cases htext : (calls.foldl HttpResponse.call r).toBuffer b.size with
  | none =>
    simp only [htext, Option.some.injEq] at h
    subst h
    exact iff_of_true (fun _ => ⟨rfl, rfl⟩) (.inr rfl)
  | some header =>
    simp only [htext] at h
    obtain ⟨b', -, rfl⟩ := Option.map_eq_some_iff.mp h
    simp [OverflowDropped, hover]

/-- Overflow is noticed in a run that reads a head exactly when no read that ends a head with a
path to work on gives more to store than fits, and when a response is populated exactly when
everything fits or the text does not fit the buffer either. -/
theorem overflow_noticed_iff {c : HeadConn HttpRequest} {r : HttpResponse} {p : Populated}
    (hc : c.head.hasOverflow = false) (events : List ReaderOutcome) (hr : r.hasOverflow = false)
    (b : IoRingBuffer) (calls : List ResponseCall) (ok : Bool)
    (hp : populateResponseHeaders b r calls ok = some p) :
    (OverflowNoticed c events ↔ ApartAtEvents c events) ∧
      (OverflowDropped b p ↔
        r.allFit calls = true ∨ (calls.foldl HttpResponse.call r).toBuffer b.size = none) :=
  ⟨overflowNoticed_iff hc events, overflowDropped_iff hr b calls ok hp⟩

/-- `GET / HTTP/1.0` and the field `A: b`, with the empty line, in bytes. -/
def overflowHead : Bytes :=
  [71, 69, 84, 32, 47, 32, 72, 84, 84, 80, 47, 49, 46, 48, 10, 65, 58, 32, 98, 10, 10]

/-- A connection with room for 20 bytes of strings. -/
def overflowConn : HeadConn HttpRequest := ⟨.resize (List.replicate 32 0), .resize 20 4⟩

def overflowCalls : List ResponseCall :=
  [.setHttpVersion [72, 84, 84, 80, 47, 49, 46, 49], .setStatusCode 200, .setReasonPhrase [79, 75],
    .setHeaderField [65] [98]]

/-- The head in two reads, of which the first overflows, and a response for which there is room. -/
theorem overflow_noticed_two_reads :
    (overflowConn.head.hasOverflow = false ∧
      OverflowNoticed overflowConn [.data (overflowHead.take 20), .data (overflowHead.drop 20)]) ∧
    ∃ p, populateResponseHeaders (.resize (List.replicate 32 0)) (.resize 16 4) overflowCalls true =
      some p ∧ OverflowDropped (.resize (List.replicate 32 0)) p := by
  have hfin : (parsed overflowConn (.data (overflowHead.take 20))).map (·.2.1.isFinished) =
      some false := by decide +kernel
  have hnext : (clientRequestEvent overflowConn (.data (overflowHead.take 20))).map (·.2) =
      some .abort := by decide +kernel
  obtain ⟨p, hp⟩ : ∃ p, populateResponseHeaders (.resize (List.replicate 32 0)) (.resize 16 4)
    overflowCalls true = some p := ⟨_, rfl⟩
  have hfit : (HttpResponse.resize 16 4).allFit overflowCalls = true := by decide
  obtain ⟨hrequest, hresponse⟩ := overflow_noticed_iff (show overflowConn.head.hasOverflow = false from rfl)
    [.data (overflowHead.take 20), .data (overflowHead.drop 20)]
    (show (HttpResponse.resize 16 4).hasOverflow = false from rfl) _ overflowCalls true hp
  refine ⟨⟨rfl, hrequest.mpr ⟨?_, ?_⟩⟩, p, hp, hresponse.mpr (.inl hfit)⟩
  · intro mem parser cbs hparsed hdone
    rw [hparsed, Option.map_some, Option.some.injEq] at hfin
    exact absurd (hdone.symm.trans hfin) (by decide)
  · intro c' hevent
    rw [hevent] at hnext
    cases hnext

/-- The head in one read goes to a worker without its field, and a response goes to the buffer
without the field for which there was no room. -/
theorem overflow_ignored_one_read :
    ¬OverflowNoticed overflowConn [.data overflowHead] ∧
    ∃ p, populateResponseHeaders (.resize (List.replicate 32 0)) (.resize 14 4) overflowCalls true =
      some p ∧ ¬OverflowDropped (.resize (List.replicate 32 0)) p := by
  constructor
  · intro h
    have hevent : (clientRequestEvent overflowConn (.data overflowHead)).map
        (fun x => (x.1.head.hasOverflow, x.2)) = some (true, .work) := by decide +kernel
    obtain ⟨⟨c', next⟩, hsome, hpair⟩ := Option.map_eq_some_iff.mp hevent
    obtain ⟨hover, rfl⟩ := Prod.mk.inj hpair
    cases (h c' .work hsome).1 hover
  · refine ⟨_, rfl, fun h => ?_⟩
    exact absurd (h (by decide)).1 (by decide)

end Latypus.Server
