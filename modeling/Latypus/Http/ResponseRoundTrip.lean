import Latypus.Http.Fields

/-! A response that is serialised and parsed again. Everything comes back as it was but the
reason phrase: the carriage return behind it does not end the phrase, so the parser reports the
phrase a second time with the carriage return in it. -/

namespace Latypus.Http
open Lib

namespace HttpParser

/-- The decimal form of a status code is three digits that `atoi` reads back. -/
theorem decimal_status {status : Int} (h : 100 ≤ status) (h' : status ≤ 999) :
    ∃ a b c, decimal status = [a, b, c] ∧ isDigit a ∧ isDigit b ∧ isDigit c ∧
      atoi (decimal status) = status := by
  obtain ⟨n, rfl⟩ := Int.eq_ofNat_of_zero_le (show 0 ≤ status by omega)
  have hdigits : Nat.toDigits 10 n =
      [(n / 100).digitChar, (n / 10 % 10).digitChar, (n % 10).digitChar] := by
    rw [Nat.toDigits_of_base_le (by omega) (by omega), Nat.toDigits_of_base_le (by omega) (by omega),
      Nat.toDigits_of_lt_base (by omega), Nat.div_div_eq_div_mul]
    rfl
  have hdecimal : decimal n = [UInt8.ofNat (n / 100).digitChar.toNat,
      UInt8.ofNat (n / 10 % 10).digitChar.toNat, UInt8.ofNat (n % 10).digitChar.toNat] := by
    simp [decimal, hdigits]
  refine ⟨_, _, _, hdecimal, (digitChar_byte (n / 100) (by omega)).1,
    (digitChar_byte (n / 10 % 10) (by omega)).1, (digitChar_byte (n % 10) (by omega)).1, ?_⟩
  exact (decimal_spec (by omega)).2.2

def statusLine (version : Bytes) (status : Int) (reason : Bytes) : Bytes :=
  version ++ [32] ++ decimal status ++ [32] ++ reason ++ [13, 10]

/-- The callbacks of a status line at position `p`: the reason phrase is reported at the
carriage return and once more at the line feed. -/
def statusCallbacks (p : Nat) (version reason : Bytes) : List Callback :=
  [.setHttpVersion ⟨some p, version.length⟩, .setStatusCode ⟨some (p + version.length + 1), 3⟩,
    .setReasonPhrase ⟨some (p + version.length + 5), reason.length⟩,
    .setReasonPhrase ⟨some (p + version.length + 5), reason.length + 1⟩]

theorem passes_reason {reason : Bytes} (hne : reason ≠ []) (hreason : reason.all isText)
    (p n : Nat) (m qs fs : Option Nat) (fl : Nat) :
    scanner.Passes (reason ++ [13, 10]) p ⟨68, n, m, qs, fs, fl⟩ ⟨70, n, some p, qs, fs, fl⟩
      [.setReasonPhrase ⟨some p, reason.length⟩, .setReasonPhrase ⟨some p, reason.length + 1⟩] := by
  have h68 : ∀ c, isText c → next 68 c = (69, [0]) := forall_byte (by decide +kernel)
  have h69 : ∀ c, isText c → next 69 c = (69, []) := forall_byte (by decide +kernel)
  have hcr : next 69 13 = (69, [13]) := by decide +kernel
  have hlf : next 69 10 = (70, [13]) := by decide +kernel
  cases reason with
  | nil => exact absurd rfl hne
  | cons c reason =>
    rw [List.all_cons, Bool.and_eq_true] at hreason
    have h1 := passes_next (h68 c hreason.1) (by decide) (by decide) p n m qs fs fl
    have h2 := passes_loop (by decide) (fun c hc => h69 c (List.all_eq_true.mp hreason.2 c hc))
      (p + 1) n (some p) qs fs fl
    have h3 := passes_next hcr (by decide) (by decide) (p + 1 + reason.length) n (some p) qs fs fl
    have h4 := passes_next hlf (by decide) (by decide) (p + 1 + reason.length + 1) n (some p) qs fs fl
    have hlen : p + 1 + reason.length - p = reason.length + 1 := by omega
    have hlen' : p + 1 + reason.length + 1 - p = reason.length + 1 + 1 := by omega
    simpa [actionLoop, action, slice, hlen, hlen'] using h1.cons (h2.append (h3.cons h4))

theorem passes_statusLine {version reason : Bytes} {status : Int} (hv : IsVersion version)
    (hstatus : 100 ≤ status ∧ status ≤ 999) (hne : reason ≠ []) (hreason : reason.all isText)
    (p n : Nat) (m qs fs : Option Nat) (fl : Nat) :
    scanner.Passes (statusLine version status reason) p ⟨1, n, m, qs, fs, fl⟩
      ⟨70, n, some (p + version.length + 5), qs, fs, fl⟩ (statusCallbacks p version reason) := by
  obtain ⟨a, b, c, habc, ha, hb, hc, -⟩ := decimal_status hstatus.1 hstatus.2
  have hsp : next 63 32 = (64, [10]) := by decide +kernel
  have h64 : ∀ c, isDigit c → next 64 c = (65, [0]) := forall_byte (by decide +kernel)
  have h65 : ∀ c, isDigit c → next 65 c = (66, []) := forall_byte (by decide +kernel)
  have h66 : ∀ c, isDigit c → next 66 c = (67, []) := forall_byte (by decide +kernel)
  have hsp' : next 67 32 = (68, [12]) := by decide +kernel
  set k := p + version.length with hk
  have h1 := passes_version hv (.inr ⟨rfl, rfl⟩) p n m qs fs fl
  have h2 := passes_next hsp (by decide) (by decide) k n (some p) qs fs fl
  have h3 := passes_next (h64 a ha) (by decide) (by decide) (k + 1) n (some p) qs fs fl
  have h4 := passes_next (h65 b hb) (by decide) (by decide) (k + 1 + 1) n (some (k + 1)) qs fs fl
  have h5 := passes_next (h66 c hc) (by decide) (by decide) (k + 1 + 1 + 1) n (some (k + 1)) qs fs fl
  have h6 := passes_next hsp' (by decide) (by decide) (k + 1 + 1 + 1 + 1) n (some (k + 1)) qs fs fl
  have h7 := passes_reason hne hreason (k + 1 + 1 + 1 + 1 + 1) n (some (k + 1)) qs fs fl
  have hlen : k - p = version.length := by omega
  have hlen' : k + 1 + 1 + 1 + 1 - (k + 1) = 3 := by omega
  simpa [statusLine, statusCallbacks, habc, actionLoop, action, slice, hlen, hlen', ← hk] using
    h1.append (h2.cons (h3.cons (h4.cons (h5.cons (h6.cons h7)))))

/-- The parser on a whole response head. -/
theorem parse_responseHead {version reason : Bytes} {status : Int} {fields : List (Bytes × Bytes)}
    (hv : IsVersion version) (hstatus : 100 ≤ status ∧ status ≤ 999) (hne : reason ≠ [])
    (hreason : reason.all isText) (hfields : ∀ f ∈ fields, IsField f) :
    let m := statusLine version status reason ++ fieldLines fields
    ∃ t body, t.cs = firstFinal ∧ t.nread = m.length ∧
      reset.parse 0 m = (t, statusCallbacks 0 version reason ++ .setParseType .response ::
        (fieldCallbacks (statusLine version status reason).length fields ++ [.setBodyStart body])) := by
  intro m
  obtain ⟨t, ht, hlines⟩ := passes_fieldLines (s := ⟨70, 0, _, none, none, 0⟩) hfields
    (.inr (.inr rfl)) (0 + (statusLine version status reason).length)
  have hparse := parse_of_passes (m := m)
    ((passes_statusLine hv hstatus hne hreason 0 0 none none none 0).append hlines)
  simp only [List.map_append, List.map_cons, List.map_nil, map_endAt_fieldCallbacks,
    Callback.endAt, Nat.zero_add] at hparse
  exact ⟨{ t with nread := m.length }, _, ht, rfl, hparse⟩

end HttpParser

namespace HttpResponse

/-- The responses the serialiser is meant for. -/
structure WellFormed (r : HttpResponse) (version reason : Bytes) : Prop where
  httpVersion_eq : r.httpVersion = some version
  isVersion : IsVersion version
  status : 100 ≤ r.statusCode ∧ r.statusCode ≤ 999
  reasonPhrase_eq : r.reasonPhrase = some reason
  reason_ne_nil : reason ≠ []
  reason_text : reason.all isText
  fields : ∀ f ∈ r.store.headerList, IsField f
  names : (r.store.headerList.map Prod.fst).Nodup

/-- The bytes of the serialised response. -/
def head (version : Bytes) (status : Int) (reason : Bytes) (fields : List (Bytes × Bytes)) : Bytes :=
  HttpParser.statusLine version status reason ++ fieldLines fields

variable {r : HttpResponse} {version reason : Bytes}

theorem WellFormed.toBuffer_eq (h : r.WellFormed version reason) (bufferSize : Nat) :
    r.toBuffer bufferSize =
      if (head version r.statusCode reason r.store.headerList).length < bufferSize then
        some (head version r.statusCode reason r.store.headerList)
      else none := by
  have hline : (HttpParser.statusLine version r.statusCode reason).length =
      version.length + (decimal r.statusCode).length + reason.length + 4 := by
    simp [HttpParser.statusLine]
    omega
  simp only [toBuffer, h.httpVersion_eq, h.reasonPhrase_eq, headerLines_eq, ← hline]
  by_cases hfit : (HttpParser.statusLine version r.statusCode reason).length < bufferSize
  · rw [if_pos hfit]
    rfl
  · rw [if_neg hfit, if_neg]
    rw [head, List.length_append]
    omega

/-- What the callbacks of a status line leave in a response. -/
theorem foldl_statusCallbacks {mem rest : Bytes} {p : Nat} {status : Int} (r : HttpResponse)
    (hstatus : 100 ≤ status ∧ status ≤ 999)
    (hmem : mem.drop p = HttpParser.statusLine version status reason ++ rest)
    (hspace : r.store.bufferOffset + (version.length + 2 * reason.length + 4) ≤ r.store.capacity) :
    (HttpParser.statusCallbacks p version reason).foldl (callback mem) r =
      { r with
        store := { r.store with
          bufferOffset := r.store.bufferOffset + (version.length + 2 * reason.length + 4) }
        httpVersion := some version
        statusCode := status
        reasonPhrase := some (reason ++ [13]) } := by
  obtain ⟨a, b, c, habc, -, -, -, hatoi⟩ := HttpParser.decimal_status hstatus.1 hstatus.2
  -- where the three pieces stand
  have hversion : mem.drop p = version ++ ([32, a, b, c, 32] ++ reason ++ [13, 10] ++ rest) := by
    simpa [HttpParser.statusLine, habc] using hmem
  have hcode : mem.drop (p + version.length + 1) =
      [a, b, c] ++ ([32] ++ reason ++ [13, 10] ++ rest) := by
    have := drop_of_drop (w := version ++ [32]) (by simpa using hversion)
    simpa [Nat.add_assoc] using this
  have hphrase : mem.drop (p + version.length + 5) = reason ++ ([13, 10] ++ rest) := by
    have := drop_of_drop (w := version ++ [32, a, b, c, 32]) (by simpa using hversion)
    simpa [Nat.add_assoc] using this
  have hphrase' : mem.drop (p + version.length + 5) = (reason ++ [13]) ++ ([10] ++ rest) := by
    simpa using hphrase
  have hbytes : bytesAt mem ⟨some (p + version.length + 1), 3⟩ = [a, b, c] := bytesAt_of_drop hcode
  have hbytes' : bytesAt mem ⟨some (p + version.length + 5), reason.length + 1⟩ = reason ++ [13] := by
    simpa using bytesAt_of_drop hphrase'
  simp only [HttpParser.statusCallbacks, List.foldl_cons, List.foldl_nil, callback,
    bytesAt_of_drop hversion, bytesAt_of_drop hphrase, hbytes, hbytes']
  rw [HeaderStore.allocString_of_le (s := r.store) version (by omega)]
  rw [HeaderStore.allocString_of_le reason (by dsimp only; omega)]
  rw [HeaderStore.allocString_of_le (reason ++ [13])
    (by simp only [List.length_append, List.length_singleton]; omega)]
  have hoffset : r.store.bufferOffset + (version.length + 1) + (reason.length + 1) +
      ((reason ++ [13]).length + 1) =
      r.store.bufferOffset + (version.length + 2 * reason.length + 4) := by
    simp only [List.length_append, List.length_singleton]
    omega
  rw [← habc, hatoi]
  simp only [hoffset]

/-- What the callbacks of a whole head leave in a fresh response. -/
theorem foldl_headCallbacks {status : Int} {fields : List (Bytes × Bytes)}
    {capacity maxHeaders : Nat} (t : HttpParser) (body : HeaderString)
    (hstatus : 100 ≤ status ∧ status ≤ 999) (hnames : (fields.map Prod.fst).Nodup)
    (hspace : version.length + 2 * reason.length + 4 + HeaderStore.space fields ≤ capacity)
    (hmax : fields.length ≤ maxHeaders) :
    (HttpParser.statusCallbacks 0 version reason ++ Callback.setParseType .response ::
      (HttpParser.fieldCallbacks (HttpParser.statusLine version status reason).length fields ++
        [Callback.setBodyStart body])).foldl (callback (head version status reason fields))
      ⟨t, ⟨capacity, 0, maxHeaders, [], [], false⟩, .none, ⟨none, 0⟩, none, none, 0⟩ =
    ⟨t, ⟨capacity, version.length + 2 * reason.length + 4 + HeaderStore.space fields, maxHeaders,
      fields, fields, false⟩, .response, body, some version, some (reason ++ [13]), status⟩ := by
  have hstore := HeaderStore.setFields_of_le fields
    (s := ⟨capacity, version.length + 2 * reason.length + 4, maxHeaders, [], [], false⟩)
    (by simpa using hmax) (by simpa using hnames) hspace
  have hdrop : (head version status reason fields).drop
      (HttpParser.statusLine version status reason).length = fieldLines fields := List.drop_left
  rw [List.foldl_append, foldl_statusCallbacks _ hstatus rfl (by simp only; omega), List.foldl_cons,
    List.foldl_append, foldl_fieldCallbacks _ hdrop]
  simp only [Nat.zero_add, callback, hstore, List.nil_append, List.foldl_cons, List.foldl_nil]

/-- Parsing a serialised response recovers everything but the reason phrase, which has the
carriage return of the line ending at its end. -/
theorem parse_head {status : Int} {fields : List (Bytes × Bytes)} {capacity maxHeaders : Nat}
    (hversion : IsVersion version) (hstatus : 100 ≤ status ∧ status ≤ 999) (hne : reason ≠ [])
    (hreason : reason.all isText) (hfields : ∀ f ∈ fields, IsField f)
    (hnames : (fields.map Prod.fst).Nodup)
    (hcapacity : 2 * (head version status reason fields).length ≤ capacity)
    (hmax : fields.length ≤ maxHeaders) :
    let m := head version status reason fields
    let r := (resize capacity maxHeaders).parse m 0 m.length
    r.isFinished = true ∧ r.hasError = false ∧ r.parser.nread = m.length ∧
      r.httpVersion = some version ∧ r.statusCode = status ∧
      r.reasonPhrase = some (reason ++ [13]) ∧ r.store.headerList = fields := by
  intro m r
  obtain ⟨t, body, ht, hnread, hparse⟩ :=
    HttpParser.parse_responseHead hversion hstatus hne hreason hfields
  have hspace : version.length + 2 * reason.length + 4 + HeaderStore.space fields ≤ capacity := by
    have hle := space_le_length fields
    simp only [head, HttpParser.statusLine, List.length_append, List.length_cons, List.length_nil]
      at hcapacity
    omega
  have hfold := foldl_headCallbacks t body hstatus hnames hspace hmax
  have hr : r = _ := Eq.trans (by
    simp only [r, parse, List.drop_zero, List.take_length, resize, HeaderStore.resize, m, head, hparse])
    hfold
  rw [hr]
  refine ⟨?_, ?_, hnread, rfl, rfl, rfl, rfl⟩
  · simp [isFinished, HttpParser.isFinished, ht]
  · simp [hasError, hasOverflow, HttpParser.hasError, HttpParser.isFinished, ht,
      HttpParser.firstFinal, HttpParser.error]

/-- The round trip of a response through `to_buffer` and a fresh object of the given size. -/
def RoundTrips (r : HttpResponse) (bufferSize capacity maxHeaders : Nat) : Prop :=
  ∀ m, r.toBuffer bufferSize = some m →
    let r' := (resize capacity maxHeaders).parse m 0 m.length
    r'.isFinished = true ∧ r'.hasError = false ∧ r'.parser.nread = m.length ∧
      r'.httpVersion = r.httpVersion ∧ r'.statusCode = r.statusCode ∧
      r'.reasonPhrase = r.reasonPhrase ∧ r'.store.headerList = r.store.headerList

/-- The round trip fails whenever `to_buffer` succeeds: it holds only where the buffer is too
small for the head. -/
theorem WellFormed.roundTrips_iff_short {bufferSize capacity maxHeaders : Nat}
    (h : r.WellFormed version reason)
    (hcapacity : 2 * (head version r.statusCode reason r.store.headerList).length ≤ capacity)
    (hmax : r.store.headerList.length ≤ maxHeaders) :
    r.RoundTrips bufferSize capacity maxHeaders ↔
      bufferSize ≤ (head version r.statusCode reason r.store.headerList).length := by
  have hparse := parse_head h.isVersion h.status h.reason_ne_nil h.reason_text h.fields h.names
    hcapacity hmax
  constructor
  · intro htrip
    by_contra hlt
    have hreason := (htrip _ (by rw [h.toBuffer_eq, if_pos (by omega)])).2.2.2.2.2.1
    rw [hparse.2.2.2.2.2.1, h.reasonPhrase_eq, Option.some.injEq] at hreason
    simpa using congrArg List.length hreason
  · intro hle m hm
    rw [h.toBuffer_eq, if_neg (by omega)] at hm
    cases hm

/-- A response with status 200, reason "OK" and no header fields. -/
def ok : HttpResponse :=
  { resize 64 4 with
    httpVersion := some [72, 84, 84, 80, 47, 49, 46, 49]
    reasonPhrase := some [79, 75]
    statusCode := 200 }

theorem ok_wellFormed : ok.WellFormed [72, 84, 84, 80, 47, 49, 46, 49] [79, 75] where
  httpVersion_eq := rfl
  isVersion := ⟨[49], [49], by decide⟩
  status := by decide
  reasonPhrase_eq := rfl
  reason_ne_nil := by decide
  reason_text := by decide
  fields := by simp [ok, resize, HeaderStore.resize]
  names := by decide

theorem WellFormed.roundTrips_ok_sizes : ok.RoundTrips 19 64 4 ∧ ¬ ok.RoundTrips 20 64 4 :=
  ⟨(ok_wellFormed.roundTrips_iff_short (by decide) (by decide)).mpr (by decide),
    fun h => absurd ((ok_wellFormed.roundTrips_iff_short (by decide) (by decide)).mp h) (by decide)⟩

/-- "HTTP/1.1 200 OK" comes back with the reason phrase "OK\r". -/
theorem roundTrips_fails_ok : ok.WellFormed [72, 84, 84, 80, 47, 49, 46, 49] [79, 75] ∧
    (ok.toBuffer 64).isSome = true ∧ ¬ ok.RoundTrips 64 64 4 := by
  refine ⟨ok_wellFormed, by decide, fun h => ?_⟩
  have hout : ok.toBuffer 64 = some [72, 84, 84, 80, 47, 49, 46, 49, 32, 50, 48, 48, 32, 79, 75,
    13, 10, 13, 10] := by decide
  have hreason := (h _ hout).2.2.2.2.2.1
  revert hreason
  decide +kernel

end HttpResponse
end Latypus.Http
