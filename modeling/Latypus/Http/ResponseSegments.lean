import Latypus.Http.RequestSegments
import Latypus.Http.ResponseRoundTrip

/-! A response that is fed a text in chunks is the response that is fed the text at once, and what
stands behind the head changes nothing but the place of the body. -/

namespace Latypus.Http

/-- "HTTP/1.1" -/
def version11 : Bytes := [72, 84, 84, 80, 47, 49, 46, 49]

theorem isVersion_version11 : IsVersion version11 :=
  ⟨[49], [49], by decide, by decide, by decide, by decide, rfl⟩

/-- "Host" -/
def headerHost : Bytes := [72, 111, 115, 116]

namespace HttpResponse

theorem callback_withParser (mem : Bytes) (r : HttpResponse) (p : HttpParser) (cb : Callback) :
    callback mem { r with parser := p } cb = { callback mem r cb with parser := p } := by
  cases cb <;> rfl

theorem foldl_callback_withParser (mem : Bytes) (r : HttpResponse) (p : HttpParser) (cbs : List Callback) :
    cbs.foldl (callback mem) { r with parser := p } =
      { cbs.foldl (callback mem) r with parser := p } := by
  induction cbs generalizing r with
  | nil => rfl
  | cons cb cbs ih => rw [List.foldl_cons, callback_withParser, ih, List.foldl_cons]

theorem parser_callbacks (mem : Bytes) (r : HttpResponse) (cbs : List Callback) :
    (cbs.foldl (callback mem) r).parser = r.parser := by
  induction cbs generalizing r with
  | nil => rfl
  | cons cb cbs ih =>
    rw [List.foldl_cons, ih]
    cases cb <;> rfl

/-- A callback reads nothing but the bytes fed so far. -/
theorem callback_congr {mem mem' text : Bytes} {cb : Callback} (hmem : mem.take text.length = text)
    (hmem' : mem'.take text.length = text) (hsound : cb.Sound 0 text) (r : HttpResponse) :
    callback mem r cb = callback mem' r cb := by
  have heq : ∀ str w, str.Holds 0 text w → bytesAt mem str = bytesAt mem' str := by
    intro str w hholds
    rw [RequestMemory.bytesAt_of_holds (by simpa using hmem) hholds,
      RequestMemory.bytesAt_of_holds (by simpa using hmem') hholds]
  cases cb with
  | setHeaderField name value =>
    obtain ⟨⟨w, hname, -⟩, w', hvalue, -⟩ := hsound
    simp only [callback, heq name w hname, heq value w' hvalue]
  | setHttpVersion str | setReasonPhrase str | setStatusCode str =>
    obtain ⟨w, hholds⟩ := hsound
    simp only [callback, heq str w hholds]
  | setParseType _ | setBodyStart _ | setRequestMethod _ | setRequestUri _ | setFragment _
  | setRequestPath _ | setQueryString _ => rfl

theorem foldl_callback_congr {mem mem' text : Bytes} {cbs : List Callback}
    (hmem : mem.take text.length = text) (hmem' : mem'.take text.length = text)
    (hsound : ∀ cb ∈ cbs, cb.Sound 0 text) (r : HttpResponse) :
    cbs.foldl (callback mem) r = cbs.foldl (callback mem') r := by
  induction cbs generalizing r with
  | nil => rfl
  | cons cb cbs ih =>
    rw [List.foldl_cons, List.foldl_cons, callback_congr hmem hmem' (hsound cb List.mem_cons_self),
      ih fun cb' hcb' => hsound cb' (List.mem_cons_of_mem cb hcb')]

/-- The response `r`, once it has been reset, of a text that is fed at once. -/
def ofText (r : HttpResponse) (text : Bytes) : HttpResponse := r.reset.parse text 0 text.length

variable {r : HttpResponse}

theorem ofText_eq (text : Bytes) : r.ofText text =
    (HttpParser.reset.parse 0 text).2.foldl (callback text)
      { r.reset with parser := (HttpParser.reset.parse 0 text).1 } := by
  simp only [ofText, parse, List.drop_zero, List.take_length]
  rfl

theorem parser_ofText (text : Bytes) : (r.ofText text).parser = (HttpParser.reset.parse 0 text).1 := by
  rw [ofText_eq, parser_callbacks]

/-- One more chunk of the text. -/
theorem parse_ofText {mem text chunk : Bytes} (hlive : HttpParser.scanner.stops (r.ofText text).parser = false)
    (hmem : mem.take (text ++ chunk).length = text ++ chunk) :
    (r.ofText text).parse mem text.length chunk.length = r.ofText (text ++ chunk) := by
  rw [parser_ofText] at hlive
  have happend := HttpParser.parse_append text chunk hlive
  have hchunk : (mem.drop text.length).take chunk.length = chunk := by
    have hdrop := congrArg (List.drop text.length) hmem
    rwa [List.drop_take, List.length_append, Nat.add_sub_cancel_left, List.drop_left] at hdrop
  have hsound := HttpRequest.sound_ofText (text ++ chunk)
  rw [happend] at hsound
  have htext : (text ++ chunk).take text.length = text := List.take_left
  rw [parse, parser_ofText, hchunk]
  simp only
  rw [ofText_eq, ofText_eq, happend, List.foldl_append, ← foldl_callback_withParser,
    foldl_callback_congr List.take_length htext (HttpRequest.sound_ofText text)]
  exact foldl_callback_congr hmem List.take_length
    (fun cb hcb => hsound cb (List.mem_append_right _ hcb)) _

end HttpResponse

/-- A response head as a serialiser writes it. -/
structure ResponseHead where
  version : Bytes
  status : Int
  reason : Bytes
  fields : List (Bytes × Bytes)
  isVersion : IsVersion version
  status_digits : 100 ≤ status ∧ status ≤ 999
  reason_ne_nil : reason ≠ []
  reason_text : reason.all isText
  isField : ∀ f ∈ fields, IsField f
  names : (fields.map Prod.fst).Nodup

namespace ResponseHead
open HttpParser

variable (h : ResponseHead)

def bytes : Bytes := HttpResponse.head h.version h.status h.reason h.fields

theorem bytes_ne_nil : h.bytes ≠ [] := by
  have hlines : fieldLines h.fields ≠ [] := by
    cases h.fields with
    | nil => exact List.cons_ne_nil _ _
    | cons field rest => simp [fieldLines, fieldLine]
  simp [bytes, HttpResponse.head, hlines]

/-- The parser on a whole response head with a piece of the body behind it. -/
theorem parse_bytes (rest : Bytes) : ∃ t : HttpParser, t.cs = firstFinal ∧ t.nread = h.bytes.length ∧
    reset.parse 0 (h.bytes ++ rest) = (t, statusCallbacks 0 h.version h.reason ++ .setParseType .response ::
      (fieldCallbacks (statusLine h.version h.status h.reason).length h.fields ++
        [.setBodyStart ⟨some h.bytes.length, rest.length⟩])) := by
  obtain ⟨t, ht, hlines⟩ := passes_fieldLines (s := ⟨70, 0, _, none, none, 0⟩) h.isField
    (.inr (.inr rfl)) (0 + (statusLine h.version h.status h.reason).length)
  have hparse := parse_of_passes (m := h.bytes)
    ((passes_statusLine h.isVersion h.status_digits h.reason_ne_nil h.reason_text 0 0 none none none
      0).append hlines)
  have hstops : scanner.stops (reset.parse 0 h.bytes).1 = true := by
    rw [hparse]
    simp [scanner, isFinished, ht]
  have hlen : (statusLine h.version h.status h.reason).length + (fieldLines h.fields).length = h.bytes.length := by
    rw [bytes, HttpResponse.head, List.length_append]
  refine ⟨{ t with nread := h.bytes.length }, ht, rfl, ?_⟩
  rw [parse_append_of_stops _ rest hstops, hparse]
  simp [map_endAt_fieldCallbacks, Callback.endAt, statusCallbacks, lead, hlen]

/-- The beginning of a head needs more. -/
theorem not_stops {text rest : Bytes} (hhead : h.bytes = text ++ rest) (hrest : rest ≠ []) :
    scanner.stops (reset.parse 0 text).1 = false := by
  obtain ⟨t, -, hnread, hparse⟩ := h.parse_bytes []
  by_contra hstops
  rw [Bool.not_eq_false] at hstops
  rw [List.append_nil] at hparse
  have hwhole : (reset.parse 0 h.bytes).1.nread = h.bytes.length := by rw [hparse, hnread]
  rw [hhead, parse_append_of_stops text rest hstops, List.length_append] at hwhole
  have hle := nread_le text
  have hpos := List.length_pos_of_ne_nil hrest
  replace hwhole : (reset.parse 0 text).1.nread = text.length + rest.length := hwhole
  omega

end ResponseHead

namespace HttpResponse

variable {r : HttpResponse}

/-- What a response holds that has been fed a head and a piece of the body. The carriage return behind
the reason phrase stays with it. -/
theorem ofText_bytes (h : ResponseHead) (rest : Bytes) (hcapacity : 2 * h.bytes.length ≤ r.store.capacity)
    (hmax : h.fields.length ≤ r.store.maxHeaders) :
    ∃ t offset, t.cs = HttpParser.firstFinal ∧ r.ofText (h.bytes ++ rest) =
      ⟨t, ⟨r.store.capacity, offset, r.store.maxHeaders, h.fields, h.fields, false⟩, .response,
        ⟨some h.bytes.length, rest.length⟩, some h.version, some (h.reason ++ [13]), h.status⟩ := by
  obtain ⟨t, ht, -, hparse⟩ := h.parse_bytes rest
  have hspace : h.version.length + 2 * h.reason.length + 4 + HeaderStore.space h.fields ≤ r.store.capacity := by
    have hle := space_le_length h.fields
    obtain ⟨a, b, c, habc, -⟩ := HttpParser.decimal_status h.status_digits.1 h.status_digits.2
    simp only [ResponseHead.bytes, head, HttpParser.statusLine, habc, List.length_append, List.length_cons,
      List.length_nil] at hcapacity
    omega
  -- all callbacks but the last read the head only
  obtain ⟨t', -, -, hhead⟩ := h.parse_bytes []
  have hsound : ∀ cb ∈ HttpParser.statusCallbacks 0 h.version h.reason ++ .setParseType .response ::
      HttpParser.fieldCallbacks (HttpParser.statusLine h.version h.status h.reason).length h.fields,
      cb.Sound 0 h.bytes := by
    intro cb hcb
    rw [List.append_nil] at hhead
    refine HttpRequest.sound_ofText h.bytes cb ?_
    rw [hhead, ← List.cons_append, ← List.append_assoc]
    exact List.mem_append_left _ hcb
  have hdrop : h.bytes.drop (HttpParser.statusLine h.version h.status h.reason).length = fieldLines h.fields :=
    List.drop_left
  have hline : h.bytes.drop 0 = HttpParser.statusLine h.version h.status h.reason ++ fieldLines h.fields := rfl
  have hstore := HeaderStore.setFields_of_le h.fields
    (s := ⟨r.store.capacity, h.version.length + 2 * h.reason.length + 4, r.store.maxHeaders, [], [], false⟩)
    (by simpa using hmax) (by simpa using h.names) hspace
  refine ⟨t, h.version.length + 2 * h.reason.length + 4 + HeaderStore.space h.fields, ht, ?_⟩
  rw [ofText_eq, hparse, ← List.cons_append, ← List.append_assoc, List.foldl_append,
    foldl_callback_congr List.take_left List.take_length hsound, List.foldl_append,
    foldl_statusCallbacks _ h.status_digits hline
      (by simp only [reset, resize, HeaderStore.resize]; omega)]
  simp only [List.foldl_cons, List.foldl_nil]
  rw [foldl_fieldCallbacks _ hdrop]
  simp only [reset, resize, HeaderStore.resize, callback, Nat.zero_add, hstore, List.nil_append]

end HttpResponse
end Latypus.Http
