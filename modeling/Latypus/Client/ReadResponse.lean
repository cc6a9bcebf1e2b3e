import Latypus.Client.ResponseBody
import Latypus.Http.ResponseSegments
import Latypus.Server.HeaderOverflow

/-! What the reads of a response leave with the client: as long as the head is not complete, the
response of the bytes received, and behind it the bytes of the body in the file. -/

namespace Latypus.Http.HttpResponse
variable {r : HttpResponse}

/-- A storage that has overflowed stays overflowed. -/
theorem hasOverflow_of_callbacks {mem : Bytes} {cbs : List Callback}
    (h : (cbs.foldl (callback mem) r).hasOverflow = false) : r.hasOverflow = false := by
  induction cbs generalizing r with
  | nil => exact h
  | cons cb cbs ih =>
    have hcb : (callback mem r cb).store.overflow = false := ih h
    cases cb with
    | setHeaderField name value =>
      rw [callback, HeaderStore.overflow_setHeaderField] at hcb
      exact (Bool.or_eq_false_iff.mp hcb).1
    | setHttpVersion str | setReasonPhrase str =>
      have halloc := HeaderStore.overflow_allocString r.store (bytesAt mem str)
      exact (Bool.or_eq_false_iff.mp (halloc.symm.trans hcb)).1
    | setParseType _ | setBodyStart _ | setStatusCode _ | setRequestMethod _ | setRequestUri _ | setFragment _
    | setRequestPath _ | setQueryString _ => exact hcb

theorem hasOverflow_of_parse {mem : Bytes} {buf len : Nat} (h : (r.parse mem buf len).hasOverflow = false) :
    r.hasOverflow = false := by
  unfold parse at h
  generalize r.parser.parse buf ((mem.drop buf).take len) = result at h
  exact hasOverflow_of_callbacks (r := { r with parser := result.1 }) h

/-- A response that has been fed the beginning of a head needs more. -/
theorem beginning (h : ResponseHead) (hcapacity : 2 * h.bytes.length ≤ r.store.capacity)
    (hmax : h.fields.length ≤ r.store.maxHeaders) {text rest : Bytes} (hhead : h.bytes = text ++ rest)
    (hrest : rest ≠ []) : (r.ofText text).isFinished = false ∧ (r.ofText text).hasError = false := by
  have hstops := h.not_stops hhead hrest
  rw [← parser_ofText (r := r)] at hstops
  obtain ⟨hfin, herr⟩ := Bool.or_eq_false_iff.mp hstops
  have hover : (r.ofText text).hasOverflow = false := by
    obtain ⟨t, offset, -, htext⟩ := ofText_bytes (r := r) h [] hcapacity hmax
    rw [List.append_nil, hhead, ← parse_ofText hstops List.take_length] at htext
    exact hasOverflow_of_parse (congrArg hasOverflow htext)
  exact ⟨hfin, by simp [hasError, hfin, herr, hover]⟩

end Latypus.Http.HttpResponse

namespace Latypus.Server
open Lib Io Http
variable {ρ : Type} [Head ρ] {N n : Nat} {c : HeadConn ρ} {bytes : Bytes}

/-- A read that brings something, with room for it: the parser has its bytes. -/
theorem readHead_data (closesOnEof : Bool) (h : Filled N n n c.buffer) (hn : n < N) (hne : bytes ≠ []) :
    ∃ mem call, store c.buffer.buffer n (bytes.take (N - n)) = some mem ∧
      let head := Head.parse c.head mem n (bytes.take (N - n)).length
      readHead closesOnEof c (.data bytes) = some (⟨{ c.buffer with
          buffer := mem
          back := (n + (bytes.take (N - n)).length : Nat)
          front := c.buffer.front + (bytes.take (N - n)).length }, head⟩, call,
        if Head.isFinished head then .finished else if Head.hasError head then .parseError else .stay) := by
  have hlt := h.lt
  obtain ⟨mem, hstore, hread⟩ := h.bufferRead (.data bytes)
  rw [Nat.mod_eq_of_lt hn] at hstore hread
  set d := bytes.take (N - n) with hd
  have hdel : (ReaderOutcome.data bytes).delivered (N - n) = d := rfl
  rw [hdel] at hstore hread
  have hmem : mem.length = N := by rw [length_of_store hstore, h.size_eq]
  have hdlen : d.length ≤ N - n := by simp [hd]
  have hpos : 0 < d.length := by
    have := List.length_pos_of_ne_nil hne
    simp only [hd, List.length_take]
    omega
  have hsize : ((ReaderOutcome.data bytes).result (N - n)).size = d.length := by rw [ReaderOutcome.size_result, hdel]
  have herr : ((ReaderOutcome.data bytes).result (N - n)).hasError = false := rfl
  have hoff : (((n + d.length : Nat) : Int) - d.length).toNat = n := by omega
  have hoob : ¬(((n + d.length : Nat) : Int) - d.length < 0 ∨
      (N : Int) < ((n + d.length : Nat) : Int) - d.length + d.length) := by omega
  have hzero : ((d.length : Int) == 0) = false := beq_eq_false_iff_ne.mpr (by omega)
  refine ⟨mem, some ⟨((n + d.length : Nat) : Int) - d.length, d.length⟩, hstore, ?_⟩
  rw [readHead, h.bytesWritable, if_neg (by omega)]
  simp only [hread, Option.bind_eq_bind, Option.bind_some, hsize, herr, hzero, IoRingBuffer.size, hmem,
    Bool.false_eq_true, if_false, Bool.and_false, Bool.false_and, if_neg hoob, hoff, Int.toNat_natCast]

end Latypus.Server

namespace Latypus.Client
open Lib Io Http Server

/-! ### The head -/

/-- The bytes `text` of a response head have been received. -/
structure ReceivedHead (N : Nat) (r : HttpResponse) (text : Bytes) (c : HeadConn HttpResponse) : Prop where
  filled : Filled N text.length text.length c.buffer
  mem : c.buffer.buffer.take text.length = text
  head : c.head = r.ofText text

/-- The buffers of a client hold the head. -/
structure HeadFits (N : Nat) (r : HttpResponse) (h : ResponseHead) : Prop where
  buffer : h.bytes.length ≤ N
  capacity : 2 * h.bytes.length ≤ r.store.capacity
  max : h.fields.length ≤ r.store.maxHeaders

/-- Two responses with storage of the same size. -/
def SameSizes (r r' : HttpResponse) : Prop :=
  r'.store.capacity = r.store.capacity ∧ r'.store.maxHeaders = r.store.maxHeaders

section Head
variable {N : Nat} {r : HttpResponse} {h : ResponseHead} {text bytes : Bytes} {c : HeadConn HttpResponse}

theorem receivedHead_nil {b : IoRingBuffer} (hb : Fresh N b) : ReceivedHead N r [] ⟨b, r.reset⟩ :=
  ⟨hb.filled, by simp, rfl⟩

theorem ReceivedHead.sameSizes {fragment : Bytes} (hc : ReceivedHead N r (h.bytes ++ fragment) c)
    (hfits : HeadFits N r h) :
    SameSizes r c.head := by
  obtain ⟨t, offset, -, htext⟩ := HttpResponse.ofText_bytes (r := r) h fragment hfits.capacity hfits.max
  rw [hc.head, htext]
  exact ⟨rfl, rfl⟩

/-- A read in the middle of a head. -/
theorem ReceivedHead.event (hc : ReceivedHead N r text c) (hfits : HeadFits N r h) {rest d : Bytes}
    (hhead : h.bytes = text ++ rest) (hrest : rest ≠ []) (hne : bytes ≠ []) (hd : bytes.take (N - text.length) = d) :
    ∃ c' call, ReceivedHead N r (text ++ d) c' ∧
      handleStateServerResponse c (.data bytes) = some (c', call,
        if (r.ofText (text ++ d)).isFinished then .finished
        else if (r.ofText (text ++ d)).hasError then .parseError else .stay) := by
  have hlen := congrArg List.length hhead
  have hpos := List.length_pos_of_ne_nil hrest
  rw [List.length_append] at hlen
  have hlt : text.length < N := by have := hfits.buffer; omega
  have hlive : HttpParser.scanner.stops (r.ofText text).parser = false := by
    rw [HttpResponse.parser_ofText]
    exact h.not_stops hhead hrest
  obtain ⟨mem, call, hstore, hread⟩ := readHead_data (c := c) false hc.filled hlt hne
  rw [hd] at hstore hread
  have hdlen : d.length ≤ N - text.length := by simp [← hd]
  have hsmall := hc.filled.le_two_pow
  have hmem : mem.take (text ++ d).length = text ++ d := by
    obtain ⟨-, rfl⟩ := store_eq_some.mp hstore
    rw [hc.mem, List.take_left]
  have hparse : Head.parse c.head mem text.length d.length = r.ofText (text ++ d) :=
    (congrArg (HttpResponse.parse · mem text.length d.length) hc.head).trans (HttpResponse.parse_ofText hlive hmem)
  have hfront : c.buffer.front + (d.length : Int) = (N + (text ++ d).length : Nat) := by
    rw [hc.filled.front_eq, List.length_append]
    omega
  have hfilled : Filled N (text ++ d).length (text ++ d).length { c.buffer with
      buffer := mem, back := (text.length + d.length : Nat), front := c.buffer.front + d.length } := by
    refine ⟨⟨hc.filled.pow2, hc.filled.lt, (length_of_store hstore).trans hc.filled.size_eq, hc.filled.mask_eq⟩,
      by simp, hfront, le_rfl, by omega, ?_⟩
    rw [List.length_append]
    omega
  refine ⟨⟨_, r.ofText (text ++ d)⟩, call, ⟨hfilled, hmem, rfl⟩, ?_⟩
  rw [handleStateServerResponse, hread, hparse]
  rfl

/-- A read that ends before the head does. -/
theorem ReceivedHead.event_inside (hc : ReceivedHead N r text c) (hfits : HeadFits N r h) {rest d : Bytes}
    (hhead : h.bytes = text ++ d ++ rest) (hrest : rest ≠ []) (hne : bytes ≠ [])
    (hd : bytes.take (N - text.length) = d) :
    ∃ c' call, ReceivedHead N r (text ++ d) c' ∧
      handleStateServerResponse c (.data bytes) = some (c', call, .stay) := by
  obtain ⟨hfin, herr⟩ := HttpResponse.beginning h hfits.capacity hfits.max hhead hrest
  obtain ⟨c', call, hc', hread⟩ := hc.event hfits (by rw [hhead, List.append_assoc]) (by simp [hrest]) hne hd
  exact ⟨c', call, hc', by simpa [hfin, herr] using hread⟩

/-- A read that ends the head, with a piece of the body behind it. -/
theorem ReceivedHead.event_ends (hc : ReceivedHead N r text c) (hfits : HeadFits N r h) {d fragment : Bytes}
    (hlt : text.length < h.bytes.length) (hpre : text <+: h.bytes) (hhead : text ++ d = h.bytes ++ fragment)
    (hne : bytes ≠ []) (hd : bytes.take (N - text.length) = d) :
    ∃ c' call, ReceivedHead N r (h.bytes ++ fragment) c' ∧
      handleStateServerResponse c (.data bytes) = some (c', call, .finished) := by
  obtain ⟨rest, hrest⟩ := hpre
  have hrest' : rest ≠ [] := by
    rintro rfl
    rw [← hrest, List.append_nil] at hlt
    exact lt_irrefl _ hlt
  obtain ⟨t, offset, ht, htext⟩ := HttpResponse.ofText_bytes (r := r) h fragment hfits.capacity hfits.max
  obtain ⟨c', call, hc', hread⟩ := hc.event hfits hrest.symm hrest' hne hd
  rw [hhead] at hc' hread
  refine ⟨c', call, hc', ?_⟩
  rw [hread, htext]
  simp [HttpResponse.isFinished, HttpParser.isFinished, ht]

end Head

/-! ### The body -/

namespace ClientConn

/-- The connection when `total` bytes of the body are in the file and none in the buffer. -/
def holding (c : ClientConn) (b : IoRingBuffer) (body : Bytes) (total : Nat) : ClientConn :=
  { c with buffer := b, file := some (body.take total), totalRead := total }

/-- What follows a piece of the body: more of it, or the end of the request. -/
def afterPiece (c : ClientConn) : ClientConn × ClientNext :=
  if c.totalRead = c.contentLength then c.endRequest else (c, .stay)

section Body
variable {N total count : Nat} {c : ClientConn} {body w bytes d : Bytes}

/-- The file takes what the buffer holds. -/
theorem saveBuffer_filled (hb : Filled N 0 w.length c.buffer) (hmem : c.buffer.buffer.take w.length = w)
    (hne : w ≠ []) (hw : w <+: body.drop total) (hfile : c.file = some (body.take total))
    (htotal : c.totalRead = total) (hcount : N ≤ count) :
    c.saveBuffer (.accept count) = some (c.holding c.buffer.reset body (total + w.length)) := by
  have hpos := List.length_pos_of_ne_nil hne
  have hfits := hb.fits
  have hlt := hb.lt
  obtain ⟨offered, hload, hwrite⟩ := hb.bufferWrite (.accept count) hpos
  obtain ⟨-, rfl⟩ := load_eq_some.mp hload
  have hoffer : (c.buffer.buffer.drop (0 % N)).take (min (N - 0 % N) (w.length - 0)) = w := by
    rw [Nat.zero_mod, List.drop_zero, Nat.sub_zero, Nat.sub_zero, min_eq_right (by omega), hmem]
  have htaken : (WriterOutcome.accept count).taken w = w := List.take_of_length_le (by omega)
  have hsize : ssizeT c.buffer.bytesReadable = w.length := by
    rw [hb.bytesReadable, Nat.sub_zero, ssizeT_of_lt (by omega) (by omega)]
  have htake : body.take total ++ w = body.take (total + w.length) := by
    rw [List.take_add, ← List.prefix_iff_eq_take.mp hw]
  rw [hoffer] at hwrite
  simp only [saveBuffer, hfile, hwrite, Option.bind_eq_bind, Option.bind_some, htaken, hsize, htake, htotal, holding,
    Nat.cast_add]

/-- The event ends the request when nothing of the body is to come. -/
theorem handleStateServerBody_of_read {c' : ClientConn} {reads : List IoResult} {socket : ReaderOutcome}
    {write : WriterOutcome}
    (h : c.readResponseBody socket write = some (c', reads, .ofSize (c'.contentLength - c'.totalRead))) :
    c.handleStateServerBody socket write = some (c'.afterPiece.1, reads, c'.afterPiece.2) := by
  have herr : (IoResult.ofSize (c'.contentLength - c'.totalRead)).hasError = false := rfl
  have hsize : (IoResult.ofSize (c'.contentLength - c'.totalRead)).size = c'.contentLength - c'.totalRead := rfl
  simp only [handleStateServerBody, h, Option.bind_eq_bind, Option.bind_some, Option.pure_def, herr, hsize,
    Bool.false_eq_true, if_false, afterPiece]
  by_cases hall : c'.totalRead = c'.contentLength
  · rw [if_pos (by omega), if_pos hall]
  · rw [if_neg (by omega), if_neg hall]

/-- A piece of the body that stands in the buffer. -/
theorem handleStateServerBody_held (hb : Filled N 0 w.length c.buffer) (hmem : c.buffer.buffer.take w.length = w)
    (hne : w ≠ []) (hw : w <+: body.drop total) (hfile : c.file = some (body.take total))
    (htotal : c.totalRead = total) (hlen : c.contentLength = body.length) (hcount : N ≤ count)
    (socket : ReaderOutcome) :
    let c' := c.holding c.buffer.reset body (total + w.length)
    c.handleStateServerBody socket (.accept count) = some (c'.afterPiece.1, [], c'.afterPiece.2) := by
  intro c'
  have hreadable : 0 < c.buffer.bytesReadable := by
    have := List.length_pos_of_ne_nil hne
    rw [hb.bytesReadable]
    omega
  refine handleStateServerBody_of_read ?_
  rw [readResponseBody, if_pos hreadable, saveBuffer_filled hb hmem hne hw hfile htotal hcount]
  simp [bytesAvailable, holding, hlen, c']

/-- Nothing in the buffer and nothing to come. -/
theorem handleStateServerBody_done (hb : Filled N 0 0 c.buffer) (hall : c.totalRead = c.contentLength)
    (socket : ReaderOutcome) (write : WriterOutcome) :
    c.handleStateServerBody socket write = some (c.endRequest.1, [], c.endRequest.2) := by
  have hread : c.readResponseBody socket write = some (c, [], .ofSize (c.contentLength - c.totalRead)) := by
    rw [readResponseBody, hb.bytesReadable, if_neg (by simp), if_pos hall, hall, sub_self]
    rfl
  simpa only [afterPiece, if_pos hall] using handleStateServerBody_of_read hread

/-- A read that brings a piece of the body. -/
theorem handleStateServerBody_data (hb : Filled N 0 0 c.buffer) (hne : bytes ≠ []) (hd : bytes.take N = d)
    (hpre : d <+: body.drop total) (hfile : c.file = some (body.take total)) (htotal : c.totalRead = total)
    (hlen : c.contentLength = body.length) (hcount : N ≤ count) :
    ∃ b, Fresh N b ∧
      let c' := c.holding b body (total + d.length)
      c.handleStateServerBody (.data bytes) (.accept count) =
        some (c'.afterPiece.1, [.ofSize d.length], c'.afterPiece.2) := by
  have hpos := hb.pos
  have hsmall := hb.le_two_pow
  obtain ⟨mem, hstore, hread⟩ := hb.bufferRead (.data bytes)
  have hdel : (ReaderOutcome.data bytes).delivered (N - 0 % N) = d := by simp [ReaderOutcome.delivered, hd]
  have hresult : (ReaderOutcome.data bytes).result (N - 0 % N) = .ofSize d.length := by
    rw [← hd]
    simp [ReaderOutcome.result, min_comm]
  rw [hdel, hresult, Nat.zero_add] at hread
  rw [hdel] at hstore
  have hdne : d ≠ [] := by
    have := List.length_pos_of_ne_nil hne
    rw [← hd]
    exact List.ne_nil_of_length_pos (by simp; omega)
  have hdlen : d.length ≤ N := by simp [← hd]
  have hdpos := List.length_pos_of_ne_nil hdne
  have hmem : mem.length = N := (length_of_store hstore).trans hb.size_eq
  have hfill : Filled N 0 d.length { c.buffer with buffer := mem, back := (d.length : Nat) } := by
    have := hb.bufferRead_filled hmem (n := d.length) (by omega) (by omega)
    rwa [Nat.zero_add] at this
  have htake : mem.take d.length = d := by
    obtain ⟨-, rfl⟩ := store_eq_some.mp hstore
    simp
  have hless : c.totalRead ≠ c.contentLength := by
    have := hpre.length_le
    rw [List.length_drop] at this
    omega
  have hsave := saveBuffer_filled (c := { c with buffer := _ }) hfill htake hdne hpre hfile htotal hcount
  refine ⟨_, Fresh.reset hfill.toSized, ?_⟩
  refine handleStateServerBody_of_read ?_
  have herr : (IoResult.ofSize d.length).hasError = false := rfl
  rw [readResponseBody, hb.bytesReadable, if_neg (by simp), if_neg hless, hread]
  simp only [Option.bind_eq_bind, Option.bind_some, herr, Bool.false_eq_true, if_false, hfill.bytesReadable,
    Nat.sub_zero, if_pos hdpos, hsave, Option.pure_def]
  simp [bytesAvailable, holding, hlen]

end Body
end ClientConn

/-- What a head says to a client: the connection is kept, and the length of the body. -/
structure Announces (h : ResponseHead) (body : Bytes) : Prop where
  keeps : closesConnection h.version (h.fields.lookup headerConnection) = false
  length : (h.fields.lookup headerContentLength).map strtoll = some (body.length : Int)

namespace ClientConn

/-- The connection behind a head. -/
def begun (c : ClientConn) (response : HttpResponse) (contentLength : Int) : ClientConn :=
  { c with response, connectionClose := false, contentLength, totalRead := 0 }

section Event
variable {N count : Nat} {c : ClientConn} {r : HttpResponse} {h : ResponseHead} {text bytes d fragment body : Bytes}

/-- The reads of the event that reads a head. -/
theorem headReads_data (hc : ReceivedHead N r text ⟨c.buffer, c.response⟩) (hlt : text.length < N)
    (hd : bytes.take (N - text.length) = d) : headReads ⟨c.buffer, c.response⟩ (.data bytes) = [.ofSize d.length] := by
  obtain ⟨mem, -, hread⟩ := hc.filled.bufferRead (.data bytes)
  rw [headReads, hc.filled.bytesWritable, if_neg (by omega), hread, Nat.mod_eq_of_lt hlt, ← hd]
  simp [ReaderOutcome.result, min_comm]

/-- A read that ends before the head does. -/
theorem handleStateServerResponse_inside (hc : ReceivedHead N r text ⟨c.buffer, c.response⟩) (hfits : HeadFits N r h)
    {rest : Bytes} (hhead : h.bytes = text ++ d ++ rest) (hrest : rest ≠ []) (hne : bytes ≠ [])
    (hd : bytes.take (N - text.length) = d) (again : ReaderOutcome) (write : WriterOutcome) :
    ∃ b response, ReceivedHead N r (text ++ d) ⟨b, response⟩ ∧
      c.handleStateServerResponse (.data bytes) again write =
        some ({ c with buffer := b, response }, [.ofSize d.length], .stay) := by
  obtain ⟨⟨b, response⟩, call, hc', hread⟩ := hc.event_inside hfits hhead hrest hne hd
  have hlt : text.length < N := by
    have hlen := congrArg List.length hhead
    have hpos := List.length_pos_of_ne_nil hrest
    have := hfits.buffer
    simp only [List.length_append] at hlen
    omega
  refine ⟨b, response, hc', ?_⟩
  simp only [handleStateServerResponse, headReads_data hc hlt hd, hread, Option.bind_eq_bind, Option.bind_some,
    Option.pure_def]

/-- The buffer with the piece of the body that came with the head. -/
theorem set_fragment {b : IoRingBuffer} (hb : Sized N b)
    (hmem : b.buffer.take (h.bytes ++ fragment).length = h.bytes ++ fragment) :
    ∃ b', b.set (bytesAt b.buffer ⟨some h.bytes.length, fragment.length⟩) = some b' ∧
      Filled N 0 fragment.length b' ∧ b'.buffer.take fragment.length = fragment := by
  have hbytes : bytesAt b.buffer ⟨some h.bytes.length, fragment.length⟩ = fragment := by
    have hdrop := congrArg (List.drop h.bytes.length) hmem
    rwa [List.drop_take, List.length_append, Nat.add_sub_cancel_left, List.drop_left] at hdrop
  have hle := congrArg List.length hmem
  rw [List.length_take, hb.size_eq, List.length_append] at hle
  have hsmall := hb.le_two_pow
  have hstore : store b.buffer 0 fragment = some (fragment ++ b.buffer.drop fragment.length) :=
    store_eq_some.mpr ⟨by rw [hb.size_eq]; omega, by simp⟩
  rw [hbytes, IoRingBuffer.set, hstore]
  refine ⟨_, rfl, ⟨⟨hb.pow2, hb.lt, (length_of_store hstore).trans hb.size_eq, hb.mask_eq⟩, rfl, ?_, Nat.zero_le _,
    by omega, by omega⟩, List.take_left⟩
  simp [IoRingBuffer.size, hb.size_eq]

/-- The event that ends the head, as far as the head goes. -/
theorem handleStateServerResponse_ends (hc : ReceivedHead N r text ⟨c.buffer, c.response⟩) (hfits : HeadFits N r h)
    (hlt : text.length < h.bytes.length) (hpre : text <+: h.bytes) (hhead : text ++ d = h.bytes ++ fragment)
    (hne : bytes ≠ []) (hd : bytes.take (N - text.length) = d)
    (hkeeps : closesConnection h.version (h.fields.lookup headerConnection) = false)
    (again : ReaderOutcome) (write : WriterOutcome) :
    ∃ b response, ReceivedHead N r (h.bytes ++ fragment) ⟨b, response⟩ ∧
      let c' := { c with buffer := b }.begun response (((h.fields.lookup headerContentLength).map strtoll).getD (-1))
      c.handleStateServerResponse (.data bytes) again write =
        if c.responseHasBody then do
          let buffer ← b.set (bytesAt b.buffer ⟨some h.bytes.length, fragment.length⟩)
          let (c', bodyReads, next) ←
            ({ c' with buffer, state := .serverBody } : ClientConn).handleStateServerBody again write
          some (c', .ofSize d.length :: bodyReads, next)
        else some (c'.endRequest.1, [.ofSize d.length], c'.endRequest.2) := by
  obtain ⟨⟨b, response⟩, call, hc', hread⟩ := hc.event_ends hfits hlt hpre hhead hne hd
  obtain ⟨t, offset, -, htext⟩ := HttpResponse.ofText_bytes (r := r) h fragment hfits.capacity hfits.max
  have hltN : text.length < N := by have := hfits.buffer; omega
  obtain rfl : response = r.ofText (h.bytes ++ fragment) := hc'.head
  refine ⟨b, _, hc', ?_⟩
  simp only [handleStateServerResponse, headReads_data hc hltN hd, hread, Option.bind_eq_bind, Option.bind_some,
    Option.pure_def, handleResponse, begun, htext, HeaderStore.getHeaderString, hkeeps]
  rfl

/-- The bytes that the second read of the event finds, when it is made. -/
structure Again (N : Nat) (body fragment : Bytes) (again : ReaderOutcome) (d : Bytes) : Prop where
  made : fragment = [] → body ≠ [] → ∃ bytes, again = .data bytes ∧ bytes ≠ [] ∧ bytes.take N = d ∧ d <+: body
  not_made : fragment ≠ [] ∨ body = [] → d = []

/-- The event that ends the head, of a response with a body. -/
theorem handleStateServerResponse_body (hc : ReceivedHead N r text ⟨c.buffer, c.response⟩) (hfits : HeadFits N r h)
    (hlt : text.length < h.bytes.length) (hpre : text <+: h.bytes) (hhead : text ++ d = h.bytes ++ fragment)
    (hne : bytes ≠ []) (hd : bytes.take (N - text.length) = d) (hbody : c.responseHasBody = true)
    (hannounces : Announces h body) (hfile : c.file = some []) (hfragment : fragment <+: body) (hcount : N ≤ count)
    {again : ReaderOutcome} {d' : Bytes} (hagain : Again N body fragment again d') :
    ∃ b response reads, Fresh N b ∧ SameSizes r response ∧
      (reads.map IoResult.size).sum = ((d.length + d'.length : Nat) : Int) ∧ (∀ x ∈ reads, x.hasError = false) ∧
      let c' := ({ c with state := .serverBody }.begun response body.length).holding b body (fragment ++ d').length
      c.handleStateServerResponse (.data bytes) again (.accept count) =
        some (c'.afterPiece.1, reads, c'.afterPiece.2) := by
  obtain ⟨b, response, hb, hevent⟩ := handleStateServerResponse_ends hc hfits hlt hpre hhead hne hd
    hannounces.keeps again (.accept count)
  obtain ⟨b', hset, hfill, hmem⟩ := set_fragment hb.filled.toSized hb.mem
  have hsizes : SameSizes r response := hb.sameSizes hfits
  -- the connection when the body handler is called
  set c₁ : ClientConn := { { c with state := .serverBody }.begun response body.length with buffer := b' } with hc₁
  have hbegun (reads next) (c' : ClientConn)
      (h : c₁.handleStateServerBody again (.accept count) = some (c', reads, next)) :
      c.handleStateServerResponse (.data bytes) again (.accept count) =
        some (c', .ofSize d.length :: reads, next) := by
    rw [hevent, if_pos hbody, hset, hannounces.length]
    change (c₁.handleStateServerBody again (.accept count)).bind _ = _
    rw [h]
    rfl
  have hsum (k : Nat) : ([IoResult.ofSize d.length, .ofSize k].map IoResult.size).sum =
        ((d.length + k : Nat) : Int) := by
    simp [IoResult.ofSize]
  have hsum' : ([IoResult.ofSize d.length].map IoResult.size).sum = ((d.length + ([] : Bytes).length : Nat) : Int) := by
    simp [IoResult.ofSize]
  have hgood (k : Nat) : ∀ x ∈ [IoResult.ofSize d.length, .ofSize k], x.hasError = false := by
    simp [IoResult.ofSize, IoResult.hasError]
  have hgood' : ∀ x ∈ [IoResult.ofSize d.length], x.hasError = false := by simp [IoResult.ofSize, IoResult.hasError]
  by_cases hnil : fragment = []
  · subst hnil
    by_cases hempty : body = []
    · subst hempty
      obtain rfl := hagain.not_made (.inr rfl)
      refine ⟨b', response, _, ⟨hfill.toSized, hfill.back_eq, hfill.front_eq⟩, hsizes, hsum', hgood', ?_⟩
      have hdone := hbegun _ _ _ (handleStateServerBody_done hfill rfl again (.accept count))
      have hsame : c₁.holding b' [] 0 = c₁ := by simp [holding, hc₁, begun, hfile]
      have hafter : c₁.afterPiece = c₁.endRequest := if_pos rfl
      rw [hdone, ← hafter, ← hsame]
      rfl
    · obtain ⟨bytes', rfl, hne', hd', hpre'⟩ := hagain.made rfl hempty
      have hfirst : d' <+: body.drop 0 := by simpa using hpre'
      obtain ⟨b'', hfresh, hread⟩ := handleStateServerBody_data (c := c₁) hfill hne' hd' hfirst hfile rfl rfl hcount
      refine ⟨b'', response, _, hfresh, hsizes, hsum d'.length, hgood d'.length, ?_⟩
      rw [hbegun _ _ _ hread, Nat.zero_add]
      rfl
  · obtain rfl := hagain.not_made (.inl hnil)
    refine ⟨b'.reset, response, _, Fresh.reset hfill.toSized, hsizes, hsum', hgood', ?_⟩
    have hfirst : fragment <+: body.drop 0 := by simpa using hfragment
    rw [hbegun _ _ _ (handleStateServerBody_held (c := c₁) hfill hmem hnil hfirst hfile rfl rfl hcount again),
      Nat.zero_add, List.append_nil]
    rfl

end Event
end ClientConn
end Latypus.Client
