import Latypus.Http.Fields
import Latypus.Lib.Memory

/-! The `to_buffer` functions with their output buffer: before a line is copied, the room for it
is compared with what is left of the buffer, in unsigned arithmetic, while the output pointer
advances on its own. -/

namespace Latypus.Http
open Lib

/-- A line of output: the room that the code asks for and the pieces that it copies. -/
structure OutputLine where
  room : Nat
  pieces : List Bytes

structure OutputCursor where
  mem : Bytes
  /-- How far the output pointer has advanced. -/
  pos : Nat
  length : Nat

namespace OutputCursor

/-- The copies of a line, one behind the other. -/
def copy : List Bytes → Bytes → Nat → Option (Bytes × Nat)
  | [], mem, pos => some (mem, pos)
  | piece :: pieces, mem, pos => do
    let mem ← store mem pos piece
    copy pieces mem (pos + piece.length)

/-- One line with its check: the next cursor, or the buffer as it is left when the check fails;
`none` for a write outside the buffer. -/
def line (bufferSize : Nat) (l : OutputLine) (c : OutputCursor) : Option (OutputCursor ⊕ Bytes) :=
  if sizeT l.room < sizeT (bufferSize - c.length) then do
    let (mem, pos) ← copy l.pieces c.mem c.pos
    some (.inl ⟨mem, pos, sizeT (c.length + l.room)⟩)
  else some (.inr c.mem)

/-- All lines: what the function returns and the buffer as it is left. -/
def lines (bufferSize : Nat) : List OutputLine → OutputCursor → Option (Int × Bytes)
  | [], c => some (ssizeT c.length, c.mem)
  | l :: ls, c =>
    match c.line bufferSize l with
    | none => none
    | some (.inl c) => lines bufferSize ls c
    | some (.inr mem) => some (-1, mem)

/-- The cursors at which `buffer_size - length` is computed. -/
inductive Checked (bufferSize : Nat) : List OutputLine → OutputCursor → OutputCursor → Prop
  | here {l : OutputLine} {ls : List OutputLine} {c : OutputCursor} : Checked bufferSize (l :: ls) c c
  | later {l : OutputLine} {ls : List OutputLine} {c c' d : OutputCursor}
      (hline : c.line bufferSize l = some (.inl c')) (h : Checked bufferSize ls c' d) :
      Checked bufferSize (l :: ls) c d

end OutputCursor

def OutputLine.text (l : OutputLine) : Bytes := l.pieces.flatten

/-- The line of a header, and the empty line. -/
def headerOutput (header : Bytes × Bytes) : OutputLine :=
  ⟨header.1.length + header.2.length + 4, [header.1, [58], [32], header.2, [13], [10]]⟩

def emptyOutput : OutputLine := ⟨2, [[13], [10]]⟩

/-- The lines of a request, `none` when a field that the first one needs is not set. -/
def HttpRequest.outputLines (r : HttpRequest) : Option (List OutputLine) :=
  match r.requestMethod, r.requestUri, r.httpVersion with
  | some method, some uri, some version =>
    let first : OutputLine :=
      match r.queryString with
      | none =>
        ⟨method.length + uri.length + 0 + version.length + 4, [method, [32], uri, [32], version, [13], [10]]⟩
      | some query =>
        ⟨method.length + uri.length + (query.length + 1) + version.length + 4,
          [method, [32], uri, [63], query, [32], version, [13], [10]]⟩
    some (first :: r.store.headerList.map headerOutput ++ [emptyOutput])
  | _, _, _ => none

def HttpResponse.outputLines (r : HttpResponse) : Option (List OutputLine) :=
  match r.httpVersion, r.reasonPhrase with
  | some version, some reason =>
    let status := decimal r.statusCode
    let first : OutputLine :=
      ⟨version.length + status.length + reason.length + 4, [version, [32], status, [32], reason, [13], [10]]⟩
    some (first :: r.store.headerList.map headerOutput ++ [emptyOutput])
  | _, _ => none

/-- `to_buffer` into the memory `mem`. -/
def toBufferAt (outputLines : Option (List OutputLine)) (mem : Bytes) (bufferSize : Nat) : Option (Int × Bytes) :=
  match outputLines with
  | none => some (-1, mem)
  | some ls => OutputCursor.lines bufferSize ls ⟨mem, 0, 0⟩

/-- The canonical text of a request. -/
def HttpRequest.canonical (r : HttpRequest) : Option Bytes := do
  let method ← r.requestMethod
  let uri ← r.requestUri
  let version ← r.httpVersion
  let query := match r.queryString with
    | some query => 63 :: query
    | none => []
  some (method ++ [32] ++ uri ++ query ++ [32] ++ version ++ [13, 10] ++ fieldLines r.store.headerList)

def HttpResponse.canonical (r : HttpResponse) : Option Bytes := do
  let version ← r.httpVersion
  let reason ← r.reasonPhrase
  some (version ++ [32] ++ decimal r.statusCode ++ [32] ++ reason ++ [13, 10] ++ fieldLines r.store.headerList)

namespace OutputCursor
variable {bufferSize : Nat} {c : OutputCursor} {w : Bytes}

/-- The cursor has written `w`, which fits. -/
structure Written (bufferSize : Nat) (c : OutputCursor) (w : Bytes) : Prop where
  mem : w <+: c.mem
  mem_length : c.mem.length = bufferSize
  pos : c.pos = w.length
  length : c.length = w.length

theorem copy_spec {pieces : List Bytes} {mem : Bytes} {pos : Nat} {w : Bytes} (hmem : w <+: mem)
    (hpos : pos = w.length) (hroom : w.length + pieces.flatten.length ≤ mem.length) :
    ∃ mem', copy pieces mem pos = some (mem', (w ++ pieces.flatten).length) ∧ w ++ pieces.flatten <+: mem' ∧
      mem'.length = mem.length := by
  induction pieces generalizing mem pos w with
  | nil => exact ⟨mem, by simp [copy, hpos], by simpa using hmem, rfl⟩
  | cons piece pieces ih =>
    simp only [List.flatten_cons, List.length_append] at hroom
    obtain ⟨rest, rfl⟩ := hmem
    have hstore : store (w ++ rest) pos piece = some (w ++ piece ++ rest.drop piece.length) := by
      refine store_eq_some.mpr ⟨by omega, ?_⟩
      rw [hpos, List.take_left, List.drop_length_add_append]
    have hlen := length_of_store hstore
    have hpos' : pos + piece.length = (w ++ piece).length := by simp [hpos]
    have hroom' : (w ++ piece).length + pieces.flatten.length ≤ (w ++ piece ++ rest.drop piece.length).length := by
      rw [hlen, List.length_append]
      omega
    obtain ⟨mem', hcopy, hpre, hlen'⟩ := ih (List.prefix_append _ _) hpos' hroom'
    refine ⟨mem', ?_, by simpa using hpre, hlen'.trans hlen⟩
    rw [copy, hstore]
    simpa using hcopy

/-- A line is written when there is room for it and one byte more, and refused otherwise. -/
theorem Written.line (h : c.Written bufferSize w) (hsize : bufferSize < 2 ^ 64) (hfits : w.length ≤ bufferSize)
    {l : OutputLine} (hroom : l.room = l.text.length) (hlong : (w ++ l.text).length < 2 ^ 63) :
    if (w ++ l.text).length < bufferSize then
      ∃ c', c.line bufferSize l = some (.inl c') ∧ c'.Written bufferSize (w ++ l.text)
    else c.line bufferSize l = some (.inr c.mem) := by
  simp only [List.length_append] at hlong ⊢
  have hneed : sizeT l.room = l.text.length := by
    rw [sizeT_natCast (by omega), hroom]
  have hleft : sizeT (bufferSize - c.length) = bufferSize - w.length := by
    rw [h.length, sizeT_of_lt (by omega) (by omega)]
    omega
  rw [OutputCursor.line, hneed, hleft]
  split_ifs with hfits' hcheck hcheck
  · have hroom' : w.length + l.pieces.flatten.length ≤ c.mem.length := by
      rw [h.mem_length]
      exact hfits'.le
    obtain ⟨mem, hcopy, hpre, hlen⟩ := copy_spec h.mem h.pos hroom'
    refine ⟨⟨mem, (w ++ l.text).length, (w ++ l.text).length⟩, ?_, hpre, hlen.trans h.mem_length, rfl, rfl⟩
    have hsum : sizeT (c.length + l.room) = (w ++ l.text).length := by
      rw [h.length, hroom, List.length_append, ← Nat.cast_add, sizeT_natCast (by omega)]
    rw [hcopy, hsum]
    rfl
  · omega
  · omega
  · rfl

/-- All lines are written when there is room for them and one byte more, and refused otherwise. -/
theorem Written.lines (h : c.Written bufferSize w) (hsize : bufferSize < 2 ^ 64) {ls : List OutputLine}
    (hroom : ∀ l ∈ ls, l.room = l.text.length) (hlong : (w ++ ls.flatMap OutputLine.text).length < 2 ^ 63)
    (hfits : w.length < bufferSize ∨ w.length ≤ bufferSize ∧ ls ≠ []) :
    (∀ d, Checked bufferSize ls c d → d.length ≤ bufferSize) ∧
    if (w ++ ls.flatMap OutputLine.text).length < bufferSize then
      ∃ mem, c.lines bufferSize ls = some (((w ++ ls.flatMap OutputLine.text).length : Int), mem) ∧
        mem.length = bufferSize ∧ w ++ ls.flatMap OutputLine.text <+: mem
    else ∃ mem, c.lines bufferSize ls = some (-1, mem) ∧ mem.length = bufferSize := by
  induction ls generalizing c w with
  | nil =>
    have hw : w.length < bufferSize := by simpa using hfits
    refine ⟨fun d hd => (nomatch hd), ?_⟩
    simp only [List.flatMap_nil, List.append_nil] at hlong ⊢
    rw [if_pos hw]
    refine ⟨c.mem, ?_, h.mem_length, h.mem⟩
    rw [OutputCursor.lines, h.length, ssizeT_of_lt (by omega) (by omega)]
  | cons l ls ih =>
    have hle : w.length ≤ bufferSize := by omega
    rw [List.flatMap_cons, ← List.append_assoc] at hlong ⊢
    have hline := h.line hsize hle (hroom l List.mem_cons_self)
      (lt_of_le_of_lt (by simp [← Nat.add_assoc]) hlong)
    have hlen : ((w ++ l.text) ++ ls.flatMap OutputLine.text).length =
      (w ++ l.text).length + (ls.flatMap OutputLine.text).length := List.length_append
    split_ifs at hline with hfits'
    · obtain ⟨c', hc', hwritten⟩ := hline
      obtain ⟨hchecked, hlines⟩ := ih hwritten (fun l' hl' => hroom l' (List.mem_cons_of_mem l hl')) hlong (.inl hfits')
      refine ⟨fun d hd => ?_, ?_⟩
      · cases hd with
        | here => exact h.length.trans_le hle
        | later hd' hd =>
          obtain rfl := Sum.inl.inj (Option.some.inj (hc'.symm.trans hd'))
          exact hchecked d hd
      · rw [OutputCursor.lines, hc']
        exact hlines
    · refine ⟨fun d hd => ?_, ?_⟩
      · cases hd with
        | here => exact h.length.trans_le hle
        | later hd' hd => simp [hline] at hd'
      · rw [if_neg (by omega), OutputCursor.lines, hline]
        exact ⟨c.mem, rfl, h.mem_length⟩

end OutputCursor

section Texts

theorem flatMap_headers (headers : List (Bytes × Bytes)) :
    (headers.map headerOutput ++ [emptyOutput]).flatMap OutputLine.text = fieldLines headers := by
  induction headers with
  | nil => rfl
  | cons header headers ih =>
    rw [List.map_cons, List.cons_append, List.flatMap_cons, ih]
    simp [headerOutput, OutputLine.text, fieldLines, fieldLine]

theorem room_headers {headers : List (Bytes × Bytes)} {l : OutputLine}
    (h : l ∈ headers.map headerOutput ++ [emptyOutput]) : l.room = l.text.length := by
  rcases List.mem_append.mp h with h | h
  · obtain ⟨header, -, rfl⟩ := List.mem_map.mp h
    simp [headerOutput, OutputLine.text]
    omega
  · rw [List.mem_singleton.mp h]
    rfl

/-- The lines of a message give its canonical text, each with the room it takes. -/
structure Renders (ls : List OutputLine) (text : Bytes) : Prop where
  ne_nil : ls ≠ []
  text_eq : ls.flatMap OutputLine.text = text
  room : ∀ l ∈ ls, l.room = l.text.length

theorem renders_cons {first : OutputLine} {headers : List (Bytes × Bytes)} {text : Bytes}
    (hroom : first.room = first.text.length) (htext : text = first.text ++ fieldLines headers) :
    Renders (first :: headers.map headerOutput ++ [emptyOutput]) text where
  ne_nil := by simp
  text_eq := by rw [List.cons_append, List.flatMap_cons, flatMap_headers, htext]
  room l hl := by
    rcases List.mem_cons.mp hl with rfl | hl
    · exact hroom
    · exact room_headers hl

theorem HttpRequest.renders (r : HttpRequest) : Option.Rel Renders r.outputLines r.canonical := by
  obtain ⟨parser, store, parseType, method, uri, fragment, path, query, body, version⟩ := r
  rcases method with _ | method
  · exact .none
  rcases uri with _ | uri
  · exact .none
  rcases version with _ | version
  · exact .none
  cases query with
  | none =>
    refine .some (renders_cons ?_ ?_)
    · simp [OutputLine.text]
      omega
    · simp [OutputLine.text]
  | some query =>
    refine .some (renders_cons ?_ ?_)
    · simp [OutputLine.text]
      omega
    · simp [OutputLine.text]

theorem HttpResponse.renders (r : HttpResponse) : Option.Rel Renders r.outputLines r.canonical := by
  obtain ⟨parser, store, parseType, body, version, reason, status⟩ := r
  rcases version with _ | version
  · exact .none
  rcases reason with _ | reason
  · exact .none
  refine .some (renders_cons ?_ ?_)
  · simp [OutputLine.text]
    omega
  · simp [OutputLine.text]

/-- The check of the first line is the weaker one. -/
theorem headerLines_of_first {bufferSize room : Nat} {first : Bytes} (hroom : room = first.length)
    (headers : List (Bytes × Bytes)) :
    (if room < bufferSize then headerLines bufferSize first headers else none) =
      (some (first ++ fieldLines headers)).filter (·.length < bufferSize) := by
  rw [headerLines_eq, Option.filter_some]
  by_cases hall : (first ++ fieldLines headers).length < bufferSize
  · have hfirst : room < bufferSize := by
      rw [List.length_append] at hall
      omega
    simp only [hall, hfirst, decide_true, if_true]
  · simp only [hall, decide_false, if_false, ite_self, Bool.false_eq_true]

/-- The message model says which bytes are written. -/
theorem HttpRequest.toBuffer_eq (r : HttpRequest) (bufferSize : Nat) :
    r.toBuffer bufferSize = r.canonical.filter (·.length < bufferSize) := by
  obtain ⟨parser, store, parseType, method, uri, fragment, path, query, body, version⟩ := r
  rcases method with _ | method
  · rfl
  rcases uri with _ | uri
  · rfl
  rcases version with _ | version
  · rfl
  cases query with
  | none => exact headerLines_of_first (by simp; omega) store.headerList
  | some query => exact headerLines_of_first (by simp; omega) store.headerList

theorem HttpResponse.toBuffer_eq (r : HttpResponse) (bufferSize : Nat) :
    r.toBuffer bufferSize = r.canonical.filter (·.length < bufferSize) := by
  obtain ⟨parser, store, parseType, body, version, reason, status⟩ := r
  rcases version with _ | version
  · rfl
  rcases reason with _ | reason
  · rfl
  exact headerLines_of_first (by simp; omega) store.headerList

end Texts

/-- `to_buffer` is exact and bounded: it writes inside the buffer and computes no negative
difference, and it returns the length of the text, with the text in front of the buffer, exactly
when the buffer is longer than the text. -/
structure ExactOutput (bufferSize : Nat) (mem : Bytes) (outputLines : Option (List OutputLine))
    (canonical : Option Bytes) : Prop where
  result : ∃ n mem', toBufferAt outputLines mem bufferSize = some (n, mem') ∧ mem'.length = bufferSize ∧
    (0 ≤ n ↔ ∃ text, canonical = some text ∧ text.length < bufferSize) ∧
    ∀ text, canonical = some text → text.length < bufferSize → n = text.length ∧ mem'.take text.length = text
  checks : ∀ ls d, outputLines = some ls → OutputCursor.Checked bufferSize ls ⟨mem, 0, 0⟩ d → d.length ≤ bufferSize

theorem exactOutput_of_renders {bufferSize : Nat} {mem : Bytes} {outputLines : Option (List OutputLine)}
    {canonical : Option Bytes} (h : Option.Rel Renders outputLines canonical) (hsize : bufferSize < 2 ^ 64)
    (hmem : mem.length = bufferSize) (hlong : ∀ text, canonical = some text → text.length < 2 ^ 63) :
    ExactOutput bufferSize mem outputLines canonical := by
  cases h with
  | none => exact ⟨⟨-1, mem, rfl, hmem, by simp, by simp⟩, by simp⟩
  | @some ls text hrenders =>
    have hwritten : OutputCursor.Written bufferSize ⟨mem, 0, 0⟩ [] := ⟨List.nil_prefix, hmem, rfl, rfl⟩
    have hlines := hwritten.lines hsize hrenders.room
      (by simpa [hrenders.text_eq] using hlong text rfl) (.inr ⟨Nat.zero_le _, hrenders.ne_nil⟩)
    rw [List.nil_append, hrenders.text_eq] at hlines
    obtain ⟨hchecks, hresult⟩ := hlines
    refine ⟨?_, fun ls' d hls hd => ?_⟩
    · split_ifs at hresult with hfits
      · obtain ⟨mem', hcall, hlen, hpre⟩ := hresult
        refine ⟨_, mem', hcall, hlen, ⟨fun _ => ⟨text, rfl, hfits⟩, fun _ => by omega⟩, ?_⟩
        rintro text' htext -
        obtain rfl := Option.some.inj htext
        exact ⟨rfl, List.prefix_iff_eq_take.mp hpre |>.symm⟩
      · obtain ⟨mem', hcall, hlen⟩ := hresult
        refine ⟨_, mem', hcall, hlen, ⟨by omega, ?_⟩, ?_⟩
        · rintro ⟨text', htext, hfits'⟩
          obtain rfl := Option.some.inj htext
          exact absurd hfits' hfits
        · rintro text' htext hfits'
          obtain rfl := Option.some.inj htext
          exact absurd hfits' hfits
    · obtain rfl := Option.some.inj hls
      exact hchecks d hd

/-- `to_buffer` of every request and of every response is exact and bounded, for every size of
the buffer. -/
theorem toBuffer_exact {bufferSize : Nat} {mem : Bytes} (hsize : bufferSize < 2 ^ 64) (hmem : mem.length = bufferSize) :
    (∀ r : HttpRequest, (∀ text, r.canonical = some text → text.length < 2 ^ 63) →
      ExactOutput bufferSize mem r.outputLines r.canonical) ∧
    (∀ r : HttpResponse, (∀ text, r.canonical = some text → text.length < 2 ^ 63) →
      ExactOutput bufferSize mem r.outputLines r.canonical) :=
  ⟨fun r => exactOutput_of_renders r.renders hsize hmem, fun r => exactOutput_of_renders r.renders hsize hmem⟩

/-- A response of 19 bytes in a buffer of 20. -/
theorem toBuffer_exact_response :
    ExactOutput 20 (List.replicate 20 0)
      { HttpResponse.resize 0 0 with
        httpVersion := some [72, 84, 84, 80, 47, 49, 46, 49], reasonPhrase := some [79, 75], statusCode := 200 }.outputLines
      (some [72, 84, 84, 80, 47, 49, 46, 49, 32, 50, 48, 48, 32, 79, 75, 13, 10, 13, 10]) := by
  have hcanonical : ({ HttpResponse.resize 0 0 with
        httpVersion := some [72, 84, 84, 80, 47, 49, 46, 49], reasonPhrase := some [79, 75], statusCode := 200 } :
        HttpResponse).canonical =
      some [72, 84, 84, 80, 47, 49, 46, 49, 32, 50, 48, 48, 32, 79, 75, 13, 10, 13, 10] := by decide
  rw [← hcanonical]
  refine (toBuffer_exact (by decide) (by decide)).2 _ fun text htext => ?_
  obtain rfl := Option.some.inj (hcanonical.symm.trans htext)
  decide

end Latypus.Http
