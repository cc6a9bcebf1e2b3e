import Latypus.Http.Captures
import Latypus.Http.HeaderMemory

/-! `http_request` with its strings in the header buffer. It behaves as the message model says,
and a path that it has stored is what the parser captured, with a terminator behind it. -/

namespace Latypus.Http
open Lib

structure RequestMemory where
  parser : HttpParser
  store : HeaderMemory
  parseType : HttpParseType
  requestMethod : HeaderString
  requestUri : HeaderString
  fragment : HeaderString
  requestPath : HeaderString
  queryString : HeaderString
  bodyStart : HeaderString
  httpVersion : HeaderString
deriving DecidableEq, Repr

namespace RequestMemory

def reset (buffer : Bytes) (maxHeaders : Nat) : RequestMemory :=
  { parser := .reset, store := .reset buffer maxHeaders, parseType := .none,
    requestMethod := ⟨none, 0⟩, requestUri := ⟨none, 0⟩, fragment := ⟨none, 0⟩,
    requestPath := ⟨none, 0⟩, queryString := ⟨none, 0⟩, bodyStart := ⟨none, 0⟩,
    httpVersion := ⟨none, 0⟩ }

/-- A callback of the parser, whose slices are positions in `mem`. -/
def callback (mem : Bytes) (r : RequestMemory) : Callback → Option RequestMemory
  | .setParseType t => some { r with parseType := t }
  | .setHeaderField name value => do
    let (store, _) ← r.store.setHeaderField (bytesAt mem name) (bytesAt mem value)
    some { r with store }
  | .setRequestMethod str => do
    let (store, s) ← r.store.allocString (bytesAt mem str)
    some { r with store, requestMethod := s }
  | .setRequestUri str => do
    let (store, s) ← r.store.allocString (bytesAt mem str)
    some { r with store, requestUri := s }
  | .setFragment str => do
    let (store, s) ← r.store.allocString (bytesAt mem str)
    some { r with store, fragment := s }
  | .setRequestPath str => do
    let (store, s) ← r.store.allocString (bytesAt mem str)
    some { r with store, requestPath := s }
  | .setQueryString str => do
    let (store, s) ← r.store.allocString (bytesAt mem str)
    some { r with store, queryString := s }
  | .setBodyStart str => some { r with bodyStart := str }
  | .setHttpVersion str => do
    let (store, s) ← r.store.allocString (bytesAt mem str)
    some { r with store, httpVersion := s }
  | .setReasonPhrase _ => some r
  | .setStatusCode _ => some r

/-- `parse` on the chunk that stands at `[buf, buf + len)` of `mem`. -/
def parse (r : RequestMemory) (mem : Bytes) (buf len : Nat) : Option RequestMemory :=
  let (parser, cbs) := r.parser.parse buf ((mem.drop buf).take len)
  cbs.foldlM (callback mem) { r with parser }

/-- The string points to what the message model has, or is NULL. -/
def Points (m : HeaderMemory) (str : HeaderString) (s : Option Bytes) : Prop :=
  s = none ∧ str = ⟨none, 0⟩ ∨ ∃ w, s = some w ∧ str.Stored m.buffer m.bufferOffset w

theorem Points.keep {m m' : HeaderMemory} {str : HeaderString} {s : Option Bytes}
    (h : Points m str s) (hkeep : m.Keeps m') : Points m' str s := by
  rcases h with h | ⟨w, hs, hstr⟩
  · exact .inl h
  · exact .inr ⟨w, hs, hkeep str w hstr⟩

structure Represents (R : RequestMemory) (r : HttpRequest) : Prop where
  parser : R.parser = r.parser
  store : R.store.Represents r.store
  parseType : R.parseType = r.parseType
  requestMethod : Points R.store R.requestMethod r.requestMethod
  requestUri : Points R.store R.requestUri r.requestUri
  fragment : Points R.store R.fragment r.fragment
  requestPath : Points R.store R.requestPath r.requestPath
  queryString : Points R.store R.queryString r.queryString
  bodyStart : R.bodyStart = r.bodyStart
  httpVersion : Points R.store R.httpVersion r.httpVersion

theorem represents_reset (buffer : Bytes) (maxHeaders : Nat) :
    (reset buffer maxHeaders).Represents (.resize buffer.length maxHeaders) :=
  ⟨rfl, ⟨rfl, rfl, Nat.zero_le _, rfl, rfl, .nil, .nil⟩, rfl, .inl ⟨rfl, rfl⟩, .inl ⟨rfl, rfl⟩,
    .inl ⟨rfl, rfl⟩, .inl ⟨rfl, rfl⟩, .inl ⟨rfl, rfl⟩, rfl, .inl ⟨rfl, rfl⟩⟩

section Callback
variable {R : RequestMemory} {r : HttpRequest} (h : R.Represents r)
include h

/-- Another call of the storage leaves the strings where they are. -/
theorem Represents.keep {m : HeaderMemory} {s : HeaderStore} (hrep : m.Represents s)
    (hkeep : R.store.Keeps m) : Represents { R with store := m } { r with store := s } :=
  ⟨h.parser, hrep, h.parseType, h.requestMethod.keep hkeep, h.requestUri.keep hkeep,
    h.fragment.keep hkeep, h.requestPath.keep hkeep, h.queryString.keep hkeep, h.bodyStart,
    h.httpVersion.keep hkeep⟩

theorem alloc_spec (w : Bytes) :
    ∃ m str, R.store.allocString w = some (m, str) ∧
      Represents { R with store := m } { r with store := (r.store.allocString w).1 } ∧
      Points m str (r.store.allocString w).2 := by
  obtain ⟨m, str, hcall, hrep, hkeep, hstr⟩ := HeaderMemory.allocString_spec h.store w
  refine ⟨m, str, hcall, h.keep hrep hkeep, ?_⟩
  exact hstr.imp_right fun ⟨hs, hstored⟩ => ⟨w, hs, hstored⟩

theorem callback_spec (mem : Bytes) (cb : Callback) :
    ∃ R', R.callback mem cb = some R' ∧ R'.Represents (r.callback mem cb) := by
  cases cb with
  | setParseType t => exact ⟨_, rfl, { h with parseType := rfl }⟩
  | setBodyStart str => exact ⟨_, rfl, { h with bodyStart := rfl }⟩
  | setReasonPhrase str => exact ⟨_, rfl, h⟩
  | setStatusCode str => exact ⟨_, rfl, h⟩
  | setHeaderField name value =>
    obtain ⟨m, hcall, hrep, hkeep⟩ :=
      HeaderMemory.setHeaderField_spec h.store (bytesAt mem name) (bytesAt mem value)
    exact ⟨_, by rw [callback, hcall]; rfl, h.keep hrep hkeep⟩
  | setRequestMethod str =>
    obtain ⟨m, s, hcall, hrep, hstr⟩ := alloc_spec h (bytesAt mem str)
    exact ⟨{ R with store := m, requestMethod := s }, by rw [callback, hcall]; rfl,
      { hrep with requestMethod := hstr }⟩
  | setRequestUri str =>
    obtain ⟨m, s, hcall, hrep, hstr⟩ := alloc_spec h (bytesAt mem str)
    exact ⟨{ R with store := m, requestUri := s }, by rw [callback, hcall]; rfl,
      { hrep with requestUri := hstr }⟩
  | setFragment str =>
    obtain ⟨m, s, hcall, hrep, hstr⟩ := alloc_spec h (bytesAt mem str)
    exact ⟨{ R with store := m, fragment := s }, by rw [callback, hcall]; rfl,
      { hrep with fragment := hstr }⟩
  | setRequestPath str =>
    obtain ⟨m, s, hcall, hrep, hstr⟩ := alloc_spec h (bytesAt mem str)
    exact ⟨{ R with store := m, requestPath := s }, by rw [callback, hcall]; rfl,
      { hrep with requestPath := hstr }⟩
  | setQueryString str =>
    obtain ⟨m, s, hcall, hrep, hstr⟩ := alloc_spec h (bytesAt mem str)
    exact ⟨{ R with store := m, queryString := s }, by rw [callback, hcall]; rfl,
      { hrep with queryString := hstr }⟩
  | setHttpVersion str =>
    obtain ⟨m, s, hcall, hrep, hstr⟩ := alloc_spec h (bytesAt mem str)
    exact ⟨{ R with store := m, httpVersion := s }, by rw [callback, hcall]; rfl,
      { hrep with httpVersion := hstr }⟩

theorem callbacks_spec (mem : Bytes) (cbs : List Callback) :
    ∃ R', cbs.foldlM (callback mem) R = some R' ∧ R'.Represents (cbs.foldl (HttpRequest.callback mem) r) := by
  induction cbs generalizing R r with
  | nil => exact ⟨R, rfl, h⟩
  | cons cb cbs ih =>
    obtain ⟨R₁, hcall, hrep⟩ := callback_spec h mem cb
    obtain ⟨R', hcalls, hrep'⟩ := ih hrep
    exact ⟨R', by rw [List.foldlM_cons, hcall]; exact hcalls, hrep'⟩

/-- `parse` writes inside the buffer, and does what the message model says. -/
theorem parse_spec (mem : Bytes) (buf len : Nat) :
    ∃ R', R.parse mem buf len = some R' ∧ R'.Represents (r.parse mem buf len) := by
  rw [parse, HttpRequest.parse, h.parser]
  set p := (r.parser.parse buf ((mem.drop buf).take len)).1 with hp
  have hparser : Represents { R with parser := p } { r with parser := p } := { h with parser := rfl }
  exact callbacks_spec hparser mem _

end Callback

/-! ### Runs -/

/-- The requests that feeding a text leads to after a reset. The chunks stand behind one another
at `base`, in a memory that may change around them. -/
inductive Fed (base : Nat) (buffer : Bytes) (maxHeaders : Nat) : Bytes → RequestMemory → Prop
  | reset : Fed base buffer maxHeaders [] (.reset buffer maxHeaders)
  | parse {text chunk mem : Bytes} {R R' : RequestMemory} (h : Fed base buffer maxHeaders text R)
      (hmem : (mem.drop base).take (text ++ chunk).length = text ++ chunk)
      (hparse : R.parse mem (base + text.length) chunk.length = some R') :
      Fed base buffer maxHeaders (text ++ chunk) R'

theorem bytesAt_of_holds {base : Nat} {mem text w : Bytes} {str : HeaderString}
    (hmem : (mem.drop base).take text.length = text) (h : str.Holds base text w) :
    bytesAt mem str = w := by
  obtain ⟨m, hdata, hle, hle', rfl⟩ := h
  rw [bytesAt, hdata, Option.getD_some, ← hmem, List.drop_take, List.take_take, List.drop_drop,
    Nat.add_sub_cancel' hle, min_eq_left (by omega)]

/-- The path that a request has stored, if any, is a path. -/
def PathStored (r : HttpRequest) : Prop := ∀ path, r.requestPath = some path → IsPath path

theorem pathStored_callbacks {base : Nat} {mem text : Bytes} {r : HttpRequest} {cbs : List Callback}
    (hmem : (mem.drop base).take text.length = text) (h : PathStored r)
    (hsound : ∀ cb ∈ cbs, cb.Sound base text) :
    PathStored (cbs.foldl (HttpRequest.callback mem) r) := by
  induction cbs generalizing r with
  | nil => exact h
  | cons cb cbs ih =>
    refine ih ?_ fun cb' hcb' => hsound cb' (List.mem_cons_of_mem cb hcb')
    have hcb := hsound cb List.mem_cons_self
    cases cb with
    | setRequestPath str =>
      obtain ⟨w, hholds, hw⟩ := hcb
      intro path hpath
      simp only [HttpRequest.callback, bytesAt_of_holds hmem hholds, HeaderStore.allocString] at hpath
      split_ifs at hpath
      obtain rfl := Option.some.inj hpath
      exact hw
    | setParseType _ | setHeaderField _ _ | setRequestMethod _ | setRequestUri _ | setFragment _
    | setQueryString _ | setBodyStart _ | setHttpVersion _ | setReasonPhrase _ | setStatusCode _ =>
      exact h

/-- What holds of every request that has been fed a text. -/
theorem Fed.spec {base maxHeaders : Nat} {buffer text : Bytes} {R : RequestMemory}
    (h : Fed base buffer maxHeaders text R) :
    ∃ r, R.Represents r ∧ PathStored r ∧ HttpParser.Captured base text r.parser := by
  induction h with
  | reset =>
    exact ⟨_, represents_reset buffer maxHeaders, fun _ h => (Option.some_ne_none _ h.symm).elim,
      HttpParser.captured_of_cs (.inl rfl)⟩
  | @parse text chunk mem R R' _ hmem hparse ih =>
    obtain ⟨r, hrep, hpath, hcaptured⟩ := ih
    obtain ⟨R'', hparse', hrep'⟩ := parse_spec hrep mem (base + text.length) chunk.length
    obtain rfl : R'' = R' := by simpa [hparse] using hparse'.symm
    have hchunk : (mem.drop (base + text.length)).take chunk.length = chunk := by
      have hdrop := congrArg (List.drop text.length) hmem
      rwa [List.drop_take, List.drop_drop, List.length_append, Nat.add_sub_cancel_left,
        List.drop_left] at hdrop
    obtain ⟨hcaptured', hsound⟩ := HttpParser.parse_captured hcaptured chunk
    refine ⟨_, hrep', ?_, ?_⟩
    · rw [HttpRequest.parse, hchunk]
      exact pathStored_callbacks hmem hpath hsound
    · rw [HttpRequest.parse, hchunk, HttpRequest.parser_callbacks]
      exact hcaptured'

/-- The string behind a stored path. -/
theorem Fed.path {base maxHeaders q : Nat} {buffer text : Bytes} {R : RequestMemory}
    (hfed : Fed base buffer maxHeaders text R) (hq : R.requestPath.data = some q) :
    ∃ path, path.head? = some 47 ∧ 0 ∉ path ∧
      (R.store.buffer.drop q).take (path.length + 1) = path ++ [0] := by
  obtain ⟨r, hrep, hpath, -⟩ := hfed.spec
  rcases hrep.requestPath with ⟨-, hnull⟩ | ⟨path, hsome, q', hstr, -, hbytes⟩
  · rw [hnull] at hq
    cases hq
  · rw [hstr] at hq
    obtain rfl := Option.some.inj hq
    have hp := hpath path hsome
    exact ⟨path, hp.slash, fun h0 => absurd (hp.bytes 0 h0) (by decide), hbytes⟩

end RequestMemory

/-- The parser's captures are sound: every callback on a chunk satisfies its grammar with its
slices inside the bytes fed so far, a parser that has finished has reported one type, and a path
that a request has stored, which is what `sanitize_path` gets, begins with a slash and ends at
its only NUL. -/
theorem captures_sound (base : Nat) :
    (∀ fed chunk, ∀ cb ∈ ((HttpParser.reset.feed base fed).1.parse (base + fed.flatten.length) chunk).2,
      cb.Sound base (fed.flatten ++ chunk)) ∧
    (∀ fed, (HttpParser.reset.feed base fed).1.isFinished = true →
      HttpParser.types (HttpParser.reset.feed base fed).2 = [.request] ∨
        HttpParser.types (HttpParser.reset.feed base fed).2 = [.response]) ∧
    (∀ buffer maxHeaders text R q, RequestMemory.Fed base buffer maxHeaders text R →
      R.requestPath.data = some q → ∃ path, path.head? = some 47 ∧ 0 ∉ path ∧
        (R.store.buffer.drop q).take (path.length + 1) = path ++ [0]) := by
  refine ⟨HttpParser.feed_sound base, HttpParser.types_of_isFinished base, ?_⟩
  intro buffer maxHeaders text R q hfed hq
  exact hfed.path hq

/-- A request after `GET /a ` in one chunk. -/
def pathExample : RequestMemory :=
  { parser := ⟨5, 7, some 4, none, none, 0⟩
    store := ⟨[71, 69, 84, 0, 47, 97, 0, 47, 97, 0, 0, 0], 10, 4, [], [], false⟩
    parseType := .none
    requestMethod := ⟨some 0, 3⟩
    requestUri := ⟨some 7, 2⟩
    fragment := ⟨none, 0⟩
    requestPath := ⟨some 4, 2⟩
    queryString := ⟨none, 0⟩
    bodyStart := ⟨none, 0⟩
    httpVersion := ⟨none, 0⟩ }

theorem captures_sound_pathExample :
    RequestMemory.Fed 0 (List.replicate 12 0) 4 [71, 69, 84, 32, 47, 97, 32] pathExample ∧
      pathExample.requestPath.data = some 4 ∧
      ∃ path, path.head? = some 47 ∧ 0 ∉ path ∧
        (pathExample.store.buffer.drop 4).take (path.length + 1) = path ++ [0] := by
  have hparse : (RequestMemory.reset (List.replicate 12 0) 4).parse [71, 69, 84, 32, 47, 97, 32] 0 7 =
      some pathExample := by decide +kernel
  have hfed : RequestMemory.Fed 0 (List.replicate 12 0) 4 [71, 69, 84, 32, 47, 97, 32] pathExample :=
    .parse .reset (show (List.drop 0 [71, 69, 84, 32, 47, 97, 32]).take _ = [] ++ _ from rfl) hparse
  exact ⟨hfed, rfl, (captures_sound 0).2.2 _ _ _ _ _ hfed rfl⟩

end Latypus.Http
