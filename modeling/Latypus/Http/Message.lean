import Mathlib.Data.List.TakeWhile
import Latypus.Http.Parser

/-! `http_request` and `http_response`: the header storage both keep, the callbacks by which
the parser fills them, and their serialisers. A stored string is its bytes, `none` for a NULL
pointer; the storage keeps count of the space that the copies take in the header buffer. -/

namespace Latypus.Http

abbrev Bytes := List UInt8

instance : LawfulBEq Bytes := inferInstance

/-- The bytes of a slice of the memory the parser works on. -/
def bytesAt (mem : Bytes) (str : HeaderString) : Bytes :=
  (mem.drop (str.data.getD 0)).take str.length

/-- What a reader of the NUL-terminated copy of a string sees of it. -/
def cString (str : Bytes) : Bytes := str.takeWhile (· ≠ 0)

theorem cString_of_notMem {w : Bytes} (hw : 0 ∉ w) : cString w = w := by
  rw [cString, List.takeWhile_eq_self_iff]
  intro c hc
  simp only [ne_eq, decide_eq_true_eq]
  rintro rfl
  exact hw hc

/-- `sprintf` with `%d`. -/
def decimal (n : Int) : Bytes :=
  let digits := (Nat.toDigits 10 n.natAbs).map fun c => UInt8.ofNat c.toNat
  if n < 0 then 45 :: digits else digits

def isSpace (c : UInt8) : Bool := c = 32 || (9 ≤ c && c ≤ 13)

def isDigit (c : UInt8) : Bool := 48 ≤ c && c ≤ 57

def isAlpha (c : UInt8) : Bool := (65 ≤ c && c ≤ 90) || (97 ≤ c && c ≤ 122)

/-- The digits at the front of a string, as a number. -/
def digitsValue (str : Bytes) : Nat :=
  (str.takeWhile isDigit).foldl (fun n c => 10 * n + (c.toNat - 48)) 0

def atoi (str : Bytes) : Int :=
  match str.dropWhile isSpace with
  | 45 :: rest => -(digitsValue rest : Int)
  | 43 :: rest => digitsValue rest
  | rest => digitsValue rest

/-- `atoi` on a string that begins with a digit. -/
theorem atoi_of_isDigit {c : UInt8} {str : Bytes} (hc : isDigit c) :
    atoi (c :: str) = digitsValue (c :: str) := by
  obtain ⟨hlow, hhigh⟩ : 48 ≤ c.toNat ∧ c.toNat ≤ 57 := by
    simpa [isDigit, UInt8.le_iff_toNat_le] using hc
  have hne : ∀ d : UInt8, d.toNat < 48 → c ≠ d := by
    rintro d hd rfl
    omega
  have hspace : isSpace c = false := by
    simp only [isSpace, Bool.or_eq_false_iff, Bool.and_eq_false_iff, decide_eq_false_iff_not,
      UInt8.le_iff_toNat_le]
    exact ⟨hne 32 (by decide), .inr (by rw [show (13 : UInt8).toNat = 13 from rfl]; omega)⟩
  rw [atoi, List.dropWhile_cons_of_neg (by simp [hspace])]
  split
  · rename_i heq
    exact absurd (List.cons.inj heq).1 (hne 45 (by decide))
  · rename_i heq
    exact absurd (List.cons.inj heq).1 (hne 43 (by decide))
  · rfl

theorem digitChar_byte : ∀ d < 10, isDigit (UInt8.ofNat (Nat.digitChar d).toNat) ∧
    (UInt8.ofNat (Nat.digitChar d).toNat).toNat = d + 48 := by
  decide

/-- The digits of a number, each as a byte, and the number that they are read as. -/
theorem toDigits_bytes (n : Nat) :
    ∃ ds : Bytes, ds = (Nat.toDigits 10 n).map (fun c => UInt8.ofNat c.toNat) ∧ ds ≠ [] ∧
      (∀ c ∈ ds, isDigit c) ∧ ds.foldl (fun n c => 10 * n + (c.toNat - 48)) 0 = n := by
  induction n using Nat.strong_induction_on with
  | _ n ih =>
    by_cases hn : n < 10
    · obtain ⟨hdigit, hvalue⟩ := digitChar_byte n hn
      refine ⟨_, rfl, ?_⟩
      rw [Nat.toDigits_of_lt_base hn]
      simp [hdigit, hvalue]
    · obtain ⟨ds, hds, -, hdigits, hvalue⟩ := ih (n / 10) (by omega)
      obtain ⟨hlast, hlastValue⟩ := digitChar_byte (n % 10) (by omega)
      refine ⟨_, rfl, ?_⟩
      rw [Nat.toDigits_of_base_le (by omega) (by omega), List.map_append, ← hds, List.foldl_append, hvalue]
      refine ⟨by simp, ?_, ?_⟩
      · simpa [or_imp, forall_and, hlast] using hdigits
      · simp only [List.map_cons, List.map_nil, List.foldl_cons, List.foldl_nil, hlastValue]
        omega

/-- A number that is not negative is printed as digits that `atoi` reads back. -/
theorem decimal_spec {n : Int} (hn : 0 ≤ n) :
    decimal n ≠ [] ∧ (∀ c ∈ decimal n, isDigit c) ∧ atoi (decimal n) = n := by
  obtain ⟨ds, hds, hne, hdigits, hvalue⟩ := toDigits_bytes n.natAbs
  have hdecimal : decimal n = ds := by
    rw [hds, decimal, if_neg (by omega)]
  rw [hdecimal]
  refine ⟨hne, hdigits, ?_⟩
  obtain ⟨c, cs, rfl⟩ := List.exists_cons_of_ne_nil hne
  have htake : (c :: cs).takeWhile isDigit = c :: cs := List.takeWhile_eq_self_iff.mpr hdigits
  rw [atoi_of_isDigit (hdigits c (by simp)), digitsValue, htake, hvalue]
  omega

/-- The header storage that requests and responses have in common. -/
structure HeaderStore where
  capacity : Nat
  bufferOffset : Nat
  maxHeaders : Nat
  headerList : List (Bytes × Bytes)
  headerMap : List (Bytes × Bytes)
  overflow : Bool
deriving DecidableEq, Repr

namespace HeaderStore

def resize (capacity maxHeaders : Nat) : HeaderStore := ⟨capacity, 0, maxHeaders, [], [], false⟩

def reset (s : HeaderStore) : HeaderStore := .resize s.capacity s.maxHeaders

def bytesWritable (s : HeaderStore) : Nat := s.capacity - s.bufferOffset

def allocString (s : HeaderStore) (str : Bytes) : HeaderStore × Option Bytes :=
  if s.bytesWritable < str.length + 1 then ({ s with overflow := true }, none)
  else ({ s with bufferOffset := s.bufferOffset + (str.length + 1) }, some str)

/-- Replace the first entry of the list that is the given pair. -/
def replaceFirst (entry : Bytes × Bytes) (value : Bytes) : List (Bytes × Bytes) → List (Bytes × Bytes)
  | [] => []
  | e :: es => if e = entry then (e.1, value) :: es else e :: replaceFirst entry value es

def setHeaderField (s : HeaderStore) (name value : Bytes) : HeaderStore × Bool :=
  if s.headerMap.length = s.maxHeaders then ({ s with overflow := true }, false)
  else
    match s.headerMap.lookup name with
    | none =>
      if s.bytesWritable < name.length + value.length + 2 then ({ s with overflow := true }, false)
      else
        ({ s with
          bufferOffset := s.bufferOffset + (name.length + 1) + (value.length + 1)
          headerList := s.headerList ++ [(name, value)]
          headerMap := s.headerMap ++ [(name, value)] }, true)
    | some orig =>
      let joined := orig ++ [44, 32] ++ value
      if s.bytesWritable < joined.length + 1 then ({ s with overflow := true }, false)
      else
        ({ s with
          bufferOffset := s.bufferOffset + (joined.length + 1)
          headerList := replaceFirst (name, orig) joined s.headerList
          headerMap := replaceFirst (name, orig) joined s.headerMap }, true)

/-- `get_header_string`: the value under exactly this name. -/
def getHeaderString (s : HeaderStore) (name : Bytes) : Option Bytes := s.headerMap.lookup name

end HeaderStore

/-- The header lines of both `to_buffer` functions: every line must leave room behind it. -/
def headerLines (bufferSize : Nat) : Bytes → List (Bytes × Bytes) → Option Bytes
  | out, [] => if 2 < bufferSize - out.length then some (out ++ [13, 10]) else none
  | out, (name, value) :: rest =>
    if name.length + value.length + 4 < bufferSize - out.length then
      headerLines bufferSize (out ++ name ++ [58, 32] ++ value ++ [13, 10]) rest
    else none

structure HttpRequest where
  parser : HttpParser
  store : HeaderStore
  parseType : HttpParseType
  requestMethod : Option Bytes
  requestUri : Option Bytes
  fragment : Option Bytes
  requestPath : Option Bytes
  queryString : Option Bytes
  bodyStart : HeaderString
  httpVersion : Option Bytes
deriving DecidableEq, Repr

namespace HttpRequest

def resize (capacity maxHeaders : Nat) : HttpRequest :=
  { parser := .reset, store := .resize capacity maxHeaders, parseType := .none,
    requestMethod := none, requestUri := none, fragment := none, requestPath := none,
    queryString := none, bodyStart := ⟨none, 0⟩, httpVersion := none }

def reset (r : HttpRequest) : HttpRequest := .resize r.store.capacity r.store.maxHeaders

def isFinished (r : HttpRequest) : Bool := r.parser.isFinished

def hasOverflow (r : HttpRequest) : Bool := r.store.overflow

def hasError (r : HttpRequest) : Bool :=
  r.parser.hasError || r.hasOverflow || (r.parser.isFinished && r.parseType != .request)

/-- A callback of the parser, whose slices are positions in `mem`. -/
def callback (mem : Bytes) (r : HttpRequest) : Callback → HttpRequest
  | .setParseType t => { r with parseType := t }
  | .setHeaderField name value =>
    { r with store := (r.store.setHeaderField (bytesAt mem name) (bytesAt mem value)).1 }
  | .setRequestMethod str =>
    let (store, s) := r.store.allocString (bytesAt mem str)
    { r with store, requestMethod := s }
  | .setRequestUri str =>
    let (store, s) := r.store.allocString (bytesAt mem str)
    { r with store, requestUri := s }
  | .setFragment str =>
    let (store, s) := r.store.allocString (bytesAt mem str)
    { r with store, fragment := s }
  | .setRequestPath str =>
    let (store, s) := r.store.allocString (bytesAt mem str)
    { r with store, requestPath := s }
  | .setQueryString str =>
    let (store, s) := r.store.allocString (bytesAt mem str)
    { r with store, queryString := s }
  | .setBodyStart str => { r with bodyStart := str }
  | .setHttpVersion str =>
    let (store, s) := r.store.allocString (bytesAt mem str)
    { r with store, httpVersion := s }
  | .setReasonPhrase _ => r
  | .setStatusCode _ => r

/-- `parse` on the chunk that stands at `[buf, buf + len)` of `mem`. -/
def parse (r : HttpRequest) (mem : Bytes) (buf len : Nat) : HttpRequest :=
  let (parser, cbs) := r.parser.parse buf ((mem.drop buf).take len)
  cbs.foldl (callback mem) { r with parser }

def toString (r : HttpRequest) : Bytes :=
  (match r.requestMethod, r.requestUri with
    | some method, some uri => cString method ++ [32] ++ cString uri
    | _, _ => []) ++
  (match r.queryString with
    | some query => 63 :: cString query
    | none => []) ++
  (match r.fragment with
    | some fragment => 35 :: cString fragment
    | none => []) ++
  (match r.httpVersion with
    | some version => 32 :: cString version
    | none => []) ++
  [13, 10] ++ r.store.headerList.flatMap (fun h => h.1 ++ [58, 32] ++ h.2 ++ [13, 10]) ++ [13, 10]

/-- `to_buffer`: the bytes written, whose number is the result, or `none` for -1. -/
def toBuffer (r : HttpRequest) (bufferSize : Nat) : Option Bytes :=
  match r.requestMethod, r.requestUri, r.httpVersion with
  | some method, some uri, some version =>
    let query := match r.queryString with
      | some query => 63 :: query
      | none => []
    if method.length + uri.length + query.length + version.length + 4 < bufferSize then
      headerLines bufferSize (method ++ [32] ++ uri ++ query ++ [32] ++ version ++ [13, 10])
        r.store.headerList
    else none
  | _, _, _ => none

theorem parser_callbacks (mem : Bytes) (r : HttpRequest) (cbs : List Callback) :
    (cbs.foldl (callback mem) r).parser = r.parser := by
  induction cbs generalizing r with
  | nil => rfl
  | cons cb cbs ih =>
    rw [List.foldl_cons, ih]
    cases cb <;> rfl

end HttpRequest

structure HttpResponse where
  parser : HttpParser
  store : HeaderStore
  parseType : HttpParseType
  bodyStart : HeaderString
  httpVersion : Option Bytes
  reasonPhrase : Option Bytes
  statusCode : Int
deriving DecidableEq, Repr

namespace HttpResponse

def resize (capacity maxHeaders : Nat) : HttpResponse :=
  { parser := .reset, store := .resize capacity maxHeaders, parseType := .none,
    bodyStart := ⟨none, 0⟩, httpVersion := none, reasonPhrase := none, statusCode := 0 }

/-- `reset`, which leaves `body_start` as it is. -/
def reset (r : HttpResponse) : HttpResponse :=
  { HttpResponse.resize r.store.capacity r.store.maxHeaders with bodyStart := r.bodyStart }

def isFinished (r : HttpResponse) : Bool := r.parser.isFinished

def hasOverflow (r : HttpResponse) : Bool := r.store.overflow

def hasError (r : HttpResponse) : Bool :=
  r.parser.hasError || r.hasOverflow || (r.parser.isFinished && r.parseType != .response)

def callback (mem : Bytes) (r : HttpResponse) : Callback → HttpResponse
  | .setParseType t => { r with parseType := t }
  | .setHeaderField name value =>
    { r with store := (r.store.setHeaderField (bytesAt mem name) (bytesAt mem value)).1 }
  | .setBodyStart str => { r with bodyStart := str }
  | .setHttpVersion str =>
    let (store, s) := r.store.allocString (bytesAt mem str)
    { r with store, httpVersion := s }
  | .setReasonPhrase str =>
    let (store, s) := r.store.allocString (bytesAt mem str)
    { r with store, reasonPhrase := s }
  | .setStatusCode str => { r with statusCode := atoi (bytesAt mem str) }
  | .setRequestMethod _ | .setRequestUri _ | .setFragment _ | .setRequestPath _
  | .setQueryString _ => r

def parse (r : HttpResponse) (mem : Bytes) (buf len : Nat) : HttpResponse :=
  let (parser, cbs) := r.parser.parse buf ((mem.drop buf).take len)
  cbs.foldl (callback mem) { r with parser }

def toBuffer (r : HttpResponse) (bufferSize : Nat) : Option Bytes :=
  match r.httpVersion, r.reasonPhrase with
  | some version, some reason =>
    let status := decimal r.statusCode
    if version.length + status.length + reason.length + 4 < bufferSize then
      headerLines bufferSize (version ++ [32] ++ status ++ [32] ++ reason ++ [13, 10])
        r.store.headerList
    else none
  | _, _ => none

end HttpResponse
end Latypus.Http
