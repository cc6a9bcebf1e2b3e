import Latypus.Config.Directives
import Latypus.Http.DateRoundTrip
import Latypus.Http.ResponseSegments
import Latypus.Lib.Search
import Latypus.Server.AccessLog
import Latypus.Server.FileHandler
import Latypus.Server.Sending
import Latypus.Server.TranslatePath

/-! The replies of `http_server_handler_file`: what `handle_request` and `populate_response` make of a file or of
the error that stands in its place. The length in the header is that of what the reader has, and every value
can stand in a header line. -/

namespace Latypus.Http
open Config (ascii)

/-- The table of the status texts. -/
def statusTexts : List (Nat × Bytes) :=
  [(0, ascii "No Status"), (100, ascii "Continue"), (101, ascii "Switching Protocols"), (200, ascii "OK"),
    (201, ascii "Created"), (202, ascii "Accepted"), (203, ascii "Non-Authoritative Information"),
    (204, ascii "No Content"), (205, ascii "Reset Content"), (206, ascii "Partial Content"),
    (207, ascii "Multi Status Response"), (300, ascii "Multiple Choices"), (301, ascii "Moved Permanently"),
    (302, ascii "Found"), (303, ascii "See Other"), (304, ascii "Not Modified"), (305, ascii "Use Proxy"),
    (307, ascii "Temporary Redirect"), (400, ascii "Bad Request"), (401, ascii "Unauthorized"),
    (402, ascii "Payment Required"), (403, ascii "Forbidden"), (404, ascii "Not Found"),
    (405, ascii "Method Not Allowed"), (406, ascii "Not Acceptable"), (407, ascii "Proxy Authentication Required"),
    (408, ascii "Request Time-out"), (409, ascii "Conflict"), (410, ascii "Gone"), (411, ascii "Length Required"),
    (412, ascii "PreconditionFailed"), (413, ascii "Request Entity Too Large"),
    (414, ascii "Request-URI Too Large"), (415, ascii "Unsupported Media Type"),
    (416, ascii "Requested range not satisfiable"), (417, ascii "Expectation Failed"),
    (422, ascii "Unprocessable Entity"), (423, ascii "Locked"), (424, ascii "Failed Dependency"),
    (500, ascii "Internal Server Error"), (501, ascii "Not Implemented"), (502, ascii "Bad Gateway"),
    (503, ascii "Service Unavailable"), (504, ascii "Gateway Time-out"), (505, ascii "HTTP Version not supported"),
    (507, ascii "Insufficient Storage")]

def getStatusText (code : Nat) : Option Bytes := statusTexts.lookup code

end Latypus.Http

namespace Latypus.Server
open Lib Http
open Config (ascii)

/-- A file system whose files can be read; the size is what `stat` says of it. -/
structure FileStore extends FileSystem where
  size : Bytes → Nat
  content : Bytes → Bytes

/-- What the handler takes from the file system, the configuration and the clock. -/
structure FileSite where
  files : FileStore
  mimeTypes : List (Bytes × Bytes)
  locationIndex : Location → List Bytes
  configIndex : List Bytes
  gmtimeR : Int → Tm
  timegm : Tm → Int

/-- `find_last_of` for one character. -/
def findLastOf (c : UInt8) (path : Bytes) : Option Nat :=
  (path.reverse.findIdx? (· == c)).map fun i => path.length - 1 - i

/-- `lookup_mime_type`: the extension and its type. A position that is not found counts as larger than any dot,
so a path without a slash has no extension. -/
def lookupMimeType (mimeTypes : List (Bytes × Bytes)) (path : Bytes) : Bytes × Bytes :=
  let fallback := (mimeTypes.lookup (ascii "default")).getD (ascii "application/octet-stream")
  match findLastOf 46 path, findLastOf 47 path with
  | some lastDot, some lastSlash =>
    if lastSlash < lastDot then
      let extension := path.drop (lastDot + 1)
      (extension, (mimeTypes.lookup extension).getD fallback)
    else ([], fallback)
  | _, _ => ([], fallback)

def errorBufferSize : Nat := 1024

def errorPage (code : Nat) (text : Bytes) : Bytes :=
  ascii "<html>\r\n<head><title>" ++ decimal code ++ [32] ++ text ++ ascii "</title></head>\r\n<body>\r\n<h1>" ++
    decimal code ++ [32] ++ text ++ ascii "</h1>\r\n</body>\r\n</html>\r\n"

/-- `create_error_response`: what a reader finds in the buffer, and the length. -/
def createErrorResponse (code : Nat) (text : Bytes) : Bytes × Nat :=
  -- `snprintf` returns the length of the whole text, whatever the buffer took of it.
  let mem := snprintf errorBufferSize (errorPage code text) ++ [0]
  let errorLen := (errorPage code text).length
  (mem.take errorLen, errorLen)

/-- `open_path` of a request that has been opened. -/
def openPath (fs : FileSystem) (indexFiles : List Bytes) (path : Bytes) : Bytes :=
  match resolvePath fs indexFiles path with
  | .ok (openPath, _) => openPath
  | .error _ => path

/-- The handler behind `handle_request`. -/
structure FileAnswer where
  statusCode : Nat
  statusText : Bytes
  mimeType : Bytes
  contentLength : Nat
  lastModified : Int
  reader : Option Bytes
deriving DecidableEq, Repr

namespace FileSite
variable (site : FileSite)

/-- `handle_request` with the index files of the location; a status without a text would be a null pointer. -/
def handleRequest (location : Option (List Bytes)) (pathTranslated method : Bytes) (store : HeaderStore) :
    Option FileAnswer := do
  let handler := Server.handleRequest site.timegm site.files.toFileSystem location site.configIndex pathTranslated
    method store
  let statusText ← getStatusText handler.statusCode
  if handler.statusCode = statusOk then
    let openPath := openPath site.files.toFileSystem (indexFiles location site.configIndex) pathTranslated
    some ⟨handler.statusCode, statusText, (lookupMimeType site.mimeTypes openPath).2, site.files.size openPath,
      handler.lastModified, some (site.files.content openPath)⟩
  else if handler.statusCode = statusNotModified then
    some ⟨handler.statusCode, statusText, [], 0, handler.lastModified, none⟩
  else
    let (page, contentLength) := createErrorResponse handler.statusCode statusText
    some ⟨handler.statusCode, statusText, ascii "text/html", contentLength, handler.lastModified, some page⟩

end FileSite

/-- The fields that `populate_response` sets, by the version and the Connection header of the request. -/
def FileAnswer.fields (gmtimeR : Int → Tm) (a : FileAnswer) (version : Bytes) (connection : Option Bytes) :
    List (Bytes × Bytes) :=
  (if a.statusCode ≠ statusNotModified then
    [(ascii "Content-Type", a.mimeType), (headerContentLength, decimal a.contentLength)] else []) ++
  (if a.statusCode = statusOk ∨ a.statusCode = statusNotModified then
    [(ascii "Last-Modified", HttpDate.toHeaderString gmtimeR a.lastModified 32)] else []) ++
  match getVersionType version with
  | .v10 => if connection.any (strcaseEq · tokenKeepalive) then [(headerConnection, tokenKeepalive)] else []
  | .v11 => [(headerConnection, if closesConnection version connection then tokenClose else tokenKeepalive)]
  | .v20 | .none => []

/-- The fields that `process_request_headers` sets. -/
def greeting (gmtimeR : Int → Tm) (currentTime : Int) : List (Bytes × Bytes) :=
  [(ascii "Server", ascii "latypus/0.0.0"), (ascii "Date", HttpDate.toHeaderString gmtimeR currentTime 32)]

namespace FileSite
variable (site : FileSite)

/-- The reply to a request whose location names the file handler. -/
def reply (vhostMap : List (Bytes × Vhost)) (currentTime : Int) (r : HttpRequest) : Option Reply := do
  let path ← r.requestPath
  let t ← translatePath vhostMap (r.store.getHeaderString headerHost) (cString path)
  if t.handler ≠ ascii "http_server_handler_file" then none
  else
    let version ← r.httpVersion
    let method ← r.requestMethod
    let a ← site.handleRequest (some (site.locationIndex t.location)) t.pathTranslated method r.store
    some ⟨greeting site.gmtimeR currentTime, a.statusCode, a.statusText,
      a.fields site.gmtimeR version (r.store.getHeaderString headerConnection), a.reader⟩

end FileSite

/-! ### Values of header fields -/

theorem isValue_of_isDigit {w : Bytes} (h : ∀ c ∈ w, isDigit c) : IsValue w := by
  have hbounds (c : UInt8) (hc : c ∈ w) : 48 ≤ c.toNat := by
    have := h c hc
    simp only [isDigit, Bool.and_eq_true, decide_eq_true_eq, UInt8.le_iff_toNat_le] at this
    exact this.1
  constructor
  · rw [List.all_eq_true]
    intro c hc
    have hle := hbounds c hc
    simp only [isText, Bool.and_eq_true, decide_eq_true_eq]
    constructor <;> rintro rfl <;> simp at hle
  · intro hhead
    have hle := hbounds 32 (List.mem_of_mem_head? hhead)
    simp at hle

theorem length_decimal_le {n k : Nat} (hk : 0 < k) (h : n < 10 ^ k) : (decimal n).length ≤ k := by
  rw [decimal, if_neg (by omega), List.length_map, Int.natAbs_natCast]
  exact (Nat.length_toDigits_le_iff (by decide) hk).mpr h

theorem names_text :
    (∀ w < 7, (HttpDate.dayNames.getD w []).all isText ∧ (HttpDate.dayNames.getD w []).head? ≠ some 32) ∧
      ∀ m < 12, (HttpDate.monthNames.getD m []).all isText := by
  decide

theorem toHeaderString_isValue {gmtimeR : Int → Tm} {tod : Int} (h : Printable (gmtimeR tod)) :
    IsValue (HttpDate.toHeaderString gmtimeR tod 32) ∧ (HttpDate.toHeaderString gmtimeR tod 32).length = 29 := by
  obtain ⟨hsec, hmin, hhour, hmday, hmon, hwday⟩ := h.inRange
  have hday : (HttpDate.dayName (gmtimeR tod)).all isText ∧ (HttpDate.dayName (gmtimeR tod)).head? ≠ some 32 :=
    names_text.1 _ (by omega)
  have hmonth : (HttpDate.monthName (gmtimeR tod)).all isText := names_text.2 _ (by omega)
  have hdaylen : (HttpDate.dayName (gmtimeR tod)).length = 3 := HttpDate.names_length.1 _ (by omega)
  have hmonlen : (HttpDate.monthName (gmtimeR tod)).length = 3 := HttpDate.names_length.2 _ (by omega)
  have htext {ds : Bytes} {n : Int} (hds : HttpDate.Digits ds n) : ds.all isText := (isValue_of_isDigit hds.isDigit).1
  have hmday' := htext (HttpDate.digits_two (n := (gmtimeR tod).mday) (by omega) (by omega))
  have hhour' := htext (HttpDate.digits_two (n := (gmtimeR tod).hour) (by omega) (by omega))
  have hmin' := htext (HttpDate.digits_two (n := (gmtimeR tod).min) (by omega) (by omega))
  have hsec' := htext (HttpDate.digits_two (n := (gmtimeR tod).sec) (by omega) (by omega))
  have hyear' := htext (HttpDate.digits_four (n := (gmtimeR tod).year + 1900) h.year.1 (by have := h.year.2; omega))
  rw [HttpDate.toHeaderString_eq h.inRange (by decide)]
  obtain ⟨c, name, hname⟩ := List.exists_cons_of_ne_nil (List.ne_nil_of_length_pos (by rw [hdaylen]; decide))
  refine ⟨⟨?_, ?_⟩, ?_⟩
  · simp only [HttpDate.imfFixdate, HttpDate.timeOfDay, List.all_append, hday.1,
      hmonth, hmday', hhour', hmin', hsec', hyear']
    decide
  · have hhead := hday.2
    rw [hname] at hhead
    simp only [HttpDate.imfFixdate, hname, List.cons_append, List.head?_cons] at hhead ⊢
    exact hhead
  · simp [HttpDate.imfFixdate, HttpDate.timeOfDay, HttpDate.twoDigits, HttpDate.fourDigits, hdaylen, hmonlen]

/-! ### The head of a reply -/

/-- A reply that can be written as a response head. -/
structure Reply.Proper (reply : Reply) : Prop where
  status : 100 ≤ reply.statusCode ∧ reply.statusCode ≤ 999
  text_ne_nil : reply.statusText ≠ []
  text : reply.statusText.all isText
  isField : ∀ f ∈ reply.greeting ++ reply.fields, IsField f
  names : ((reply.greeting ++ reply.fields).map Prod.fst).Nodup

theorem foldl_setHeaderField (fields : List (Bytes × Bytes)) (r : HttpResponse) :
    (fields.map fun f => ResponseCall.setHeaderField f.1 f.2).foldl HttpResponse.call r =
      { r with store := r.store.setFields fields } := by
  induction fields generalizing r with
  | nil => rfl
  | cons f fields ih =>
    rw [List.map_cons, List.foldl_cons, ih]
    rfl

theorem space_le_fieldLines (fields : List (Bytes × Bytes)) :
    HeaderStore.space fields ≤ (fieldLines fields).length := by
  induction fields with
  | nil => simp [HeaderStore.space]
  | cons f fields ih =>
    simp only [HeaderStore.space, fieldLines, fieldLine, List.map_cons, List.sum_cons, List.length_append,
      List.length_cons, List.length_nil] at ih ⊢
    omega

namespace Reply.Proper
variable {reply : Reply}

def head (h : reply.Proper) : ResponseHead where
  version := version11
  status := reply.statusCode
  reason := reply.statusText
  fields := reply.greeting ++ reply.fields
  isVersion := isVersion_version11
  status_digits := h.status
  reason_ne_nil := h.text_ne_nil
  reason_text := h.text
  isField := h.isField
  names := h.names

/-- Where the buffers have room, the head is what the response becomes. -/
theorem serialised (h : reply.Proper) {capacity maxHeaders size : Nat} (hcapacity : h.head.bytes.length ≤ capacity)
    (hmax : (reply.greeting ++ reply.fields).length ≤ maxHeaders) (hsize : h.head.bytes.length < size) :
    (reply.calls.foldl HttpResponse.call (.resize capacity maxHeaders)).toBuffer size = some h.head.bytes := by
  have hbytes : h.head.bytes = version11 ++ [32] ++ decimal reply.statusCode ++ [32] ++ reply.statusText ++ [13, 10] ++
      fieldLines (reply.greeting ++ reply.fields) := rfl
  have hspace := space_le_fieldLines (reply.greeting ++ reply.fields)
  have hsum : HeaderStore.space (reply.greeting ++ reply.fields) =
      HeaderStore.space reply.greeting + HeaderStore.space reply.fields := by simp [HeaderStore.space]
  have hlen := congrArg List.length hbytes
  simp only [List.length_append, List.length_cons, List.length_nil] at hlen hmax hspace
  have hnames := h.names
  have hgreeting := HeaderStore.setFields_of_le reply.greeting
    (s := ⟨capacity, version11.length + 1, maxHeaders, [], [], false⟩) (by simp; omega)
    (by
      rw [List.map_append] at hnames
      simpa using (List.nodup_append.mp hnames).1)
    (by simp only; omega)
  have hfields := HeaderStore.setFields_of_le reply.fields
    (s := ⟨capacity, version11.length + 1 + HeaderStore.space reply.greeting + (reply.statusText.length + 1),
      maxHeaders, reply.greeting, reply.greeting, false⟩) (by simpa using hmax) (by simpa using hnames)
    (by simp only; omega)
  have hversion : (HttpResponse.resize capacity maxHeaders).call (.setHttpVersion version11) =
      { HttpResponse.resize capacity maxHeaders with
        store := ⟨capacity, version11.length + 1, maxHeaders, [], [], false⟩
        httpVersion := some version11 } := by
    simp only [HttpResponse.call, HttpResponse.resize, HeaderStore.resize]
    rw [HeaderStore.allocString_of_le version11 (by simp only; omega)]
    simp only [Nat.zero_add]
  have hreason (r : HttpResponse)
      (hr : r.store = ⟨capacity, version11.length + 1 + HeaderStore.space reply.greeting, maxHeaders, reply.greeting,
        reply.greeting, false⟩) : (r.call (.setStatusCode reply.statusCode)).call (.setReasonPhrase reply.statusText) =
      { r with
        store := { r.store with bufferOffset := r.store.bufferOffset + (reply.statusText.length + 1) }
        statusCode := reply.statusCode
        reasonPhrase := some reply.statusText } := by
    simp only [HttpResponse.call]
    rw [HeaderStore.allocString_of_le reply.statusText (by rw [hr]; simp only; omega)]
  have hcalls : reply.calls.foldl HttpResponse.call (.resize capacity maxHeaders) =
      { HttpResponse.resize capacity maxHeaders with
        store := ⟨capacity, version11.length + 1 + HeaderStore.space reply.greeting + (reply.statusText.length + 1) +
          HeaderStore.space reply.fields, maxHeaders, reply.greeting ++ reply.fields, reply.greeting ++ reply.fields,
          false⟩
        httpVersion := some version11
        statusCode := reply.statusCode
        reasonPhrase := some reply.statusText } := by
    have hstart : reply.calls = .setHttpVersion version11 :: reply.greeting.map (fun f => .setHeaderField f.1 f.2) ++
      [.setStatusCode reply.statusCode, .setReasonPhrase reply.statusText] ++
      reply.fields.map fun f => .setHeaderField f.1 f.2 := rfl
    simp only [hstart, List.foldl_append, List.foldl_cons, List.foldl_nil]
    rw [hversion, foldl_setHeaderField reply.greeting, hgreeting, hreason _ rfl, foldl_setHeaderField reply.fields]
    simp only [List.nil_append]
    rw [hfields]
  have hcanonical : (reply.calls.foldl HttpResponse.call (.resize capacity maxHeaders)).canonical =
      some h.head.bytes := by
    rw [hcalls, hbytes]
    rfl
  rw [HttpResponse.toBuffer_eq, hcanonical, Option.filter_some, if_pos (by simpa using hsize)]

end Reply.Proper

/-! ### The answer of the handler -/

section Open
variable {fs : FileSystem} {index : List Bytes} {path openPath : Bytes} {stat : Stat}

theorem stat_of_findIndex {found : Bytes × Stat} (h : findIndex fs path index = some found) :
    fs.stat found.1 = (0, found.2) := by
  induction index with
  | nil => cases h
  | cons name index ih =>
    simp only [findIndex] at h
    split_ifs at h with herr
    · obtain rfl := Option.some.inj h
      rw [← herr]
    · exact ih h

theorem stat_of_resolvePath (h : resolvePath fs index path = .ok (openPath, stat)) : fs.stat openPath = (0, stat) := by
  unfold resolvePath at h
  dsimp only at h
  split_ifs at h with hacces hnoent herr hdir hreg
  · cases hindex : findIndex fs path index with
    | none =>
      rw [hindex] at h
      cases h
    | some found =>
      rw [hindex] at h
      obtain rfl := Except.ok.inj h
      exact stat_of_findIndex hindex
  · obtain ⟨rfl, rfl⟩ := Prod.mk.inj (Except.ok.inj h)
    rw [← not_not.mp herr]

theorem mem_of_resolvePath {status : Nat} (h : resolvePath fs index path = .error status) :
    status ∈ [statusForbidden, statusNotFound, statusInternalServerError] := by
  unfold resolvePath at h
  dsimp only at h
  split_ifs at h
  · obtain rfl := Except.error.inj h
    decide
  · obtain rfl := Except.error.inj h
    decide
  · obtain rfl := Except.error.inj h
    decide
  · cases hindex : findIndex fs path index with
    | none =>
      rw [hindex] at h
      obtain rfl := Except.error.inj h
      decide
    | some found =>
      rw [hindex] at h
      cases h
  · obtain rfl := Except.error.inj h
    decide

/-- A file has been opened, or the status tells why there is none. -/
theorem openResource_cases (fs : FileSystem) (index : List Bytes) (path : Bytes) :
    (fs.openFile (Server.openPath fs index path) = 0 ∧
      openResource fs index path = (statusOk, (fs.stat (Server.openPath fs index path)).2.mtime)) ∨
    ∃ status ∈ [statusForbidden, statusNotFound, statusInternalServerError],
      openResource fs index path = (status, 0) := by
  unfold openResource Server.openPath
  cases hresolve : resolvePath fs index path with
  | error status => exact .inr ⟨status, mem_of_resolvePath hresolve, rfl⟩
  | ok found =>
    obtain ⟨openPath, stat⟩ := found
    dsimp only
    split_ifs with hacces hnoent herr
    · exact .inr ⟨statusForbidden, by decide, rfl⟩
    · exact .inr ⟨statusNotFound, by decide, rfl⟩
    · exact .inr ⟨statusInternalServerError, by decide, rfl⟩
    · exact .inl ⟨not_not.mp herr, by rw [stat_of_resolvePath hresolve]⟩

end Open

/-- Every text can be the reason of a response, and its page fits the buffer. -/
theorem statusTexts_spec : ∀ e ∈ statusTexts, e.2 ≠ [] ∧ e.2.all isText ∧ e.2.length ≤ 31 ∧
    (errorPage e.1 e.2).length < errorBufferSize := by
  decide +kernel

/-- A page that fits the buffer is read back. -/
theorem createErrorResponse_eq {code : Nat} {text : Bytes} (h : (errorPage code text).length < errorBufferSize) :
    createErrorResponse code text = (errorPage code text, (errorPage code text).length) := by
  have htake : (errorPage code text).take (errorBufferSize - 1) = errorPage code text :=
    List.take_of_length_le (by omega)
  rw [createErrorResponse, snprintf, htake]
  simp

theorem lookupMimeType_mem (mimeTypes : List (Bytes × Bytes)) (path : Bytes) :
    (lookupMimeType mimeTypes path).2 ∈ ascii "application/octet-stream" :: mimeTypes.map Prod.snd := by
  have hlookup (key : Bytes) {w fallback : Bytes} (hw : fallback ∈ w :: mimeTypes.map Prod.snd) :
      (mimeTypes.lookup key).getD fallback ∈ w :: mimeTypes.map Prod.snd := by
    cases h : mimeTypes.lookup key with
    | none => exact hw
    | some value => exact List.mem_cons_of_mem _ (List.mem_map.mpr ⟨_, mem_of_lookup_eq_some h, rfl⟩)
  have hfallback := hlookup (ascii "default") (List.mem_cons_self (a := ascii "application/octet-stream"))
  unfold lookupMimeType
  dsimp only
  split
  · split_ifs
    · exact hlookup _ hfallback
    · exact hfallback
  · exact hfallback

/-- The errors that the handler reports. -/
def errorStatuses : List Nat := [statusForbidden, statusNotFound, statusMethodNotAllowed, statusInternalServerError]

theorem errorStatuses_spec : ∀ status ∈ errorStatuses,
    (getStatusText status).isSome ∧ status ≠ statusOk ∧ status ≠ statusNotModified := by
  decide +kernel

theorem errorStatuses_bounds : ∀ status ∈ errorStatuses, 100 ≤ status ∧ status < 10 ^ 3 := by decide

namespace FileSite

/-- The files are as long as `stat` says, and types and times can stand in a header line. -/
structure Servable (site : FileSite) (typeLength : Nat) : Prop where
  size_eq : ∀ path, site.files.openFile path = 0 → site.files.size path = (site.files.content path).length
  small : ∀ path, (site.files.content path).length < 10 ^ 18
  types : ∀ e ∈ site.mimeTypes, IsValue e.2 ∧ e.2.length ≤ typeLength
  typeLength_le : 24 ≤ typeLength
  modified : ∀ path, Printable (site.gmtimeR (site.files.stat path).2.mtime)

variable (site : FileSite) (location : Option (List Bytes)) (path method : Bytes)

/-- The status that the method and the file system give, and the time of the last modification. -/
def opened : Nat × Int :=
  match getMethodType method with
  | .get | .head => openResource site.files.toFileSystem (indexFiles location site.configIndex) path
  | .other => (statusMethodNotAllowed, 0)

/-- What the site has for a request: the file, or the page that tells of the error. -/
def body : Bytes :=
  let status := (site.opened location path method).1
  if status = statusOk then
    site.files.content (openPath site.files.toFileSystem (indexFiles location site.configIndex) path)
  else errorPage status ((getStatusText status).getD [])

/-- An answer that carries the body. -/
structure Carries (n : Nat) (a : FileAnswer) : Prop where
  statusCode : a.statusCode = (site.opened location path method).1
  statusCode_mem : a.statusCode = statusOk ∨ a.statusCode ∈ errorStatuses
  statusText : a.statusText ≠ [] ∧ a.statusText.all isText ∧ a.statusText.length ≤ 31
  mimeType : IsValue a.mimeType ∧ a.mimeType.length ≤ n
  reader : a.reader = some (site.body location path method)
  contentLength : a.contentLength = (site.body location path method).length
  small : a.contentLength < 10 ^ 18
  modified : a.statusCode = statusOk → Printable (site.gmtimeR a.lastModified)

variable {site location path method}

theorem lookupMimeType_isValue {n : Nat} (hsite : site.Servable n) (openPath : Bytes) :
    IsValue (lookupMimeType site.mimeTypes openPath).2 ∧ (lookupMimeType site.mimeTypes openPath).2.length ≤ n := by
  rcases List.mem_cons.mp (lookupMimeType_mem site.mimeTypes openPath) with heq | hmem
  · rw [heq]
    exact ⟨by unfold IsValue; decide, hsite.typeLength_le⟩
  · obtain ⟨e, he, heq⟩ := List.mem_map.mp hmem
    rw [← heq]
    exact hsite.types e he

theorem opened_cases (site : FileSite) (location : Option (List Bytes)) (path method : Bytes) :
    (∃ p, site.files.openFile p = 0 ∧
      p = openPath site.files.toFileSystem (indexFiles location site.configIndex) path ∧
      site.opened location path method = (statusOk, (site.files.stat p).2.mtime)) ∨
    ∃ status ∈ errorStatuses, site.opened location path method = (status, 0) := by
  have hopen := openResource_cases site.files.toFileSystem (indexFiles location site.configIndex) path
  have hcases : (site.opened location path method =
      openResource site.files.toFileSystem (indexFiles location site.configIndex) path) ∨
      site.opened location path method = (statusMethodNotAllowed, 0) := by
    unfold opened
    split <;> simp
  rcases hcases with heq | heq
  · rw [heq]
    rcases hopen with ⟨hfile, hok⟩ | ⟨status, hstatus, herr⟩
    · exact .inl ⟨_, hfile, rfl, hok⟩
    · refine .inr ⟨status, ?_, herr⟩
      simp only [errorStatuses, List.mem_cons, List.not_mem_nil, or_false] at hstatus ⊢
      omega
  · exact .inr ⟨_, by decide, heq⟩

theorem body_of_ok {modified : Int} (h : site.opened location path method = (statusOk, modified)) :
    site.body location path method =
      site.files.content (openPath site.files.toFileSystem (indexFiles location site.configIndex) path) := by
  rw [body, h]
  rfl

theorem body_of_error {status : Nat} {modified : Int} {text : Bytes}
    (h : site.opened location path method = (status, modified)) (hok : status ≠ statusOk)
    (htext : getStatusText status = some text) : site.body location path method = errorPage status text := by
  rw [body, h]
  simp only [if_neg hok, htext, Option.getD_some]

theorem isValue_html : IsValue (ascii "text/html") := by
  unfold IsValue
  decide

theorem length_html : (ascii "text/html").length ≤ 24 := by decide

/-- Without an If-Modified-Since every request is answered with the body. -/
theorem handleRequest_carries {n : Nat} (hsite : site.Servable n) (location : Option (List Bytes))
    (path method : Bytes) {store : HeaderStore} (hnone : store.getHeaderString headerIfModifiedSince = none) :
    ∃ a, site.handleRequest location path method store = some a ∧ site.Carries location path method n a := by
  have hhandler : Server.handleRequest site.timegm site.files.toFileSystem location site.configIndex path method store =
      ⟨(site.opened location path method).1, (site.opened location path method).2, 0⟩ := by
    rw [Server.handleRequest, hnone]
    change (if (site.opened location path method).1 = statusOk then _ else _) = _
    split_ifs <;> rfl
  rw [FileSite.handleRequest, hhandler]
  -- a file was opened, whose size is that of its content, or a page is sent, which fits its buffer
  rcases opened_cases site location path method with
    ⟨p, hfile, rfl, hopen⟩ | ⟨status, hstatus, hopen⟩
  · have hbody := body_of_ok hopen
    have hsize := hsite.size_eq _ hfile
    have hsmall := hsite.small (openPath site.files.toFileSystem (indexFiles location site.configIndex) path)
    rw [hopen]
    refine ⟨_, rfl, ?_⟩
    have hspec := statusTexts_spec (statusOk, ascii "OK") (by decide)
    exact ⟨by rw [hopen], .inl rfl, ⟨hspec.1, hspec.2.1, hspec.2.2.1⟩, lookupMimeType_isValue hsite _,
      congrArg some hbody.symm, by rw [hbody, ← hsize], by rwa [← hsize] at hsmall, fun _ => hsite.modified _⟩
  · obtain ⟨hsome, hok, hmodified⟩ := errorStatuses_spec status hstatus
    obtain ⟨text, htext⟩ := Option.isSome_iff_exists.mp hsome
    have hspec := statusTexts_spec (status, text) (mem_of_lookup_eq_some htext)
    have hbody := body_of_error hopen hok htext
    rw [hopen]
    simp only [htext, Option.bind_eq_bind, Option.bind_some, if_neg hok, if_neg hmodified,
      createErrorResponse_eq hspec.2.2.2]
    refine ⟨_, rfl, ?_⟩
    have hfits : (errorPage status text).length < errorBufferSize := hspec.2.2.2
    exact ⟨by rw [hopen], .inr hstatus, ⟨hspec.1, hspec.2.1, hspec.2.2.1⟩,
      ⟨isValue_html, length_html.trans hsite.typeLength_le⟩, congrArg some hbody.symm, by rw [hbody],
      hfits.trans (by decide), fun h => absurd h hok⟩

end FileSite

/-! ### The reply to a client -/

theorem length_fieldLines (fields : List (Bytes × Bytes)) :
    (fieldLines fields).length = (fields.map fun f => f.1.length + f.2.length + 4).sum + 2 := by
  induction fields with
  | nil => rfl
  | cons f fields ih =>
    simp only [fieldLines, fieldLine, List.length_append, List.length_cons, List.length_nil, ih, List.map_cons,
      List.sum_cons]
    omega

theorem isField_of_isValue {name value : Bytes} (hname : name ≠ [] ∧ name.all isToken) (hvalue : IsValue value) :
    IsField (name, value) :=
  ⟨hname.1, hname.2, hvalue.1, hvalue.2⟩

section Reply
variable {site : FileSite} {location : Option (List Bytes)} {path method : Bytes} {n : Nat} {a : FileAnswer}

/-- The reply with this answer to a request of version 1.1 without a Connection header. -/
def FileSite.replyOf (site : FileSite) (currentTime : Int) (a : FileAnswer) : Reply :=
  ⟨greeting site.gmtimeR currentTime, a.statusCode, a.statusText, a.fields site.gmtimeR version11 none, a.reader⟩

/-- The names and values of all the fields. -/
theorem FileSite.Carries.fields_eq (h : site.Carries location path method n a) (currentTime : Int) :
    (site.replyOf currentTime a).greeting ++ (site.replyOf currentTime a).fields =
      [(ascii "Server", ascii "latypus/0.0.0"), (ascii "Date", HttpDate.toHeaderString site.gmtimeR currentTime 32),
        (ascii "Content-Type", a.mimeType), (headerContentLength, decimal a.contentLength)] ++
      (if a.statusCode = statusOk then
        [(ascii "Last-Modified", HttpDate.toHeaderString site.gmtimeR a.lastModified 32)] else []) ++
      [(headerConnection, tokenKeepalive)] := by
  have hmodified : a.statusCode ≠ statusNotModified := by
    rcases h.statusCode_mem with hok | herr
    · rw [hok]
      decide
    · exact (errorStatuses_spec _ herr).2.2
  simp only [FileSite.replyOf, greeting, FileAnswer.fields, if_pos hmodified, or_iff_left hmodified]
  rfl

/-- The fields can be written, and there is room for them in 256 bytes beside the type. -/
theorem FileSite.Carries.proper (h : site.Carries location path method n a) {currentTime : Int}
    (hnow : Printable (site.gmtimeR currentTime)) :
    ∃ hproper : (site.replyOf currentTime a).Proper, hproper.head.bytes.length ≤ 256 + n ∧
      hproper.head.fields.length ≤ 6 ∧ hproper.head.fields.lookup headerContentLength = some (decimal a.contentLength) ∧
      hproper.head.fields.lookup headerConnection = some tokenKeepalive := by
  have hfields := h.fields_eq currentTime
  have hdate := toHeaderString_isValue hnow
  have hdigits : IsValue (decimal a.contentLength) := isValue_of_isDigit (decimal_spec (Int.natCast_nonneg _)).2.1
  have hlength := length_decimal_le (by decide) h.small
  have hstatus : 100 ≤ a.statusCode ∧ a.statusCode < 10 ^ 3 := by
    rcases h.statusCode_mem with hok | herr
    · rw [hok]
      decide
    · exact errorStatuses_bounds _ herr
  have hisField : ∀ f ∈ (site.replyOf currentTime a).greeting ++ (site.replyOf currentTime a).fields, IsField f := by
    intro f hf
    rw [hfields] at hf
    simp only [List.mem_append, List.mem_cons, List.not_mem_nil, or_false] at hf
    rcases hf with ((rfl | rfl | rfl | rfl) | hf) | rfl
    · exact isField_of_isValue (by decide) (by unfold IsValue; decide)
    · exact isField_of_isValue (by decide) hdate.1
    · exact isField_of_isValue (by decide) h.mimeType.1
    · exact isField_of_isValue (by decide) hdigits
    · split_ifs at hf with hok
      · obtain rfl := List.mem_singleton.mp hf
        exact isField_of_isValue (by decide) (toHeaderString_isValue (h.modified hok)).1
      · cases hf
    · exact isField_of_isValue (by decide) (by unfold IsValue; decide)
  have hnames : (((site.replyOf currentTime a).greeting ++ (site.replyOf currentTime a).fields).map
      Prod.fst).Nodup := by
    rw [hfields]
    split_ifs
    · exact show [ascii "Server", ascii "Date", ascii "Content-Type", headerContentLength, ascii "Last-Modified",
        headerConnection].Nodup by decide
    · exact show [ascii "Server", ascii "Date", ascii "Content-Type", headerContentLength, headerConnection].Nodup
        by decide
  have hproper : (site.replyOf currentTime a).Proper :=
    ⟨⟨by simp only [FileSite.replyOf]; omega, by simp only [FileSite.replyOf]; omega⟩, h.statusText.1,
      h.statusText.2.1, hisField, hnames⟩
  refine ⟨hproper, ?_, ?_, ?_, ?_⟩
  · have hbytes : hproper.head.bytes = version11 ++ [32] ++ decimal a.statusCode ++ [32] ++ a.statusText ++ [13, 10] ++
      fieldLines ((site.replyOf currentTime a).greeting ++ (site.replyOf currentTime a).fields) := rfl
    have hcode := length_decimal_le (by decide) hstatus.2
    have htext := h.statusText.2.2
    have hmime := h.mimeType.2
    have hsizes : version11.length = 8 ∧ (ascii "Server").length = 6 ∧ (ascii "latypus/0.0.0").length = 13 ∧
        (ascii "Date").length = 4 ∧ (ascii "Content-Type").length = 12 ∧ headerContentLength.length = 14 ∧
        (ascii "Last-Modified").length = 13 ∧ headerConnection.length = 10 ∧ tokenKeepalive.length = 10 := by decide
    have hlast : a.statusCode = statusOk → (HttpDate.toHeaderString site.gmtimeR a.lastModified 32).length = 29 :=
      fun hok => (toHeaderString_isValue (h.modified hok)).2
    rw [hbytes, hfields, List.length_append, length_fieldLines]
    split_ifs with hok
    · have hlast := hlast hok
      have hdate := hdate.2
      simp only [List.map_append, List.map_cons, List.map_nil, List.sum_append, List.sum_cons, List.sum_nil,
        List.length_append, List.length_cons, List.length_nil]
      omega
    · have hdate := hdate.2
      simp only [List.append_nil, List.map_append, List.map_cons, List.map_nil, List.sum_append, List.sum_cons,
        List.sum_nil, List.length_append, List.length_cons, List.length_nil]
      omega
  · change ((site.replyOf currentTime a).greeting ++ (site.replyOf currentTime a).fields).length ≤ 6
    rw [hfields]
    split_ifs <;> simp
  · change ((site.replyOf currentTime a).greeting ++ (site.replyOf currentTime a).fields).lookup _ = _
    rw [hfields]
    rfl
  · change ((site.replyOf currentTime a).greeting ++ (site.replyOf currentTime a).fields).lookup _ = _
    rw [hfields]
    split_ifs <;> rfl

end Reply
end Latypus.Server
