import Latypus.Http.Constants
import Latypus.Http.DateParse

/-! `http_server_handler_file`: the file that a path leads to and the status of the response. The time
of an If-Modified-Since is compared whether or not the value is a date, so a malformed value can make
a file count as not modified. -/

namespace Latypus.Server
open Http

/-- The fields of `struct stat` that the handler looks at. -/
structure Stat where
  mode : Nat
  mtime : Int
deriving DecidableEq, Repr

/-- The file system: what `stat` and `open` do with a path, and the error code, which is 0 without an error. -/
structure FileSystem where
  stat : Bytes → Nat × Stat
  openFile : Bytes → Nat

def sIfdir : Nat := 0x4000
def sIfreg : Nat := 0x8000
def enoent : Nat := 2
def eacces : Nat := 13

def statusOk : Nat := 200
def statusNotModified : Nat := 304
def statusForbidden : Nat := 403
def statusNotFound : Nat := 404
def statusMethodNotAllowed : Nat := 405
def statusInternalServerError : Nat := 500

/-- "If-Modified-Since" -/
def headerIfModifiedSince : Bytes := [73, 102, 45, 77, 111, 100, 105, 102, 105, 101, 100, 45, 83, 105, 110, 99, 101]

def indexPath (path index : Bytes) : Bytes :=
  if path.getLast? = some 47 then path ++ index else path ++ [47] ++ index

/-- The first index file of a directory that there is, and what `stat` finds. -/
def findIndex (fs : FileSystem) (path : Bytes) : List Bytes → Option (Bytes × Stat)
  | [] => none
  | index :: rest =>
    let (errcode, stat) := fs.stat (indexPath path index)
    if errcode = 0 then some (indexPath path index, stat) else findIndex fs path rest

/-- The path to open, or the status that says why there is none. -/
def resolvePath (fs : FileSystem) (indexFiles : List Bytes) (path : Bytes) : Except Nat (Bytes × Stat) :=
  let (errcode, stat) := fs.stat path
  if errcode = eacces then .error statusForbidden
  else if errcode = enoent then .error statusNotFound
  else if errcode ≠ 0 then .error statusInternalServerError
  else if stat.mode &&& sIfdir ≠ 0 then
    match findIndex fs path indexFiles with
    | some found => .ok found
    | none => .error statusForbidden
  else if stat.mode &&& sIfreg = 0 then .error statusForbidden
  else .ok (path, stat)

/-- The handler behind `handle_request`: the times are those of `last_modified` and `if_modified_since`,
which `init` sets to 0. -/
structure FileHandler where
  statusCode : Nat
  lastModified : Int
  ifModifiedSince : Int
deriving DecidableEq, Repr

/-- `open_resource`: the status and the time of the last modification. -/
def openResource (fs : FileSystem) (indexFiles : List Bytes) (path : Bytes) : Nat × Int :=
  match resolvePath fs indexFiles path with
  | .error status => (status, 0)
  | .ok (openPath, stat) =>
    let errcode := fs.openFile openPath
    if errcode = eacces then (statusForbidden, 0)
    else if errcode = enoent then (statusNotFound, 0)
    else if errcode ≠ 0 then (statusInternalServerError, 0)
    else (statusOk, stat.mtime)

/-- The index files of the location, if it has any. -/
def indexFiles (location : Option (List Bytes)) (config : List Bytes) : List Bytes :=
  match location with
  | some (index :: rest) => index :: rest
  | _ => config

/-- `http_date(str).tod` -/
def todOf (timegm : Tm → Int) (str : Bytes) : Int := (HttpDate.parse timegm str).2

/-- `handle_request`, up to the status. -/
def handleRequest (timegm : Tm → Int) (fs : FileSystem) (location : Option (List Bytes)) (config : List Bytes)
    (pathTranslated method : Bytes) (store : HeaderStore) : FileHandler :=
  let (status, lastModified) :=
    match getMethodType method with
    | .get | .head => openResource fs (indexFiles location config) pathTranslated
    | .other => (statusMethodNotAllowed, 0)
  if status = statusOk then
    match store.getHeaderString headerIfModifiedSince with
    | some str =>
      let ifModifiedSince := todOf timegm str
      ⟨if lastModified ≤ ifModifiedSince then statusNotModified else status, lastModified, ifModifiedSince⟩
    | none => ⟨status, lastModified, 0⟩
  else ⟨status, lastModified, 0⟩

section Status
variable {timegm : Tm → Int} {fs : FileSystem} {location : Option (List Bytes)} {config : List Bytes}
  {pathTranslated method : Bytes} {store : HeaderStore}

theorem openResource_ne_notModified (fs : FileSystem) (indexFiles : List Bytes) (path : Bytes) :
    (openResource fs indexFiles path).1 ≠ statusNotModified := by
  have hresolve : resolvePath fs indexFiles path ≠ .error statusNotModified := by
    unfold resolvePath
    dsimp only
    split_ifs
    · decide
    · decide
    · decide
    · split
      · exact nofun
      · decide
    · decide
    · exact nofun
  unfold openResource
  split
  · next status heq =>
    rintro rfl
    exact hresolve heq
  · dsimp only
    split_ifs
    · decide
    · decide
    · decide
    · exact show statusOk ≠ statusNotModified by decide

/-- A file counts as not modified by the time in the header only. -/
theorem handleRequest_notModified
    (h : (handleRequest timegm fs location config pathTranslated method store).statusCode = statusNotModified) :
    ∃ str, store.getHeaderString headerIfModifiedSince = some str ∧
      (handleRequest timegm fs location config pathTranslated method store).lastModified ≤ todOf timegm str := by
  unfold handleRequest at h ⊢
  generalize hopened : (match getMethodType method with
    | .get | .head => openResource fs (indexFiles location config) pathTranslated
    | .other => (statusMethodNotAllowed, 0)) = opened at h ⊢
  have hne : opened.1 ≠ statusNotModified := by
    rw [← hopened]
    split
    · exact openResource_ne_notModified _ _ _
    · exact openResource_ne_notModified _ _ _
    · decide
  obtain ⟨status, lastModified⟩ := opened
  dsimp only at h hne ⊢
  by_cases hok : status = statusOk
  · rw [if_pos hok] at h ⊢
    cases hstr : store.getHeaderString headerIfModifiedSince with
    | none =>
      rw [hstr] at h
      exact absurd h hne
    | some str =>
      rw [hstr] at h
      refine ⟨str, rfl, ?_⟩
      dsimp only at h ⊢
      by_contra hlt
      rw [if_neg hlt] at h
      exact hne h
  · rw [if_neg hok] at h
    exact absurd h hne

end Status

open HttpDate.Grammar

/-- A text that is no date leaves the time at 0, and as the value of If-Modified-Since it makes no file with
a positive time count as not modified; a date does so for the files that are not newer. -/
structure IgnoresMalformed (timegm : Tm → Int) (str : Bytes) : Prop where
  todOf_eq : cString str ∉ httpDate → todOf timegm str = 0
  notModified : ∀ fs location config pathTranslated method store,
    (∀ value ∈ store.getHeaderString headerIfModifiedSince, value = str) →
      0 < (handleRequest timegm fs location config pathTranslated method store).lastModified →
        (handleRequest timegm fs location config pathTranslated method store).statusCode = statusNotModified →
          ∃ tm, Dated (cString str) tm ∧
            (handleRequest timegm fs location config pathTranslated method store).lastModified ≤ timegm tm

/-- The malformed texts that are ignored are those that have the fields of the epoch where they leave the
formats. -/
theorem ignoresMalformed_iff (timegm : Tm → Int) (str : Bytes) :
    IgnoresMalformed timegm str ↔
      cString str ∈ httpDate ∨ ∃ tm, Behind (cString str) tm ∧ timegm tm = 0 := by
  have htod (h : cString str ∉ httpDate) :
      ∃ tm, (∀ tm', Behind (cString str) tm' ↔ tm' = tm) ∧ todOf timegm str = timegm tm := parse_of_notMem timegm h
  constructor
  · intro h
    by_cases hdate : cString str ∈ httpDate
    · exact .inl hdate
    · obtain ⟨tm, hbehind, heq⟩ := htod hdate
      exact .inr ⟨tm, (hbehind tm).mpr rfl, heq.symm.trans (h.todOf_eq hdate)⟩
  · intro h
    have hzero (hdate : cString str ∉ httpDate) : todOf timegm str = 0 := by
      obtain ⟨tm, hbehind, heq⟩ := htod hdate
      obtain ⟨tm', hbehind', hepoch⟩ := h.resolve_left hdate
      rw [heq, ← (hbehind tm').mp hbehind', hepoch]
    refine ⟨hzero, fun fs location config pathTranslated method store hvalue hpos hstatus => ?_⟩
    obtain ⟨value, hstr, hle⟩ := handleRequest_notModified hstatus
    obtain rfl := hvalue value hstr
    by_cases hdate : cString value ∈ httpDate
    · obtain ⟨tm, hdated⟩ := exists_dated_iff.mpr hdate
      refine ⟨tm, hdated, ?_⟩
      rwa [todOf, parse_of_dated hdated] at hle
    · rw [hzero hdate] at hle
      exact absurd hpos (Int.not_lt.mpr hle)

/-- "Sun, 06 Nov 1994 08:49:37 XYZ" -/
def malformedDate : Bytes := [83, 117, 110, 44, 32, 48, 54, 32, 78, 111, 118, 32, 49, 57, 57, 52, 32, 48, 56, 58, 52,
  57, 58, 51, 55, 32, 88, 89, 90]

/-- The zone is not read, and a file of the first second counts as not modified. -/
theorem malformedDate_notModified :
    cString malformedDate ∉ httpDate ∧ todOf HttpDate.gregorianTimegm malformedDate = 784111777 ∧
      handleRequest HttpDate.gregorianTimegm ⟨fun _ => (0, ⟨sIfreg, 1⟩), fun _ => 0⟩ none [] [47] [71, 69, 84]
        ⟨64, 0, 8, [(headerIfModifiedSince, malformedDate)], [(headerIfModifiedSince, malformedDate)], false⟩ =
          ⟨statusNotModified, 1, 784111777⟩ := by
  refine ⟨fun hdate => ?_, by decide +kernel, by decide +kernel⟩
  obtain ⟨f, hf⟩ := mem_httpDate.mp hdate
  obtain ⟨q, hrun, -⟩ := (Lib.Format.mem_lang_iff_finished (separated f) f.pieces_ne_nil).mp hf
  have hnone : Lib.Format.run f.pieces (cString malformedDate) = none := by cases f <;> decide +kernel
  rw [hnone] at hrun
  cases hrun

end Latypus.Server
