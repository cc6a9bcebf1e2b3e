import Latypus.Http.Message

/-! The constants of http_constants.cc that requests and responses are compared with, and what
the handlers of both sides decide by them. -/

namespace Latypus.Http

def toLower (c : UInt8) : UInt8 := if 65 ≤ c && c ≤ 90 then c + 32 else c

/-- `strcasecmp` finds no difference. -/
def strcaseEq (a b : Bytes) : Bool := (cString a).map toLower == (cString b).map toLower

inductive HttpVersion where
  | none
  | v10
  | v11
  | v20
deriving DecidableEq, Repr

/-- `get_version_type` by its table: "HTTP/1.0", "HTTP/1.1" and "HTTP/2.0". -/
def getVersionType (text : Bytes) : HttpVersion :=
  if cString text = [72, 84, 84, 80, 47, 49, 46, 48] then .v10
  else if cString text = [72, 84, 84, 80, 47, 49, 46, 49] then .v11
  else if cString text = [72, 84, 84, 80, 47, 50, 46, 48] then .v20
  else .none

/-- The methods that the handlers tell apart. -/
inductive HttpMethod where
  | get
  | head
  | other
deriving DecidableEq, Repr

/-- `get_method_type`: "GET", "HEAD" and the rest. -/
def getMethodType (text : Bytes) : HttpMethod :=
  if cString text = [71, 69, 84] then .get
  else if cString text = [72, 69, 65, 68] then .head
  else .other

/-- "Connection" -/
def headerConnection : Bytes := [67, 111, 110, 110, 101, 99, 116, 105, 111, 110]

/-- "Content-Length" -/
def headerContentLength : Bytes := [67, 111, 110, 116, 101, 110, 116, 45, 76, 101, 110, 103, 116, 104]

/-- "keep-alive" -/
def tokenKeepalive : Bytes := [107, 101, 101, 112, 45, 97, 108, 105, 118, 101]

/-- "close" -/
def tokenClose : Bytes := [99, 108, 111, 115, 101]

/-- Whether the connection is closed behind a message, by its version and its Connection
header. -/
def closesConnection (version : Bytes) (connection : Option Bytes) : Bool :=
  match getVersionType version with
  | .v10 => !connection.any (strcaseEq · tokenKeepalive)
  | .v11 => connection.any (strcaseEq · tokenClose)
  | .v20 | .none => true

end Latypus.Http
