import Mathlib.Data.List.Basic
import Mathlib.Data.Nat.Bitwise

/-! The table-driven HTTP head parser of http_parser.cc, as Ragel generated it from
http_parser.rl. Pointers are positions in the memory the input stands in; the callbacks are
collected in the order in which the parser makes them. -/

namespace Latypus.Http

namespace Table

def actions : List Nat := [
  0, 1, 0, 1, 1, 1, 2, 1, 3, 1, 4, 1, 5, 1, 6, 1, 7, 1, 8, 1, 10, 1, 11, 1, 12, 1, 13, 1, 14, 1,
  15, 1, 16, 2, 0, 8, 2, 3, 5, 2, 9, 7, 2, 11, 7, 2, 14, 1, 2, 14, 16, 2, 15, 1, 2, 15, 16, 3, 4,
  9, 7]

def keyOffsets : List Nat := [
  0, 0, 9, 18, 28, 30, 31, 32, 33, 34, 35, 37, 40, 42, 46, 63, 64, 80, 83, 85, 102, 103, 104, 110,
  116, 122, 128, 138, 144, 150, 156, 164, 170, 176, 182, 188, 194, 200, 209, 218, 227, 236, 245,
  254, 263, 272, 281, 290, 299, 308, 317, 326, 335, 344, 353, 362, 363, 373, 383, 393, 401, 403,
  406, 408, 411, 413, 415, 417, 418, 419, 421, 438]

def transKeys : List Nat := [
  36, 72, 95, 45, 46, 48, 57, 65, 90, 32, 36, 95, 45, 46, 48, 57, 65, 90, 42, 43, 47, 58, 45, 57,
  65, 90, 97, 122, 32, 35, 72, 84, 84, 80, 47, 48, 57, 46, 48, 57, 48, 57, 10, 13, 48, 57, 10, 13,
  33, 124, 126, 35, 39, 42, 43, 45, 46, 48, 57, 65, 90, 94, 122, 10, 33, 58, 124, 126, 35, 39, 42,
  43, 45, 46, 48, 57, 65, 90, 94, 122, 10, 13, 32, 10, 13, 10, 13, 33, 124, 126, 35, 39, 42, 43,
  45, 46, 48, 57, 65, 90, 94, 122, 10, 10, 32, 35, 37, 127, 0, 31, 32, 35, 37, 127, 0, 31, 48, 57,
  65, 70, 97, 102, 48, 57, 65, 70, 97, 102, 43, 58, 45, 46, 48, 57, 65, 90, 97, 122, 32, 35, 37,
  127, 0, 31, 48, 57, 65, 70, 97, 102, 48, 57, 65, 70, 97, 102, 32, 35, 37, 59, 63, 127, 0, 31,
  48, 57, 65, 70, 97, 102, 48, 57, 65, 70, 97, 102, 32, 35, 37, 127, 0, 31, 32, 35, 37, 127, 0,
  31, 48, 57, 65, 70, 97, 102, 48, 57, 65, 70, 97, 102, 32, 36, 95, 45, 46, 48, 57, 65, 90, 32,
  36, 95, 45, 46, 48, 57, 65, 90, 32, 36, 95, 45, 46, 48, 57, 65, 90, 32, 36, 95, 45, 46, 48, 57,
  65, 90, 32, 36, 95, 45, 46, 48, 57, 65, 90, 32, 36, 95, 45, 46, 48, 57, 65, 90, 32, 36, 95, 45,
  46, 48, 57, 65, 90, 32, 36, 95, 45, 46, 48, 57, 65, 90, 32, 36, 95, 45, 46, 48, 57, 65, 90, 32,
  36, 95, 45, 46, 48, 57, 65, 90, 32, 36, 95, 45, 46, 48, 57, 65, 90, 32, 36, 95, 45, 46, 48, 57,
  65, 90, 32, 36, 95, 45, 46, 48, 57, 65, 90, 32, 36, 95, 45, 46, 48, 57, 65, 90, 32, 36, 95, 45,
  46, 48, 57, 65, 90, 32, 36, 95, 45, 46, 48, 57, 65, 90, 32, 36, 95, 45, 46, 48, 57, 65, 90, 32,
  36, 95, 45, 46, 48, 57, 65, 90, 32, 32, 36, 84, 95, 45, 46, 48, 57, 65, 90, 32, 36, 84, 95, 45,
  46, 48, 57, 65, 90, 32, 36, 80, 95, 45, 46, 48, 57, 65, 90, 32, 36, 47, 95, 45, 57, 65, 90, 48,
  57, 46, 48, 57, 48, 57, 32, 48, 57, 48, 57, 48, 57, 48, 57, 32, 10, 10, 13, 10, 13, 33, 124,
  126, 35, 39, 42, 43, 45, 46, 48, 57, 65, 90, 94, 122, 0]

def singleLengths : List Nat := [
  0, 3, 3, 4, 2, 1, 1, 1, 1, 1, 0, 1, 0, 2, 5, 1, 4, 3, 2, 5, 1, 1, 4, 4, 0, 0, 2, 4, 0, 0, 6, 0,
  0, 4, 4, 0, 0, 3, 3, 3, 3, 3, 3, 3, 3, 3, 3, 3, 3, 3, 3, 3, 3, 3, 3, 1, 4, 4, 4, 4, 0, 1, 0, 1,
  0, 0, 0, 1, 1, 2, 5, 0]

def rangeLengths : List Nat := [
  0, 3, 3, 3, 0, 0, 0, 0, 0, 0, 1, 1, 1, 1, 6, 0, 6, 0, 0, 6, 0, 0, 1, 1, 3, 3, 4, 1, 3, 3, 1, 3,
  3, 1, 1, 3, 3, 3, 3, 3, 3, 3, 3, 3, 3, 3, 3, 3, 3, 3, 3, 3, 3, 3, 3, 0, 3, 3, 3, 2, 1, 1, 1, 1,
  1, 1, 1, 0, 0, 0, 6, 0]

def indexOffsets : List Nat := [
  0, 0, 7, 14, 22, 25, 27, 29, 31, 33, 35, 37, 40, 42, 46, 58, 60, 71, 75, 78, 90, 92, 94, 100,
  106, 110, 114, 121, 127, 131, 135, 143, 147, 151, 157, 163, 167, 171, 178, 185, 192, 199, 206,
  213, 220, 227, 234, 241, 248, 255, 262, 269, 276, 283, 290, 297, 299, 307, 315, 323, 330, 332,
  335, 337, 340, 342, 344, 346, 348, 350, 353, 365]

def indicies : List Nat := [
  0, 2, 0, 0, 0, 0, 1, 3, 4, 4, 4, 4, 4, 1, 5, 6, 7, 8, 6, 6, 6, 1, 9, 10, 1, 11, 1, 12, 1, 13, 1,
  14, 1, 15, 1, 16, 1, 17, 16, 1, 18, 1, 19, 20, 18, 1, 21, 22, 23, 23, 23, 23, 23, 23, 23, 23,
  23, 1, 24, 1, 25, 26, 25, 25, 25, 25, 25, 25, 25, 25, 1, 28, 29, 30, 27, 32, 33, 31, 24, 34, 35,
  35, 35, 35, 35, 35, 35, 35, 35, 1, 36, 1, 37, 1, 39, 1, 40, 1, 1, 38, 42, 1, 43, 1, 1, 41, 44,
  44, 44, 1, 41, 41, 41, 1, 45, 46, 45, 45, 45, 45, 1, 9, 10, 47, 1, 1, 46, 48, 48, 48, 1, 46, 46,
  46, 1, 50, 51, 52, 1, 53, 1, 1, 49, 54, 54, 54, 1, 49, 49, 49, 1, 56, 57, 58, 1, 1, 55, 60, 61,
  62, 1, 1, 59, 63, 63, 63, 1, 59, 59, 59, 1, 3, 64, 64, 64, 64, 64, 1, 3, 65, 65, 65, 65, 65, 1,
  3, 66, 66, 66, 66, 66, 1, 3, 67, 67, 67, 67, 67, 1, 3, 68, 68, 68, 68, 68, 1, 3, 69, 69, 69, 69,
  69, 1, 3, 70, 70, 70, 70, 70, 1, 3, 71, 71, 71, 71, 71, 1, 3, 72, 72, 72, 72, 72, 1, 3, 73, 73,
  73, 73, 73, 1, 3, 74, 74, 74, 74, 74, 1, 3, 75, 75, 75, 75, 75, 1, 3, 76, 76, 76, 76, 76, 1, 3,
  77, 77, 77, 77, 77, 1, 3, 78, 78, 78, 78, 78, 1, 3, 79, 79, 79, 79, 79, 1, 3, 80, 80, 80, 80,
  80, 1, 3, 81, 81, 81, 81, 81, 1, 3, 1, 3, 4, 82, 4, 4, 4, 4, 1, 3, 64, 83, 64, 64, 64, 64, 1, 3,
  65, 84, 65, 65, 65, 65, 1, 3, 66, 85, 66, 66, 66, 1, 86, 1, 87, 86, 1, 88, 1, 89, 88, 1, 90, 1,
  91, 1, 92, 1, 93, 1, 1, 94, 96, 97, 95, 98, 99, 100, 100, 100, 100, 100, 100, 100, 100, 100, 1,
  1, 0]

def transTargs : List Nat := [
  2, 0, 56, 3, 37, 4, 26, 30, 27, 5, 22, 6, 7, 8, 9, 10, 11, 12, 13, 14, 21, 71, 15, 16, 71, 16,
  17, 18, 19, 20, 17, 18, 19, 20, 15, 16, 19, 14, 23, 5, 24, 23, 5, 24, 25, 26, 27, 28, 29, 30, 5,
  22, 31, 33, 32, 34, 5, 22, 35, 34, 5, 22, 35, 36, 38, 39, 40, 41, 42, 43, 44, 45, 46, 47, 48,
  49, 50, 51, 52, 53, 54, 55, 57, 58, 59, 60, 61, 62, 63, 64, 65, 66, 67, 68, 69, 69, 70, 69, 71,
  15, 16]

def transActions : List Nat := [
  1, 0, 1, 13, 0, 1, 1, 1, 1, 15, 15, 1, 0, 0, 0, 0, 0, 0, 0, 19, 19, 54, 29, 51, 31, 0, 5, 7, 36,
  36, 7, 0, 11, 11, 0, 3, 0, 0, 1, 33, 1, 0, 17, 0, 0, 0, 0, 0, 0, 0, 42, 42, 0, 21, 0, 9, 57, 57,
  9, 0, 39, 39, 0, 0, 0, 0, 0, 0, 0, 0, 0, 0, 0, 0, 0, 0, 0, 0, 0, 0, 0, 0, 0, 0, 0, 0, 0, 0, 0,
  19, 1, 0, 0, 23, 1, 0, 25, 25, 48, 27, 45]


end Table

inductive HttpParseType where
  | none
  | request
  | response
deriving DecidableEq, Repr

/-- `http_header_string`: a pointer, `none` for NULL, and a length. -/
structure HeaderString where
  data : Option Nat
  length : Nat
deriving DecidableEq, Repr

/-- The virtual functions the parser calls. The argument of `set_status_code` is the slice
that the parser hands to `atoi`. -/
inductive Callback where
  | setParseType (t : HttpParseType)
  | setHeaderField (name value : HeaderString)
  | setRequestMethod (str : HeaderString)
  | setRequestUri (str : HeaderString)
  | setFragment (str : HeaderString)
  | setRequestPath (str : HeaderString)
  | setQueryString (str : HeaderString)
  | setBodyStart (str : HeaderString)
  | setHttpVersion (str : HeaderString)
  | setReasonPhrase (str : HeaderString)
  | setStatusCode (str : HeaderString)
deriving DecidableEq, Repr

structure HttpParser where
  cs : Nat
  nread : Nat
  mark : Option Nat
  queryStart : Option Nat
  fieldStart : Option Nat
  fieldLen : Nat
deriving DecidableEq, Repr

namespace HttpParser

def start : Nat := 1
def firstFinal : Nat := 71
def error : Nat := 0

def reset : HttpParser := ⟨start, 0, none, none, none, 0⟩

def hasError (s : HttpParser) : Bool := s.cs == error

def isFinished (s : HttpParser) : Bool := s.cs == firstFinal

def bytesRead (s : HttpParser) : Nat := s.nread

/-- The value of a byte as a signed `char`. -/
def charOf (c : UInt8) : Int := if c.toNat < 128 then c.toNat else (c.toNat : Int) - 256

/-- Binary search among the `n` keys that start at position `lo`; the fuel bounds the
number of halvings. -/
def searchSingle (keys : List Nat) (c : Int) : Nat → Nat → Nat → Option Nat
  | 0, _, _ => none
  | fuel + 1, lo, n =>
    if n = 0 then none
    else
      let mid := lo + (n - 1) / 2
      let key : Int := keys.getD mid 0
      if c < key then searchSingle keys c fuel lo (mid - lo)
      else if key < c then searchSingle keys c fuel (mid + 1) (lo + n - (mid + 1))
      else some mid

/-- Binary search among `n` ranges, each a pair of keys. -/
def searchRange (keys : List Nat) (c : Int) : Nat → Nat → Nat → Option Nat
  | 0, _, _ => none
  | fuel + 1, lo, n =>
    if n = 0 then none
    else
      let mid := lo + (n - 1) / 2
      if c < (keys.getD (2 * mid) 0 : Int) then searchRange keys c fuel lo (mid - lo)
      else if (keys.getD (2 * mid + 1) 0 : Int) < c then
        searchRange keys c fuel (mid + 1) (lo + n - (mid + 1))
      else some mid

/-- The transition of state `cs` on the byte `c`: the keys of the state are its single keys
and behind them the pairs of its ranges, and a byte that matches none takes the last index. -/
def trans (cs : Nat) (c : UInt8) : Nat :=
  let keys := Table.transKeys.drop (Table.keyOffsets.getD cs 0)
  let singles := Table.singleLengths.getD cs 0
  let ranges := Table.rangeLengths.getD cs 0
  let index := Table.indexOffsets.getD cs 0
  let offset :=
    match searchSingle (keys.take singles) (charOf c) singles 0 singles with
    | some i => i
    | none =>
      match searchRange ((keys.drop singles).take (2 * ranges)) (charOf c) ranges 0 ranges with
      | some i => singles + i
      | none => singles + ranges
  Table.indicies.getD (index + offset) 0

def transTarg (t : Nat) : Nat := Table.transTargs.getD t 0

/-- The actions of a transition, in order. -/
def transActs (t : Nat) : List Nat :=
  let a := Table.transActions.getD t 0
  if a = 0 then [] else (Table.actions.drop (a + 1)).take (Table.actions.getD a 0)

/-- The slice from a start pointer to the byte under the cursor. -/
def slice (from_ : Option Nat) (p : Nat) : HeaderString := ⟨from_, p - from_.getD 0⟩

/-- One action of the machine with the cursor at `p` in a chunk that ends at `pe`. -/
def action (pe p : Nat) (s : HttpParser) : Nat → HttpParser × List Callback
  | 0 => ({ s with mark := some p }, [])
  | 1 => ({ s with fieldStart := some p }, [])
  | 2 => ({ s with fieldLen := p - s.fieldStart.getD 0 }, [])
  | 3 => ({ s with mark := some p }, [])
  | 4 => ({ s with queryStart := some p }, [])
  | 5 => (s, [.setHeaderField ⟨s.fieldStart, s.fieldLen⟩ (slice s.mark p)])
  | 6 => (s, [.setRequestMethod (slice s.mark p)])
  | 7 => (s, [.setRequestUri (slice s.mark p)])
  | 8 => (s, [.setFragment (slice s.mark p)])
  | 9 => (s, [.setQueryString (slice s.queryStart p)])
  | 10 => (s, [.setHttpVersion (slice s.mark p)])
  | 11 => (s, [.setRequestPath (slice s.mark p)])
  | 12 => (s, [.setStatusCode (slice s.mark p)])
  | 13 => (s, [.setReasonPhrase (slice s.mark p)])
  | 14 => (s, [.setParseType .response])
  | 15 => (s, [.setParseType .request])
  | 16 => (s, [.setBodyStart ⟨some (p + 1), pe - (p + 1)⟩])
  | _ => (s, [])

/-- The actions of one transition; the last component tells that `fbreak` was reached,
which skips the actions behind it. -/
def actionLoop (pe p : Nat) : HttpParser → List Nat → HttpParser × List Callback × Bool
  | s, [] => (s, [], false)
  | s, a :: as =>
    let (s, cbs) := action pe p s a
    if a = 16 then (s, cbs, true)
    else
      let (s, cbs', brk) := actionLoop pe p s as
      (s, cbs ++ cbs', brk)

/-- The loop of `parse` from `_resume` on, over the bytes from `p` to `pe`; the second
component is the final value of `p`. -/
def exec (pe : Nat) : List UInt8 → Nat → HttpParser → HttpParser × Nat × List Callback
  | [], p, s => (s, p, [])
  | c :: rest, p, s =>
    let t := trans s.cs c
    let (s, cbs, brk) := actionLoop pe p { s with cs := transTarg t } (transActs t)
    if brk then (s, p + 1, cbs)
    else if s.cs = error then (s, p, cbs)
    else
      let (s, p, cbs') := exec pe rest (p + 1) s
      (s, p, cbs ++ cbs')

/-- `parse` on the chunk `bytes` that stands at position `buf`. -/
def parse (s : HttpParser) (buf : Nat) (bytes : List UInt8) : HttpParser × List Callback :=
  if bytes = [] ∨ s.cs = error then (s, [])
  else
    let (s', p, cbs) := exec (buf + bytes.length) bytes buf s
    ({ s' with nread := s.nread + (p - buf) }, cbs)

end HttpParser
end Latypus.Http
