import Latypus.Http.Message

/-! The table-driven parser of configuration files, config_parser.cc, as Ragel generated it from
config_parser.rl. It reads up to the terminator of the string it is given, and makes the calls
that belong to the end of the input from the state it is left in. -/

namespace Latypus.Config
open Http
open HttpParser (charOf searchSingle searchRange)

namespace Table

def actions : List Nat := [
  0, 1, 0, 1, 1, 1, 2, 1, 3, 1, 4, 1, 5, 1, 6, 2, 1, 0, 2, 1, 6, 2, 2, 0, 2, 2, 6, 2, 5, 0, 2, 5,
  6]

def keyOffsets : List Nat := [0, 0, 15, 30, 32, 37, 38, 40, 40, 40, 40, 57, 74, 91]

def transKeys : List Nat := [
  13, 32, 33, 59, 92, 124, 126, 9, 10, 36, 38, 40, 95, 97, 122, 13, 32, 33, 34, 39, 59, 92, 123,
  126, 9, 10, 36, 95, 97, 124, 34, 92, 13, 32, 59, 9, 10, 10, 39, 92, 13, 32, 34, 35, 39, 92, 125,
  9, 10, 33, 58, 60, 95, 97, 122, 124, 126, 13, 32, 34, 35, 39, 92, 125, 9, 10, 33, 58, 60, 95, 97,
  122, 124, 126, 13, 32, 34, 35, 39, 92, 125, 9, 10, 33, 58, 60, 95, 97, 122, 124, 126, 13, 32, 34,
  35, 39, 92, 125, 9, 10, 33, 58, 60, 95, 97, 122, 124, 126, 0]

def singleLengths : List Nat := [0, 7, 9, 2, 3, 1, 2, 0, 0, 0, 7, 7, 7, 7]

def rangeLengths : List Nat := [0, 4, 3, 0, 1, 0, 0, 0, 0, 0, 5, 5, 5, 5]

def indexOffsets : List Nat := [0, 0, 12, 25, 28, 33, 35, 38, 39, 40, 41, 54, 67, 80]

def indicies : List Nat := [
  0, 0, 2, 3, 4, 2, 2, 0, 2, 2, 2, 1, 5, 5, 6, 7, 8, 9, 10, 11, 6, 5, 6, 6, 1, 13, 14, 12, 15, 15,
  16, 15, 1, 18, 17, 13, 20, 19, 19, 2, 12, 18, 18, 7, 17, 8, 10, 21, 18, 6, 6, 6, 6, 1, 22, 22, 24,
  25, 26, 27, 28, 22, 23, 23, 23, 23, 1, 29, 29, 31, 32, 33, 34, 35, 29, 30, 30, 30, 30, 1, 36, 36,
  38, 39, 40, 41, 42, 36, 37, 37, 37, 37, 1, 0]

def transTargs : List Nat := [
  2, 0, 1, 11, 8, 2, 1, 3, 6, 11, 8, 13, 3, 4, 9, 2, 11, 5, 10, 6, 7, 12, 10, 1, 3, 5, 6, 8, 12, 10,
  1, 3, 5, 6, 8, 12, 10, 1, 3, 5, 6, 8, 12]

def transActions : List Nat := [
  7, 0, 0, 7, 0, 0, 1, 1, 1, 0, 1, 0, 0, 0, 0, 9, 9, 0, 0, 0, 0, 0, 11, 27, 27, 11, 27, 27, 11, 5,
  21, 21, 5, 21, 21, 5, 3, 15, 15, 3, 15, 15, 3]

def eofActions : List Nat := [0, 0, 0, 0, 0, 0, 0, 0, 0, 0, 13, 30, 24, 18]

end Table

/-- The virtual functions the parser calls, with the argument of `symbol` a slice of the buffer
or, for a reader, its text. -/
inductive Event (σ : Type) where
  | symbol (value : σ)
  | startBlock
  | endBlock
  | endStatement
  | configDone
deriving DecidableEq

def Event.map {σ τ : Type} (f : σ → τ) : Event σ → Event τ
  | .symbol value => .symbol (f value)
  | .startBlock => .startBlock
  | .endBlock => .endBlock
  | .endStatement => .endStatement
  | .configDone => .configDone

structure ConfigParser where
  cs : Nat
  mark : Option Nat
deriving DecidableEq

namespace ConfigParser

def start : Nat := 10
def firstFinal : Nat := 10
def error : Nat := 0

def trans (cs : Nat) (c : UInt8) : Nat :=
  let keys := Table.transKeys.drop (Table.keyOffsets.getD cs 0)
  let singles := Table.singleLengths.getD cs 0
  let ranges := Table.rangeLengths.getD cs 0
  let index := Table.indexOffsets.getD cs 0
  let offset :=
    match searchSingle (keys.take singles) (charOf c) singles 0 singles with
    | some i => i
    | none =>
      match searchRange ((keys.drop singles).take (2 * ranges)) (charOf c) ranges 0 ranges with
      | some i => singles + i
      | none => singles + ranges
  Table.indicies.getD (index + offset) 0

def transTarg (t : Nat) : Nat := Table.transTargs.getD t 0

/-- The actions behind an entry of an action table. -/
def acts (a : Nat) : List Nat := (Table.actions.drop (a + 1)).take (Table.actions.getD a 0)

def transActs (t : Nat) : List Nat :=
  let a := Table.transActions.getD t 0
  if a = 0 then [] else acts a

/-- One action with the cursor at `p`. A quoted symbol is reported without its quotes, which
stand at `mark` and before the cursor. -/
def action (p : Nat) (s : ConfigParser) : Nat → ConfigParser × List (Event HeaderString)
  | 0 => ({ s with mark := some p }, [])
  | 1 => (s, [.startBlock])
  | 2 => (s, [.endBlock])
  | 3 => (s, [.symbol ⟨s.mark, p - s.mark.getD 0⟩])
  | 4 => (s, [.symbol ⟨s.mark.map (· + 1), p - s.mark.getD 0 - 2⟩])
  | 5 => (s, [.endStatement])
  | _ => (s, [])

def actionLoop (p : Nat) : ConfigParser → List Nat → ConfigParser × List (Event HeaderString)
  | s, [] => (s, [])
  | s, a :: as =>
    let (s, events) := action p s a
    let (s, events') := actionLoop p s as
    (s, events ++ events')

/-- The actions at the end of the input; `done` breaks out of their loop. -/
def eofActionLoop : List Nat → List (Event HeaderString)
  | [] => []
  | 1 :: as => .startBlock :: eofActionLoop as
  | 2 :: as => .endBlock :: eofActionLoop as
  | 5 :: as => .endStatement :: eofActionLoop as
  | 6 :: _ => [.configDone]
  | _ :: as => eofActionLoop as

def eofActs (cs : Nat) : List Nat := acts (Table.eofActions.getD cs 0)

/-- The loop of `parse` with the cursor at `p`, and the actions at the end of the input. -/
def exec : Bytes → Nat → ConfigParser → ConfigParser × List (Event HeaderString)
  | [], _, s => (s, eofActionLoop (eofActs s.cs))
  | c :: rest, p, s =>
    let t := trans s.cs c
    let (s, events) := actionLoop p { s with cs := transTarg t } (transActs t)
    if s.cs = error then (s, events)
    else
      let (s, events') := exec rest (p + 1) s
      (s, events ++ events')

/-- `parse` of a buffer, up to its terminator: what it returns and the calls it makes. -/
def parse (buffer : Bytes) : Bool × List (Event HeaderString) :=
  let (s, events) := exec (cString buffer) 0 ⟨start, none⟩
  (s.cs ≠ error && s.cs = firstFinal, events)

end ConfigParser
end Latypus.Config
