import Latypus.Sql.Parser

/-! The parser on a whole text. A reader keeps the text of a token where the parser keeps a position,
so that what it does on a text depends on nothing but the text. -/

namespace Latypus.Sql
open Http (Bytes bytesAt)
open Lib Lib.Pattern

structure Reader where
  readings : List (List Pat)
  token : Bytes
  impl : ParserImpl
deriving DecidableEq

namespace Reader

def act (r : Reader) : Action → Reader
  | .tokenStart => { r with token := [] }
  | a => { r with impl := handle r.token r.impl a }

/-- The actions on one byte, which then belongs to the token. -/
def read (r : Reader) (c : UInt8) : Reader :=
  let r := (inOrder (fired ByteClass.has Grammar.reserved r.readings c)).foldl act
    { r with readings := after ByteClass.has Grammar.reserved r.readings c }
  { r with token := r.token ++ [c] }

def run (r : Reader) (w : Bytes) : Reader := w.foldl read r

def finish (r : Reader) : Reader :=
  (inOrder (r.readings.filterMap Pattern.finish).flatten).foldl act r

@[simp] theorem run_nil (r : Reader) : r.run [] = r := rfl

theorem run_cons (r : Reader) (c : UInt8) (w : Bytes) : r.run (c :: w) = (r.read c).run w := rfl

theorem run_append (r : Reader) (w w' : Bytes) : r.run (w ++ w') = (r.run w).run w' :=
  List.foldl_append ..

/-- The error state: nothing is left to read, and no more is executed. -/
theorem run_of_readings_eq_nil {r : Reader} (h : r.readings = []) (w : Bytes) :
    (r.run w).readings = [] ∧ (r.run w).impl = r.impl := by
  induction w generalizing r with
  | nil => exact ⟨h, rfl⟩
  | cons c w ih =>
    have hread : r.read c = { r with token := r.token ++ [c] } := by
      obtain ⟨readings, token, impl⟩ := r
      obtain rfl : readings = [] := h
      rfl
    rw [run_cons, hread]
    exact ih h

/-- A reader that stands for a parser with the cursor at `p`. -/
structure Reads (buffer : Bytes) (p : Nat) (s : Parser) (r : Reader) : Prop where
  readings : r.readings = s.readings
  impl : r.impl = s.impl
  tok_le : s.tok ≤ p
  token : r.token = bytesAt buffer ⟨some s.tok, p - s.tok⟩

variable {buffer : Bytes} {p : Nat} {s : Parser} {r : Reader}

theorem Reads.act (h : Reads buffer p s r) (a : Action) : Reads buffer p (action buffer p s a) (r.act a) := by
  obtain ⟨hreadings, himpl, htok, htoken⟩ := h
  cases a
  case tokenStart => exact ⟨hreadings, himpl, le_rfl, by simp [Reader.act, action, bytesAt]⟩
  all_goals exact ⟨hreadings, by simp only [Reader.act, action, himpl, htoken], htok, htoken⟩

theorem Reads.foldl (h : Reads buffer p s r) (as : List Action) :
    Reads buffer p (as.foldl (action buffer p) s) (as.foldl Reader.act r) := by
  induction as generalizing s r with
  | nil => exact h
  | cons a as ih => exact ih (h.act a)

/-- The byte at the cursor is added to the token. -/
theorem Reads.next (h : Reads buffer p s r) {c : UInt8} {rest : Bytes} (hdrop : buffer.drop p = c :: rest) :
    Reads buffer (p + 1) s { r with token := r.token ++ [c] } := by
  refine ⟨h.readings, h.impl, h.tok_le.trans (Nat.le_succ p), ?_⟩
  obtain ⟨n, hn⟩ := Nat.exists_eq_add_of_le h.tok_le
  have hsplit : (buffer.drop s.tok).drop n = c :: rest := by rw [List.drop_drop, ← hn, hdrop]
  have hget : (buffer.drop s.tok)[n]? = some c := by
    have := congrArg List.head? hsplit
    simpa [List.head?_drop] using this
  simp only [h.token, bytesAt, Option.getD_some]
  rw [show p - s.tok = n by omega, show p + 1 - s.tok = n + 1 by omega, List.take_add_one, hget]
  rfl

/-- What the parser does is what the reader does. -/
theorem execute_impl {rest : Bytes} (h : Reads buffer p s r) (hdrop : buffer.drop p = rest) :
    (execute buffer rest p s).impl = (r.run rest).finish.impl := by
  induction rest generalizing p s r with
  | nil =>
    rw [run_nil, finish, h.readings]
    exact (h.foldl _).impl.symm
  | cons c rest ih =>
    have hmoved : Reads buffer p { s with readings := after ByteClass.has Grammar.reserved s.readings c }
        { r with readings := after ByteClass.has Grammar.reserved s.readings c } :=
      ⟨rfl, h.impl, h.tok_le, h.token⟩
    have hnext := (hmoved.foldl (inOrder (fired ByteClass.has Grammar.reserved s.readings c))).next hdrop
    rw [← h.readings] at hnext
    change Reads buffer (p + 1) _ (r.read c) at hnext
    have hrest : buffer.drop (p + 1) = rest := by
      rw [← List.drop_drop, hdrop]
      rfl
    have hexecute := ih hnext hrest
    rw [h.readings] at hnext hexecute
    rw [run_cons, ← hexecute]
    -- the machine stops in its error state, where going on would change nothing
    change (if _ = [] then _ else _ : Parser).impl = _
    split
    · rename_i hdead
      have hstays := run_of_readings_eq_nil (hnext.readings.trans hdead) rest
      rw [hexecute, finish, hstays.1]
      exact hnext.impl.symm.trans hstays.2.symm
    · rfl

theorem parse_eq (buffer : Bytes) :
    parse buffer = ((Reader.mk [[Grammar.SQL]] [] .reset).run buffer).finish.impl.statements :=
  congrArg ParserImpl.statements (execute_impl ⟨rfl, rfl, le_rfl, rfl⟩ rfl)

end Reader
end Latypus.Sql
