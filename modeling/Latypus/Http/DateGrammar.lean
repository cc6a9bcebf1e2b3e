import Mathlib.Data.List.Dedup
import Latypus.Lib.Pieces
import Latypus.Http.DateRoundTrip

/-! The grammar of http_date.rl, and the states of the generated table as places in its formats. -/

namespace Latypus.Http.HttpDate.Grammar
open Lib

/-- The parts of the formats. -/
inductive Part where
  | dayName | monthName | space | comma | colon | dash | day | hour | minute | second | year4 | year2 | gmt
deriving DecidableEq, Repr

def spaces : Bytes := [9, 10, 11, 12, 13, 32]

def digits : Bytes := [48, 49, 50, 51, 52, 53, 54, 55, 56, 57]

namespace Part

def piece : Part → Piece UInt8
  | dayName => .words (dayNames ++ longDayNames)
  | monthName => .words monthNames
  | space => .many spaces 1 none
  | comma => .words [[44]]
  | colon => .words [[58]]
  | dash => .words [[45]]
  | day => .many digits 1 (some 2)
  | hour | minute | second | year2 => .many digits 2 (some 2)
  | year4 => .many digits 4 (some 4)
  | gmt => .words [[71, 77, 84]]

/-- What the action behind a part does with its text. -/
def set (t : Bytes) (tm : Tm) : Part → Tm
  | dayName => { tm with wday := (dayNames ++ longDayNames).idxOf t % 7 }
  | monthName => { tm with mon := monthNames.idxOf t }
  | day => { tm with mday := atoi t }
  | hour => { tm with hour := atoi t }
  | minute => { tm with min := atoi t }
  | second => { tm with sec := atoi t }
  | year4 => { tm with year := atoi t - 1900 }
  | year2 => { tm with year := if atoi t < 38 then atoi t + 100 else atoi t }
  | space | comma | colon | dash | gmt => tm

def number : Part → Bool
  | day | hour | minute | second | year4 | year2 => true
  | _ => false

end Part

/-- The three formats of an HTTP date. -/
inductive Form where
  | imfFixdate | rfc850Date | asctimeDate
deriving DecidableEq, Repr

namespace Form

def parts : Form → List Part
  | imfFixdate => [.dayName, .comma, .space, .day, .space, .monthName, .space, .year4, .space, .hour, .colon,
      .minute, .colon, .second, .space, .gmt]
  | rfc850Date => [.dayName, .comma, .space, .day, .dash, .monthName, .dash, .year2, .space, .hour, .colon,
      .minute, .colon, .second, .space, .gmt]
  | asctimeDate => [.dayName, .space, .monthName, .space, .day, .space, .hour, .colon, .minute, .colon,
      .second, .space, .year4]

def pieces (f : Form) : List (Piece UInt8) := f.parts.map Part.piece

theorem pieces_ne_nil (f : Form) : f.pieces ≠ [] := by
  cases f <;> exact List.cons_ne_nil _ _

/-- The dates of a format. -/
def dates (f : Form) : Language UInt8 := Format.lang f.pieces

end Form

/-- `HTTP_Date` -/
def httpDate : Language UInt8 := Form.imfFixdate.dates + Form.rfc850Date.dates + Form.asctimeDate.dates

/-- The fields behind some complete parts. -/
def fields : List Part → List Bytes → Tm → Tm
  | part :: parts, t :: ts, tm => fields parts ts (part.set t tm)
  | _, _, tm => tm

theorem mem_httpDate {w : Bytes} : w ∈ httpDate ↔ ∃ f : Form, w ∈ f.dates := by
  constructor
  · rintro ((h | h) | h)
    · exact ⟨_, h⟩
    · exact ⟨_, h⟩
    · exact ⟨_, h⟩
  · rintro ⟨f, h⟩
    cases f with
    | imfFixdate => exact .inl (.inl h)
    | rfc850Date => exact .inl (.inr h)
    | asctimeDate => exact .inr h

theorem fields_concat {parts : List Part} {ts : List Bytes} {part : Part} (h : parts[ts.length]? = some part)
    (t : Bytes) (tm : Tm) : fields parts (ts ++ [t]) tm = part.set t (fields parts ts tm) := by
  induction ts generalizing parts tm with
  | nil =>
    obtain ⟨p, rest, rfl⟩ := List.exists_cons_of_ne_nil (List.ne_nil_of_mem (List.mem_of_getElem? h))
    obtain rfl : p = part := Option.some.inj h
    cases rest <;> rfl
  | cons u ts ih =>
    obtain ⟨p, rest, rfl⟩ := List.exists_cons_of_ne_nil (List.ne_nil_of_mem (List.mem_of_getElem? h))
    exact ih h _

theorem separated (f : Form) : Format.Separated f.pieces := by
  cases f <;> exact ⟨by decide +kernel, by decide +kernel⟩

/-! ### The states of the table -/

/-- The formats that may go on in a state, the part it is in, the number of a word that has been begun,
and how many bytes of the part there have been. -/
def places : List (Nat × Nat × Nat × Nat) :=
  [(0, 0, 0, 0), (0, 0, 0, 0), (0, 0, 5, 1), (0, 0, 5, 2), (0, 0, 5, 3), (1, 1, 0, 1), (1, 2, 3, 1),
  (1, 2, 3, 2), (1, 2, 3, 3), (1, 3, 0, 1), (1, 4, 0, 1), (1, 5, 0, 1), (1, 6, 0, 1), (1, 6, 0, 2),
  (1, 7, 0, 1), (1, 8, 0, 1), (1, 8, 0, 2), (1, 9, 0, 1), (1, 10, 0, 1), (1, 10, 0, 2), (1, 11, 0, 1),
  (1, 12, 0, 1), (1, 12, 0, 2), (1, 12, 0, 3), (1, 4, 0, 2), (1, 2, 7, 2), (1, 2, 7, 3), (1, 2, 11, 1),
  (1, 2, 11, 2), (1, 2, 11, 3), (1, 2, 1, 1), (1, 2, 1, 2), (1, 2, 1, 3), (1, 2, 0, 1), (1, 2, 0, 2),
  (1, 2, 0, 3), (1, 2, 5, 2), (1, 2, 6, 3), (1, 2, 5, 3), (1, 2, 2, 1), (1, 2, 2, 2), (1, 2, 2, 3),
  (1, 2, 4, 3), (1, 2, 10, 1), (1, 2, 10, 2), (1, 2, 10, 3), (1, 2, 9, 1), (1, 2, 9, 2), (1, 2, 9, 3),
  (1, 2, 8, 1), (1, 2, 8, 2), (1, 2, 8, 3), (2, 1, 0, 1), (2, 2, 0, 1), (2, 3, 0, 1), (3, 4, 0, 1),
  (3, 5, 3, 1), (3, 5, 3, 2), (3, 5, 3, 3), (3, 6, 0, 1), (3, 7, 0, 1), (3, 7, 0, 2), (3, 7, 0, 3),
  (3, 7, 0, 4), (5, 8, 0, 1), (5, 9, 0, 1), (5, 9, 0, 2), (5, 10, 0, 1), (5, 11, 0, 1), (5, 11, 0, 2),
  (5, 12, 0, 1), (5, 13, 0, 1), (5, 13, 0, 2), (5, 14, 0, 1), (5, 15, 0, 1), (5, 15, 0, 2), (3, 5, 7, 2),
  (3, 5, 7, 3), (3, 5, 11, 1), (3, 5, 11, 2), (3, 5, 11, 3), (3, 5, 1, 1), (3, 5, 1, 2), (3, 5, 1, 3),
  (3, 5, 0, 1), (3, 5, 0, 2), (3, 5, 0, 3), (3, 5, 5, 2), (3, 5, 6, 3), (3, 5, 5, 3), (3, 5, 2, 1),
  (3, 5, 2, 2), (3, 5, 2, 3), (3, 5, 4, 3), (3, 5, 10, 1), (3, 5, 10, 2), (3, 5, 10, 3), (3, 5, 9, 1),
  (3, 5, 9, 2), (3, 5, 9, 3), (3, 5, 8, 1), (3, 5, 8, 2), (3, 5, 8, 3), (4, 4, 0, 1), (4, 5, 3, 1),
  (4, 5, 3, 2), (4, 5, 3, 3), (4, 6, 0, 1), (4, 7, 0, 1), (4, 7, 0, 2), (4, 5, 7, 2), (4, 5, 7, 3),
  (4, 5, 11, 1), (4, 5, 11, 2), (4, 5, 11, 3), (4, 5, 1, 1), (4, 5, 1, 2), (4, 5, 1, 3), (4, 5, 0, 1),
  (4, 5, 0, 2), (4, 5, 0, 3), (4, 5, 5, 2), (4, 5, 6, 3), (4, 5, 5, 3), (4, 5, 2, 1), (4, 5, 2, 2),
  (4, 5, 2, 3), (4, 5, 4, 3), (4, 5, 10, 1), (4, 5, 10, 2), (4, 5, 10, 3), (4, 5, 9, 1), (4, 5, 9, 2),
  (4, 5, 9, 3), (4, 5, 8, 1), (4, 5, 8, 2), (4, 5, 8, 3), (2, 3, 0, 2), (0, 0, 12, 4), (0, 0, 12, 5),
  (0, 0, 12, 6), (0, 0, 1, 1), (0, 0, 1, 2), (0, 0, 1, 3), (0, 0, 8, 4), (0, 0, 8, 5), (0, 0, 8, 6),
  (0, 0, 0, 1), (0, 0, 6, 2), (0, 0, 6, 3), (0, 0, 13, 4), (0, 0, 13, 5), (0, 0, 13, 6), (0, 0, 13, 7),
  (0, 0, 13, 8), (0, 0, 0, 2), (0, 0, 0, 3), (0, 0, 7, 4), (0, 0, 7, 5), (0, 0, 7, 6), (0, 0, 2, 1),
  (0, 0, 4, 2), (0, 0, 4, 3), (0, 0, 11, 4), (0, 0, 11, 5), (0, 0, 11, 6), (0, 0, 11, 7), (0, 0, 11, 8),
  (0, 0, 2, 2), (0, 0, 2, 3), (0, 0, 9, 4), (0, 0, 9, 5), (0, 0, 9, 6), (0, 0, 9, 7), (0, 0, 3, 1),
  (0, 0, 3, 2), (0, 0, 3, 3), (0, 0, 10, 4), (0, 0, 10, 5), (0, 0, 10, 6), (0, 0, 10, 7), (0, 0, 10, 8),
  (0, 0, 10, 9), (1, 12, 0, 4), (5, 15, 0, 3)]

/-- The sets of formats of a first entry. -/
def sets : Nat → List (List Form)
  | 0 => [[.imfFixdate, .rfc850Date, .asctimeDate]]
  | 1 => [[.asctimeDate]]
  | 2 => [[.imfFixdate, .rfc850Date]]
  | 3 => [[.imfFixdate]]
  | 4 => [[.rfc850Date]]
  | _ => [[.imfFixdate], [.rfc850Date]]

/-- The formats that may go on in a state. -/
def forms (cs : Nat) : List (List Form) := if cs = error then [] else places[cs]?.elim [] fun e => sets e.1

/-- Where the readers of these formats are. -/
def place (cs : Nat) : Nat × Progress UInt8 :=
  let (m, k, i, n) := places.getD cs (0, 0, 0, 0)
  (k, match (sets m).head?.bind fun A => A.head?.bind fun f => f.pieces[k]? with
    | some (.words ws) => .word ((ws.getD i []).take n)
    | _ => .count n)

/-- The actions behind a part, and before one. -/
def leave : Part → Progress UInt8 → List Nat
  | .dayName, .word t => [(dayNames ++ longDayNames).idxOf t % 7 + 2]
  | .monthName, .word t => [monthNames.idxOf t + 9]
  | .day, _ => [21]
  | .hour, _ => [22]
  | .minute, _ => [23]
  | .second, _ => [24]
  | .year4, _ => [25]
  | .year2, _ => [26]
  | _, _ => []

def enter (part : Part) : List Nat := if part.number then [0] else []

/-- The actions of a step of the readers. -/
def Form.acts (f : Form) (s s' : Nat × Progress UInt8) : List Nat :=
  if s'.1 = s.1 then []
  else (f.parts[s.1]?.elim [] fun part => leave part s.2) ++ f.parts[s'.1]?.elim [] enter

/-! ### The table -/

/-- The formats that go on with a byte. -/
def goOn (cs : Nat) (A : List Form) (c : UInt8) : List Form :=
  A.filter fun f => (Format.step f.pieces (place cs) c).isSome

/-- The transition does what the readers of the formats do with the byte. -/
def follows (cs : Nat) (A : List Form) (c : UInt8) (out : Nat × List Nat) : Bool :=
  let B := goOn cs A c
  bif B.isEmpty then out == (error, [])
  else (forms out.1).contains B && B.all fun f =>
    Format.step f.pieces (place cs) c == some (place out.1) && out.2 == f.acts (place cs) (place out.1)

/-- The table agrees with the formats in a state: the bytes that one of them goes on with are among
those that have a key, and the others are refused. -/
def conforms (cs : Nat) (A : List Form) : Bool :=
  let keyed := tables.keyed cs
  (keyed.all fun c => follows cs A c (nextEntry cs c)) &&
    (A.all fun f => (Format.nexts f.pieces (place cs)).all keyed.contains) && leads (tables.other cs) == (error, [])

theorem conforms_table : ∀ cs < 185, ∀ A ∈ forms cs, conforms cs A = true := by
  decide +kernel

theorem places_length : places.length = 185 := by
  decide +kernel

theorem lt_of_mem_forms {cs : Nat} {A : List Form} (h : A ∈ forms cs) : cs < 185 ∧ cs ≠ error := by
  unfold forms at h
  split_ifs at h with hcs
  · cases h
  · refine ⟨?_, hcs⟩
    by_contra hge
    rw [List.getElem?_eq_none (places_length ▸ Nat.not_lt.mp hge)] at h
    cases h

theorem of_follows {cs : Nat} {A : List Form} {c : UInt8} {out : Nat × List Nat} (h : follows cs A c out = true) :
    goOn cs A c = [] ∧ out = (error, []) ∨
      goOn cs A c ∈ forms out.1 ∧ ∀ f ∈ goOn cs A c,
        Format.step f.pieces (place cs) c = some (place out.1) ∧ out.2 = f.acts (place cs) (place out.1) := by
  simp only [follows] at h
  cases hempty : (goOn cs A c).isEmpty with
  | true =>
    rw [hempty, cond_true, beq_iff_eq] at h
    exact .inl ⟨List.isEmpty_iff.mp hempty, h⟩
  | false =>
    rw [hempty, cond_false, Bool.and_eq_true, List.contains_iff_mem, List.all_eq_true] at h
    simp only [Bool.and_eq_true, beq_iff_eq] at h
    exact .inr h

/-- One step of the table and of the readers. -/
theorem next_spec {cs : Nat} {A : List Form} (hA : A ∈ forms cs) (c : UInt8) :
    goOn cs A c = [] ∧ next cs c = (error, []) ∨
      goOn cs A c ∈ forms (next cs c).1 ∧ ∀ f ∈ goOn cs A c,
        Format.step f.pieces (place cs) c = some (place (next cs c).1) ∧
          (next cs c).2 = f.acts (place cs) (place (next cs c).1) := by
  have htable := conforms_table cs (lt_of_mem_forms hA).1 A hA
  simp only [conforms, Bool.and_eq_true, List.all_eq_true, List.contains_iff_mem, beq_iff_eq] at htable
  obtain ⟨⟨hfollows, hkeyed⟩, hother⟩ := htable
  rw [next_eq_nextEntry]
  by_cases hc : c ∈ tables.keyed cs
  · exact of_follows (hfollows c hc)
  · refine .inl ⟨List.filter_eq_nil_iff.mpr fun f hf hsome => hc ?_, ?_⟩
    · obtain ⟨s, hs⟩ := Option.isSome_iff_exists.mp hsome
      exact hkeyed f hf c (Format.mem_nexts_of_step hs)
    · rw [nextEntry, HttpParser.Tables.lookup_of_notMem hc, hother]

/-- The states behind a complete date. -/
theorem finished_table : ∀ cs < 185, ∀ A ∈ forms cs, ∀ f ∈ A,
    Format.finished f.pieces (place cs) = (cs == if f = .asctimeDate then 183 else 184) := by
  decide +kernel

end Latypus.Http.HttpDate.Grammar
