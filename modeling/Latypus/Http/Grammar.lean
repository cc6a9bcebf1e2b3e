import Latypus.Http.ByteClasses
import Latypus.Http.ParserSegments
import Latypus.Http.Message

/-! The pieces of a message head and the path each takes through the parser's tables: the
HTTP version, the lines of the header and the empty line that ends it. -/

namespace Latypus.Http
open Lib

/-- A token character of a field name. -/
def isToken (c : UInt8) : Bool :=
  32 < c && c < 127 &&
    !([40, 41, 60, 62, 64, 44, 59, 58, 92, 34, 47, 91, 93, 63, 61, 123, 125].contains c)

/-- A character that does not belong to a line ending. -/
def isText (c : UInt8) : Bool := c ≠ 13 && c ≠ 10

def isXdigit (c : UInt8) : Bool := isDigit c || (65 ≤ c && c ≤ 70) || (97 ≤ c && c ≤ 102)

/-- `HTTP/` digits `.` digits. -/
def IsVersion (version : Bytes) : Prop :=
  ∃ major minor : Bytes, major ≠ [] ∧ major.all isDigit ∧ minor ≠ [] ∧ minor.all isDigit ∧
    version = [72, 84, 84, 80, 47] ++ major ++ [46] ++ minor

/-- A header field as a serialiser may write it: the name a token, the value on one line and
not beginning with a space. -/
def IsField (field : Bytes × Bytes) : Prop :=
  field.1 ≠ [] ∧ field.1.all isToken ∧ field.2.all isText ∧ field.2.head? ≠ some 32

def fieldLine (field : Bytes × Bytes) : Bytes := field.1 ++ [58, 32] ++ field.2 ++ [13, 10]

/-- The header lines and the empty line behind them. -/
def fieldLines : List (Bytes × Bytes) → Bytes
  | [] => [13, 10]
  | field :: rest => fieldLine field ++ fieldLines rest

namespace HttpParser

/-- The state and the actions that a byte leads to. -/
def next (cs : Nat) (c : UInt8) : Nat × List Nat :=
  (transTarg (trans cs c), transActs (trans cs c))

/-- The states in which the parser reads on. -/
def Live (cs : Nat) : Prop := cs ≠ error ∧ cs ≠ firstFinal

instance (cs : Nat) : Decidable (Live cs) := inferInstanceAs (Decidable (_ ∧ _))

variable {p : Nat} {s : HttpParser} {c : UInt8} {cs q : Nat} {acts : List Nat}

theorem stops_eq_false (h : Live s.cs) : scanner.stops s = false := by
  simp [scanner, isFinished, hasError, h.1, h.2]

theorem step_of_next (s : HttpParser) (h : next s.cs c = (q, acts)) :
    scanner.step s p c = ((actionLoop 0 p { s with cs := q } acts).1,
      (actionLoop 0 p { s with cs := q } acts).2.1) := by
  obtain ⟨rfl, rfl⟩ := Prod.mk.inj h
  rfl

theorem passes_next (h : next cs c = (q, acts)) (hs : Live cs) (hq : q ≠ error)
    (p n : Nat) (m qs fs : Option Nat) (fl : Nat) :
    scanner.Passes [c] p ⟨cs, n, m, qs, fs, fl⟩ (actionLoop 0 p ⟨q, n, m, qs, fs, fl⟩ acts).1
      (actionLoop 0 p ⟨q, n, m, qs, fs, fl⟩ acts).2.1 := by
  refine .single (stops_eq_false hs) (step_of_next _ h) fun hstops => ?_
  simpa [scanner, isFinished, hasError, actionLoop_cs, hq] using hstops

theorem passes_loop {w : Bytes} (hs : Live cs) (h : ∀ c ∈ w, next cs c = (cs, []))
    (p n : Nat) (m qs fs : Option Nat) (fl : Nat) :
    scanner.Passes w p ⟨cs, n, m, qs, fs, fl⟩ ⟨cs, n, m, qs, fs, fl⟩ [] :=
  .loop (stops_eq_false hs) fun c hc _ =>
    step_of_next ⟨cs, n, m, qs, fs, fl⟩ (h c hc)

/-- A field value and the carriage return behind it. -/
theorem passes_value {value : Bytes} (hval : value.all isText) (hsp : value.head? ≠ some 32)
    (p n : Nat) (m qs fs : Option Nat) (fl : Nat) :
    scanner.Passes (value ++ [13]) p ⟨17, n, m, qs, fs, fl⟩ ⟨20, n, some p, qs, fs, fl⟩
      [.setHeaderField ⟨fs, fl⟩ ⟨some p, value.length⟩] := by
  have h18 : ∀ c, isText c → next 18 c = (18, []) := forall_byte (by decide +kernel)
  have h17 : ∀ c, isText c → c ≠ 32 → next 17 c = (18, [3]) := forall_byte (by decide +kernel)
  cases value with
  | nil =>
    have hcr : next 17 13 = (20, [3, 5]) := by decide +kernel
    simpa [actionLoop, action, slice] using
      passes_next hcr (by decide) (by decide) p n m qs fs fl
  | cons c value =>
    rw [List.all_cons, Bool.and_eq_true] at hval
    have hcr : next 18 13 = (20, [5]) := by decide +kernel
    have hone := passes_next (h17 c hval.1 (by simpa using hsp)) (by decide) (by decide)
      p n m qs fs fl
    have hloop := passes_loop (by decide) (fun c hc => h18 c (List.all_eq_true.mp hval.2 c hc))
      (p + 1) n (some p) qs fs fl
    have hend := passes_next hcr (by decide) (by decide) (p + 1 + value.length) n (some p) qs fs fl
    have hlen : p + 1 + value.length - p = value.length + 1 := by omega
    simpa [actionLoop, action, slice, hlen] using hone.cons (hloop.append hend)

/-- The states at the start of a header line. -/
def LineStart (cs : Nat) : Prop := cs = 14 ∨ cs = 19 ∨ cs = 70

/-- What the parser reports when it leaves the start of a line: the first line after the
request or status line settles the type of the message. -/
def lead (cs : Nat) : List Callback :=
  if cs = 14 then [.setParseType .request]
  else if cs = 70 then [.setParseType .response]
  else []

def leadActs (cs : Nat) : List Nat := if cs = 14 then [15] else if cs = 70 then [14] else []

theorem actionLoop_leadActs (s : HttpParser) (cs p : Nat) (as : List Nat) :
    actionLoop 0 p s (leadActs cs ++ as) =
      ((actionLoop 0 p s as).1, lead cs ++ (actionLoop 0 p s as).2.1, (actionLoop 0 p s as).2.2) := by
  unfold leadActs lead
  split_ifs <;> rfl

theorem next_lineStart_token {cs : Nat} (h : LineStart cs) :
    ∀ c, isToken c → next cs c = (16, leadActs cs ++ [1]) := by
  obtain rfl | rfl | rfl := h <;> exact forall_byte (by decide +kernel)

theorem next_lineStart_cr {cs : Nat} (h : LineStart cs) : next cs 13 = (15, leadActs cs ++ []) := by
  obtain rfl | rfl | rfl := h <;> decide +kernel

theorem LineStart.live {cs : Nat} (h : LineStart cs) : Live cs := by
  obtain rfl | rfl | rfl := h <;> decide

theorem passes_fieldLine {field : Bytes × Bytes} (hfield : IsField field) (hs : LineStart s.cs)
    (p : Nat) :
    ∃ t : HttpParser, LineStart t.cs ∧ lead t.cs = [] ∧
      scanner.Passes (fieldLine field) p s t (lead s.cs ++
        [.setHeaderField ⟨some p, field.1.length⟩
          ⟨some (p + (field.1.length + 2)), field.2.length⟩]) := by
  obtain ⟨name, value⟩ := field
  obtain ⟨hne, hname, hval, hsp⟩ := hfield
  cases name with
  | nil => exact absurd rfl hne
  | cons c name =>
    obtain ⟨cs, n, m, qs, fs, fl⟩ := s
    rw [List.all_cons, Bool.and_eq_true] at hname
    have h16 : ∀ c, isToken c → next 16 c = (16, []) := forall_byte (by decide +kernel)
    have hcolon : next 16 58 = (17, [2]) := by decide +kernel
    have hspace : next 17 32 = (17, [3]) := by decide +kernel
    have hlf : next 20 10 = (19, []) := by decide +kernel
    -- the field name, the colon, the space, the value and the line ending
    have h1 : scanner.Passes [c] p ⟨cs, n, m, qs, fs, fl⟩ ⟨16, n, m, qs, some p, fl⟩ (lead cs) := by
      simpa [actionLoop_leadActs, actionLoop, action] using
        passes_next (next_lineStart_token hs c hname.1) hs.live (by decide) p n m qs fs fl
    have h2 := passes_loop (by decide) (fun c hc => h16 c (List.all_eq_true.mp hname.2 c hc))
      (p + 1) n m qs (some p) fl
    have h3 := passes_next hcolon (by decide) (by decide) (p + 1 + name.length) n m qs (some p) fl
    have h4 := passes_next hspace (by decide) (by decide) (p + 1 + name.length + 1) n m qs (some p)
      (p + 1 + name.length - p)
    have h5 := passes_value hval hsp (p + 1 + name.length + 1 + 1) n
      (some (p + 1 + name.length + 1)) qs (some p) (p + 1 + name.length - p)
    have h6 := passes_next hlf (by decide) (by decide)
      (p + 1 + name.length + 1 + 1 + (value ++ [13]).length) n
      (some (p + 1 + name.length + 1 + 1)) qs (some p) (p + 1 + name.length - p)
    refine ⟨⟨19, n, some (p + 1 + name.length + 1 + 1), qs, some p, p + 1 + name.length - p⟩,
      .inr (.inl rfl), rfl, ?_⟩
    have hlen : p + 1 + name.length - p = name.length + 1 := by omega
    have hpos : p + 1 + name.length + 1 + 1 = p + (name.length + 1 + 2) := by omega
    simpa [actionLoop, action, fieldLine, hlen, hpos] using
      h1.cons (h2.append (h3.cons (h4.cons (h5.append h6))))

/-- The empty line at the end of the head. -/
theorem passes_emptyLine (hs : LineStart s.cs) (p : Nat) :
    ∃ t : HttpParser, t.cs = firstFinal ∧
      scanner.Passes [13, 10] p s t (lead s.cs ++ [.setBodyStart ⟨some (p + 2), 0⟩]) := by
  obtain ⟨cs, n, m, qs, fs, fl⟩ := s
  have hlf : next 15 10 = (71, [16]) := by decide +kernel
  have h1 : scanner.Passes [13] p ⟨cs, n, m, qs, fs, fl⟩ ⟨15, n, m, qs, fs, fl⟩ (lead cs) := by
    have h := passes_next (next_lineStart_cr hs) hs.live (by decide) p n m qs fs fl
    rw [actionLoop_leadActs] at h
    simpa only [actionLoop, List.append_nil] using h
  have h2 := passes_next hlf (by decide) (by decide) (p + 1) n m qs fs fl
  exact ⟨_, rfl, by simpa [actionLoop, action] using h1.cons h2⟩

/-- The callbacks of header lines that start at position `p`. -/
def fieldCallbacks : Nat → List (Bytes × Bytes) → List Callback
  | _, [] => []
  | p, field :: rest =>
    .setHeaderField ⟨some p, field.1.length⟩ ⟨some (p + (field.1.length + 2)), field.2.length⟩ ::
      fieldCallbacks (p + (fieldLine field).length) rest

theorem passes_fieldLines {fields : List (Bytes × Bytes)} (hfields : ∀ f ∈ fields, IsField f)
    (hs : LineStart s.cs) (p : Nat) :
    ∃ t : HttpParser, t.cs = firstFinal ∧
      scanner.Passes (fieldLines fields) p s t (lead s.cs ++ fieldCallbacks p fields ++
        [.setBodyStart ⟨some (p + (fieldLines fields).length), 0⟩]) := by
  induction fields generalizing s p with
  | nil => simpa [fieldLines, fieldCallbacks] using passes_emptyLine hs p
  | cons field rest ih =>
    obtain ⟨t, ht, hlead, hline⟩ := passes_fieldLine (hfields field List.mem_cons_self) hs p
    obtain ⟨u, hu, hrest⟩ := ih (fun f hf => hfields f (List.mem_cons_of_mem _ hf)) ht
      (p + (fieldLine field).length)
    refine ⟨u, hu, ?_⟩
    simpa [fieldLines, fieldCallbacks, hlead, Nat.add_assoc] using hline.append hrest

theorem map_endAt_fieldCallbacks (f : Nat → Nat) (p : Nat) (fields : List (Bytes × Bytes)) :
    (fieldCallbacks p fields).map (Callback.endAt f) = fieldCallbacks p fields := by
  induction fields generalizing p with
  | nil => rfl
  | cons field rest ih => simp [fieldCallbacks, ih, Callback.endAt]

/-- A whole head, parsed in one call after a reset. -/
theorem parse_of_passes {m : Bytes} {t : HttpParser} {out : List Callback}
    (h : scanner.Passes m 0 reset t out) :
    reset.parse 0 m = ({ t with nread := m.length }, out.map (Callback.endAt fun _ => m.length)) := by
  rw [parse_eq_scan h.1, h.2]
  simp [reset]

/-- The version stands in the status line from state 1 on and in the request line from state 5
on, each with seven states of its own. -/
theorem passes_version {version : Bytes} (hv : IsVersion version) {cs k : Nat}
    (hcs : cs = 5 ∧ k = 6 ∨ cs = 1 ∧ k = 56) (p n : Nat) (m qs fs : Option Nat) (fl : Nat) :
    scanner.Passes version p ⟨cs, n, m, qs, fs, fl⟩ ⟨k + 7, n, some p, qs, fs, fl⟩ [] := by
  obtain ⟨major, minor, hmajor, hmajor', hminor, hminor', rfl⟩ := hv
  have hlive : ∀ i ≤ 7, Live (k + i) := by
    obtain ⟨-, rfl⟩ | ⟨-, rfl⟩ := hcs <;> decide
  have hH : next cs 72 = (k, [0]) ∧ Live cs := by
    obtain ⟨rfl, rfl⟩ | ⟨rfl, rfl⟩ := hcs <;> decide +kernel
  have hword : next k 84 = (k + 1, []) ∧ next (k + 1) 84 = (k + 2, []) ∧
      next (k + 2) 80 = (k + 3, []) ∧ next (k + 3) 47 = (k + 4, []) ∧
      next (k + 5) 46 = (k + 6, []) := by
    obtain ⟨-, rfl⟩ | ⟨-, rfl⟩ := hcs <;> decide +kernel
  -- one digit at least on both sides of the dot
  have hdigits {j : Nat} (hj : j = k + 4 ∨ j = k + 6) :
      ∀ c, isDigit c → next j c = (j + 1, []) ∧ next (j + 1) c = (j + 1, []) := by
    obtain ⟨-, rfl⟩ | ⟨-, rfl⟩ := hcs <;> obtain rfl | rfl := hj <;>
      exact forall_byte (by decide +kernel)
  have hnumber {w : Bytes} (hw : w ≠ []) (hw' : w.all isDigit) {j : Nat}
      (hj : j = k + 4 ∨ j = k + 6) (p : Nat) (mark : Option Nat) :
      scanner.Passes w p ⟨j, n, mark, qs, fs, fl⟩ ⟨j + 1, n, mark, qs, fs, fl⟩ [] := by
    have hj1 : Live j ∧ Live (j + 1) := by
      obtain rfl | rfl := hj
      · exact ⟨hlive 4 (by decide), hlive 5 (by decide)⟩
      · exact ⟨hlive 6 (by decide), hlive 7 (by decide)⟩
    cases w with
    | nil => exact absurd rfl hw
    | cons c w =>
      rw [List.all_cons, Bool.and_eq_true] at hw'
      have hone := passes_next (hdigits hj c hw'.1).1 hj1.1 hj1.2.1 p n mark qs fs fl
      have hloop := passes_loop hj1.2
        (fun c hc => (hdigits hj c (List.all_eq_true.mp hw'.2 c hc)).2) (p + 1) n mark qs fs fl
      exact hone.cons hloop
  have hstep {i j : Nat} {c : UInt8} (h : next (k + i) c = (k + j, [])) (hi : i ≤ 7) (hj : j ≤ 7)
      (q : Nat) : scanner.Passes [c] q ⟨k + i, n, some p, qs, fs, fl⟩
        ⟨k + j, n, some p, qs, fs, fl⟩ [] :=
    passes_next h (hlive i hi) (hlive j hj).1 q n (some p) qs fs fl
  have h0 := passes_next hH.1 hH.2 (hlive 0 (by decide)).1 p n m qs fs fl
  have h1 := hstep (i := 0) hword.1 (by decide) (by decide) (p + 1)
  have h2 := hstep hword.2.1 (by decide) (by decide) (p + 1 + 1)
  have h3 := hstep hword.2.2.1 (by decide) (by decide) (p + 1 + 1 + 1)
  have h4 := hstep hword.2.2.2.1 (by decide) (by decide) (p + 1 + 1 + 1 + 1)
  have h5 := hnumber hmajor hmajor' (.inl rfl) (p + 1 + 1 + 1 + 1 + 1) (some p)
  have h6 := hstep hword.2.2.2.2 (by decide) (by decide) (p + 1 + 1 + 1 + 1 + 1 + major.length)
  have h7 := hnumber hminor hminor' (.inr rfl) (p + 1 + 1 + 1 + 1 + 1 + major.length + 1) (some p)
  simpa [actionLoop, action] using
    h0.cons (h1.cons (h2.cons (h3.cons (h4.cons (h5.append (h6.cons h7))))))

end HttpParser
end Latypus.Http
