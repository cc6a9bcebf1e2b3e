import Latypus.Http.Grammar
import Latypus.Http.PackedTables

/-! What the parser captures. The start pointers are shared by several actions and survive from
state to state; for every state, the text read so far says what stands behind the pointers that
the state will use. -/

namespace Latypus.Http

/-- A byte that may stand in a path. -/
def isPathByte (c : UInt8) : Bool := 32 < c && c ≠ 127 && c ≠ 35 && c ≠ 63 && c ≠ 59

/-- A path: a slash first, and every per cent sign followed by two hex digits. -/
structure IsPath (path : Bytes) : Prop where
  slash : path.head? = some 47
  bytes : ∀ c ∈ path, isPathByte c = true
  escapes : ∀ i : Nat, path[i]? = some 37 →
    ∃ a b, path[i + 1]? = some a ∧ path[i + 2]? = some b ∧ isXdigit a = true ∧ isXdigit b = true

theorem IsPath.append {path w : Bytes} (h : IsPath path) (hw : ∀ c ∈ w, isPathByte c = true)
    (hesc : ∀ i : Nat, w[i]? = some 37 →
      ∃ a b, w[i + 1]? = some a ∧ w[i + 2]? = some b ∧ isXdigit a = true ∧ isXdigit b = true) :
    IsPath (path ++ w) := by
  refine ⟨?_, ?_, ?_⟩
  · rw [List.head?_append, h.slash]
    rfl
  · exact fun c hc => (List.mem_append.mp hc).elim (h.bytes c) (hw c)
  · intro i hi
    by_cases hlt : i < path.length
    · rw [List.getElem?_append_left hlt] at hi
      obtain ⟨a, b, ha, hb, hab⟩ := h.escapes i hi
      have hb' := (List.getElem?_eq_some_iff.mp hb).1
      refine ⟨a, b, ?_, ?_, hab⟩
      · rwa [List.getElem?_append_left (by omega)]
      · rwa [List.getElem?_append_left hb']
    · have hge : path.length ≤ i := Nat.le_of_not_lt hlt
      rw [List.getElem?_append_right hge] at hi
      obtain ⟨a, b, ha, hb, hab⟩ := hesc _ hi
      refine ⟨a, b, ?_, ?_, hab⟩
      · rwa [List.getElem?_append_right (by omega), Nat.sub_add_comm hge]
      · rwa [List.getElem?_append_right (by omega), Nat.sub_add_comm hge]

theorem IsPath.concat {path : Bytes} {c : UInt8} (h : IsPath path) (hc : isPathByte c = true)
    (hne : c ≠ 37) : IsPath (path ++ [c]) := by
  refine h.append (by simpa using hc) ?_
  rintro (_ | i) hi
  · exact absurd (Option.some.inj hi) hne
  · cases hi

theorem IsPath.concat_escape {path : Bytes} {a b : UInt8} (h : IsPath path)
    (ha : isXdigit a = true) (hb : isXdigit b = true) : IsPath (path ++ [37, a, b]) := by
  have hpath : ∀ c, isXdigit c = true → isPathByte c = true ∧ c ≠ 37 := forall_byte (by decide +kernel)
  refine h.append ?_ ?_
  · simpa using ⟨by decide, (hpath a ha).1, (hpath b hb).1⟩
  · rintro (_ | _ | _ | i) hi
    · exact ⟨a, b, rfl, rfl, ha, hb⟩
    · exact absurd (Option.some.inj hi) (hpath a ha).2
    · exact absurd (Option.some.inj hi) (hpath b hb).2
    · cases hi

/-- The name of a header field. -/
def IsName (name : Bytes) : Prop := name ≠ [] ∧ name.all isToken = true

/-- The value of a header field. -/
def IsValue (value : Bytes) : Prop := value.all isText = true ∧ value.head? ≠ some 32

/-- The slice lies inside the bytes fed so far, which stand at `base`, and its bytes are `w`. -/
def HeaderString.Holds (base : Nat) (text : Bytes) (str : HeaderString) (w : Bytes) : Prop :=
  ∃ m, str.data = some m ∧ base ≤ m ∧ m + str.length ≤ base + text.length ∧
    (text.drop (m - base)).take str.length = w

/-- The slices of a callback lie inside the bytes fed so far, and what they hold is as the
grammar has it. -/
def Callback.Sound (base : Nat) (text : Bytes) : Callback → Prop
  | .setParseType t => t = .request ∨ t = .response
  | .setHeaderField name value =>
    (∃ w, name.Holds base text w ∧ IsName w) ∧ ∃ w, value.Holds base text w ∧ IsValue w
  | .setRequestPath str => ∃ w, str.Holds base text w ∧ IsPath w
  | .setRequestMethod str | .setRequestUri str | .setFragment str | .setQueryString str
  | .setBodyStart str | .setHttpVersion str | .setReasonPhrase str | .setStatusCode str =>
    ∃ w, str.Holds base text w

/-- What stands between a start pointer and the cursor, behind the text. -/
def Since (base : Nat) (text : Bytes) (from_ : Option Nat) (w : Bytes) : Prop :=
  ∃ m, from_ = some m ∧ base ≤ m ∧ m ≤ base + text.length ∧ text.drop (m - base) = w

section
variable {base : Nat} {text w : Bytes} {from_ : Option Nat}

theorem Since.concat (h : Since base text from_ w) (c : UInt8) :
    Since base (text ++ [c]) from_ (w ++ [c]) := by
  obtain ⟨m, rfl, hle, hle', rfl⟩ := h
  refine ⟨m, rfl, hle, by rw [List.length_append]; omega, ?_⟩
  rw [List.drop_append_of_le_length (by omega)]

theorem Since.start (base : Nat) (text : Bytes) (c : UInt8) :
    Since base (text ++ [c]) (some (base + text.length)) [c] :=
  ⟨_, rfl, by omega, by simp, by simp⟩

theorem Since.nil (base : Nat) (text : Bytes) : Since base text (some (base + text.length)) [] :=
  ⟨_, rfl, by omega, by simp, by simp⟩

/-- The slice up to the cursor. -/
theorem Since.holds (h : Since base text from_ w) (rest : Bytes) :
    (HttpParser.slice from_ (base + text.length)).Holds base (text ++ rest) w := by
  obtain ⟨m, rfl, hle, hle', rfl⟩ := h
  have hlen : (text.drop (m - base)).length = base + text.length - m := by
    rw [List.length_drop]
    omega
  refine ⟨m, rfl, hle, ?_, ?_⟩
  · simp only [HttpParser.slice, Option.getD_some, List.length_append]
    omega
  · simp only [HttpParser.slice, Option.getD_some, ← hlen]
    rw [List.drop_append_of_le_length (by omega), List.take_left]

theorem HeaderString.Holds.append {str : HeaderString} (h : str.Holds base text w) (rest : Bytes) :
    str.Holds base (text ++ rest) w := by
  obtain ⟨m, hdata, hle, hle', rfl⟩ := h
  refine ⟨m, hdata, hle, by rw [List.length_append]; omega, ?_⟩
  rw [List.drop_append_of_le_length (by omega), List.take_append_of_le_length]
  rw [List.length_drop]
  omega

end

namespace HttpParser

/-! ### The rows of the table -/

/-- The transitions out of a state. -/
def row (cs : Nat) : List Nat :=
  (Table.indicies.drop (Table.indexOffsets.getD cs 0)).take
    (Table.singleLengths.getD cs 0 + Table.rangeLengths.getD cs 0 + 1)

theorem trans_mem_row {cs : Nat} (hcs : cs < 72) (c : UInt8) : trans cs c ∈ row cs := by
  have hlen : ∀ cs < 72, Table.indexOffsets.getD cs 0 + (Table.singleLengths.getD cs 0 +
      Table.rangeLengths.getD cs 0) < Table.indicies.length := by decide +kernel
  have hmem : ∀ offset ≤ Table.singleLengths.getD cs 0 + Table.rangeLengths.getD cs 0,
      Table.indicies.getD (Table.indexOffsets.getD cs 0 + offset) 0 ∈ row cs := by
    intro offset hoffset
    have hlt := hlen cs hcs
    rw [List.getD_eq_getElem _ _ (by omega)]
    refine List.mem_of_getElem? (i := offset) ?_
    rw [row, List.getElem?_take_of_lt (by omega), List.getElem?_drop, List.getElem?_eq_getElem]
  unfold trans
  refine hmem _ ?_
  split
  · have hlt := searchSingle_lt ‹_›
    omega
  · split
    · have hlt := searchRange_lt ‹_›
      exact Nat.add_le_add_left (by omega) _
    · exact le_rfl

/-- What is true of all transitions is checked with the tables packed. -/
theorem forall_row {P : Nat → List Nat → Nat → Prop}
    (h : ∀ q < 72, ∀ t ∈ rowEntries q, P q (actsEntry t) (Lib.entry (Lib.pack Table.transTargs) t)) :
    ∀ q < 72, ∀ t ∈ row q, P q (transActs t) (transTarg t) := by
  intro q hq t ht
  rw [transActs_eq_entry, transTarg_eq_entry]
  refine h q hq t ?_
  unfold rowEntries
  rw [Lib.entry_pack (by decide +kernel), Lib.entry_pack (by decide +kernel), Lib.entry_pack (by decide +kernel)]
  exact Lib.mem_entries (by decide +kernel) ht

/-! ### The pointers that states and actions use -/

def setsMark (a : Nat) : Bool := a = 0 || a = 3

def usesMark (a : Nat) : Bool := 5 ≤ a && a ≤ 13 && a ≠ 9

/-- The states from which the mark is used before it is set again. -/
def marked (cs : Nat) : Bool :=
  cs = 2 || cs = 4 || (6 ≤ cs && cs ≤ 13) || cs = 18 || (23 ≤ cs && cs ≤ 63) ||
    (65 ≤ cs && cs ≤ 67) || cs = 69

/-- The states from which the start of the query is used. -/
def queried (cs : Nat) : Bool := 34 ≤ cs && cs ≤ 36

/-- The actions of a transition use only pointers that were set in the state it leaves or that
an action before them sets. -/
def usesSet : Bool → Bool → List Nat → Bool
  | _, _, [] => true
  | mark, query, a :: as =>
    (!usesMark a || mark) && (a ≠ 9 || query) && usesSet (mark || setsMark a) (query || a = 4) as

theorem usesSet_append {mark query : Bool} {as as' : List Nat} {a : Nat}
    (h : usesSet mark query (as ++ a :: as') = true) :
    (usesMark a = true → (mark || as.any setsMark) = true) ∧
      (a = 9 → (query || as.contains 4) = true) := by
  induction as generalizing mark query with
  | nil =>
    simp only [List.nil_append, usesSet, Bool.and_eq_true, Bool.or_eq_true, Bool.not_eq_true'] at h
    obtain ⟨⟨hmark, hquery⟩, -⟩ := h
    refine ⟨fun ha => ?_, ?_⟩
    · simpa [ha] using hmark
    · rintro rfl
      simpa using hquery
  | cons b as ih =>
    rw [List.cons_append, usesSet, Bool.and_eq_true] at h
    obtain ⟨hmark, hquery⟩ := ih h.2
    refine ⟨fun ha => ?_, fun ha => ?_⟩
    · rw [List.any_cons, ← Bool.or_assoc]
      exact hmark ha
    · rw [List.contains_cons, ← Bool.or_assoc, BEq.comm]
      exact hquery ha

section Registers
variable {pe p : Nat} {s : HttpParser} {as : List Nat}

theorem actionLoop_cons {a : Nat} (ha : a ≠ 16) :
    (actionLoop pe p s (a :: as)).1 = (actionLoop pe p (action pe p s a).1 as).1 := by
  simp only [actionLoop, if_neg ha]

theorem actionLoop_mark (h : 16 ∉ as) :
    (actionLoop pe p s as).1.mark = if as.any setsMark then some p else s.mark := by
  induction as generalizing s with
  | nil => rfl
  | cons a as ih =>
    rw [List.mem_cons, not_or] at h
    rw [actionLoop_cons (Ne.symm h.1), ih h.2, List.any_cons]
    have haction : (action pe p s a).1.mark = if setsMark a then some p else s.mark := by
      unfold action setsMark
      split <;> simp_all
    rw [haction]
    cases setsMark a <;> simp

theorem actionLoop_queryStart (h : 16 ∉ as) :
    (actionLoop pe p s as).1.queryStart = if as.contains 4 then some p else s.queryStart := by
  induction as generalizing s with
  | nil => rfl
  | cons a as ih =>
    rw [List.mem_cons, not_or] at h
    rw [actionLoop_cons (Ne.symm h.1), ih h.2, List.contains_cons]
    have haction : (action pe p s a).1.queryStart = if a = 4 then some p else s.queryStart := by
      unfold action
      split <;> simp_all
    rw [haction]
    by_cases ha : a = 4
    · simp [ha]
    · simp [ha, Ne.symm ha]

theorem actionLoop_fieldStart (h : 16 ∉ as) :
    (actionLoop pe p s as).1.fieldStart = if as.contains 1 then some p else s.fieldStart := by
  induction as generalizing s with
  | nil => rfl
  | cons a as ih =>
    rw [List.mem_cons, not_or] at h
    rw [actionLoop_cons (Ne.symm h.1), ih h.2, List.contains_cons]
    have haction : (action pe p s a).1.fieldStart = if a = 1 then some p else s.fieldStart := by
      unfold action
      split <;> simp_all
    rw [haction]
    by_cases ha : a = 1
    · simp [ha]
    · simp [ha, Ne.symm ha]

/-- A callback is made by one of the actions, in the state that the actions before it leave. -/
theorem mem_actionLoop {cb : Callback} (h : cb ∈ (actionLoop pe p s as).2.1) :
    ∃ before a behind, as = before ++ a :: behind ∧ 16 ∉ before ∧
      cb ∈ (action pe p (actionLoop pe p s before).1 a).2 := by
  induction as generalizing s with
  | nil => cases h
  | cons a as ih =>
    simp only [actionLoop] at h
    split_ifs at h with ha
    · exact ⟨[], a, as, rfl, List.not_mem_nil, h⟩
    · rcases List.mem_append.mp h with h | h
      · exact ⟨[], a, as, rfl, List.not_mem_nil, h⟩
      · obtain ⟨before, b, behind, rfl, hdone, hcb⟩ := ih h
        refine ⟨a :: before, b, behind, rfl, by simpa [hdone] using Ne.symm ha, ?_⟩
        rwa [actionLoop_cons ha]

end Registers

/-! ### What stands behind the mark -/

/-- What stands between the mark and the cursor, in the states that know it. -/
def Behind : Nat → Bytes → Prop
  | 18, w => w ≠ [] ∧ IsValue w
  | 30, w => IsPath w
  | 31, w => ∃ v, w = v ++ [37] ∧ IsPath v
  | 32, w => ∃ v a, w = v ++ [37, a] ∧ IsPath v ∧ isXdigit a = true
  | _, _ => True

/-- The characters on which the states of names, values and paths are entered. -/
def entersOn (q : Nat) (c : UInt8) (q' : Nat) : Bool :=
  match q' with
  | 16 => isToken c
  | 18 => isText c && (q = 18 || c ≠ 32)
  | 30 => if q = 3 then c = 47 else if q = 30 then isPathByte c && c ≠ 37 else isXdigit c
  | 31 => c = 37
  | 32 => isXdigit c
  | _ => true

/-- The states from which the states of names, values and paths are entered, and the actions
on the way. -/
def entersFrom (q : Nat) (acts : List Nat) (q' : Nat) : Bool :=
  match q' with
  | 16 => q = 16 && acts = [] || (q = 14 || q = 19 || q = 70) && acts.contains 1
  | 17 => q = 16 && acts = [2] || q = 17 && acts = [3]
  | 18 => q = 17 && acts = [3] || q = 18 && acts = []
  | 30 => q = 3 && acts = [0] || (q = 30 || q = 32) && acts = []
  | 31 => q = 30 && acts = []
  | 32 => q = 31 && acts = []
  | _ => true

theorem entersFrom_row :
    ∀ q < 72, ∀ t ∈ row q, entersFrom q (transActs t) (transTarg t) = true :=
  forall_row (P := fun q as q' => entersFrom q as q' = true) (by decide +kernel)

theorem entersOn_trans {q : Nat} (hq : q ∈ [3, 14, 16, 17, 18, 19, 30, 31, 32, 70]) (c : UInt8) :
    entersOn q c (transTarg (trans q c)) = true := by
  have htable : ∀ q ∈ [3, 14, 16, 17, 18, 19, 30, 31, 32, 70], ∀ r ∈ bounds.map UInt8.ofNat,
      entersOn q r (transTarg (trans q r)) = true := by
    simp only [List.forall_mem_map, trans_eq_lookup, transTarg_eq_entry]
    decide +kernel
  have hclass : ∀ c, isToken c = isToken (classOf bounds c) ∧ isText c = isText (classOf bounds c) ∧
      isPathByte c = isPathByte (classOf bounds c) ∧ isXdigit c = isXdigit (classOf bounds c) ∧
      ((c = 32) = (classOf bounds c = 32)) ∧ ((c = 47) = (classOf bounds c = 47)) ∧
      ((c = 37) = (classOf bounds c = 37)) := by
    simp only [eq_iff_iff]
    exact forall_byte (by decide +kernel)
  have h := htable q hq _ (classOf_mem (by decide) c)
  rw [← trans_classOf] at h
  obtain ⟨h1, h2, h3, h4, h5, h6, h7⟩ := hclass c
  unfold entersOn at h ⊢
  simpa only [h1, h2, h3, h4, h5, h6, h7, ne_eq] using h

section Step
variable {q : Nat} {c : UInt8} (hq : q < 72)
include hq

theorem entersFrom_trans (c : UInt8) :
    entersFrom q (transActs (trans q c)) (transTarg (trans q c)) = true :=
  entersFrom_row q hq _ (trans_mem_row hq c)

theorem behind_start (hset : (transActs (trans q c)).any setsMark = true) :
    Behind (transTarg (trans q c)) [c] := by
  have hfrom := entersFrom_trans hq c
  unfold Behind
  split
  case h_1 htarg =>
    rw [htarg] at hfrom
    obtain ⟨rfl, -⟩ | ⟨-, hacts⟩ : q = 17 ∧ _ ∨ q = 18 ∧ transActs (trans q c) = [] := by
      simpa [entersFrom] using hfrom
    · have hc := entersOn_trans (q := 17) (by decide) c
      rw [htarg] at hc
      simpa [entersOn, IsValue] using hc
    · simp [hacts] at hset
  case h_2 htarg =>
    rw [htarg] at hfrom
    obtain ⟨rfl, -⟩ | ⟨-, hacts⟩ : q = 3 ∧ _ ∨ (q = 30 ∨ q = 32) ∧ transActs (trans q c) = [] := by
      simpa [entersFrom] using hfrom
    · have hc := entersOn_trans (q := 3) (by decide) c
      rw [htarg] at hc
      obtain rfl : c = 47 := by simpa [entersOn] using hc
      exact ⟨rfl, by simp [isPathByte], by rintro (_ | i) hi <;> cases hi⟩
    · simp [hacts] at hset
  case h_3 htarg | h_4 htarg =>
    rw [htarg] at hfrom
    have hacts : transActs (trans q c) = [] := by
      simp only [entersFrom, Bool.and_eq_true, decide_eq_true_eq] at hfrom
      exact hfrom.2
    simp [hacts] at hset
  case h_5 => trivial

theorem behind_concat {w : Bytes} (hset : (transActs (trans q c)).any setsMark = false)
    (h : Behind q w) : Behind (transTarg (trans q c)) (w ++ [c]) := by
  have hfrom := entersFrom_trans hq c
  unfold Behind
  split
  case h_1 htarg =>
    rw [htarg] at hfrom
    obtain ⟨-, hacts⟩ | ⟨rfl, -⟩ : q = 17 ∧ transActs (trans q c) = [3] ∨ q = 18 ∧ _ := by
      simpa [entersFrom] using hfrom
    · simp [hacts, setsMark] at hset
    · have hc := entersOn_trans (q := 18) (by decide) c
      rw [htarg] at hc
      obtain ⟨hne, htext, hhead⟩ : w ≠ [] ∧ IsValue w := h
      refine ⟨by simp, ?_, ?_⟩
      · rw [List.all_append, htext]
        simpa [entersOn] using hc
      · rwa [List.head?_append_of_ne_nil _ hne]
  case h_2 htarg =>
    rw [htarg] at hfrom
    obtain ⟨-, hacts⟩ | ⟨rfl | rfl, -⟩ :
        q = 3 ∧ transActs (trans q c) = [0] ∨ (q = 30 ∨ q = 32) ∧ _ := by
      simpa [entersFrom] using hfrom
    · simp [hacts, setsMark] at hset
    · have hc := entersOn_trans (q := 30) (by decide) c
      rw [htarg] at hc
      obtain ⟨hbyte, hne⟩ : isPathByte c = true ∧ c ≠ 37 := by simpa [entersOn] using hc
      exact IsPath.concat h hbyte hne
    · have hc := entersOn_trans (q := 32) (by decide) c
      rw [htarg] at hc
      obtain ⟨v, a, rfl, hv, ha⟩ : ∃ v a, w = v ++ [37, a] ∧ IsPath v ∧ isXdigit a = true := h
      rw [List.append_assoc]
      exact hv.concat_escape ha hc
  case h_3 htarg =>
    rw [htarg] at hfrom
    obtain ⟨rfl, -⟩ : q = 30 ∧ _ := by simpa [entersFrom] using hfrom
    have hc := entersOn_trans (q := 30) (by decide) c
    rw [htarg] at hc
    obtain rfl : c = 37 := by simpa [entersOn] using hc
    exact ⟨w, rfl, h⟩
  case h_4 htarg =>
    rw [htarg] at hfrom
    obtain ⟨rfl, -⟩ : q = 31 ∧ _ := by simpa [entersFrom] using hfrom
    have hc := entersOn_trans (q := 31) (by decide) c
    rw [htarg] at hc
    obtain ⟨v, rfl, hv⟩ : ∃ v, w = v ++ [37] ∧ IsPath v := h
    exact ⟨v, c, by rw [List.append_assoc]; rfl, hv, hc⟩
  case h_5 => trivial

end Step

/-! ### The invariant -/

/-- The pointers that a state will use, with the text read so far at `base`. -/
structure Captured (base : Nat) (text : Bytes) (s : HttpParser) : Prop where
  lt : s.cs < 72
  mark : marked s.cs = true → ∃ w, Since base text s.mark w ∧ Behind s.cs w
  query : queried s.cs = true → ∃ w, Since base text s.queryStart w
  field : s.cs = 16 → ∃ w, Since base text s.fieldStart w ∧ IsName w
  name : s.cs = 17 ∨ s.cs = 18 →
    ∃ w, HeaderString.Holds base text ⟨s.fieldStart, s.fieldLen⟩ w ∧ IsName w

/-- States that use no pointer. -/
theorem captured_of_cs {base : Nat} {text : Bytes} {s : HttpParser}
    (h : s.cs = start ∨ s.cs = firstFinal ∨ s.cs = error) : Captured base text s := by
  obtain ⟨hlt, hmark, hquery, hfield, hname⟩ : s.cs < 72 ∧ ¬marked s.cs = true ∧
      ¬queried s.cs = true ∧ ¬s.cs = 16 ∧ ¬(s.cs = 17 ∨ s.cs = 18) := by
    rcases h with h | h | h <;> rw [h] <;> decide
  exact ⟨hlt, fun h => absurd h hmark, fun h => absurd h hquery, fun h => absurd h hfield,
    fun h => absurd h hname⟩

theorem uses_row : ∀ q < 72, ∀ t ∈ row q, transTarg t < 72 ∧
    usesSet (marked q) (queried q) (transActs t) = true ∧
    (marked (transTarg t) = true → ((transActs t).any setsMark || marked q) = true) ∧
    (queried (transTarg t) = true → ((transActs t).contains 4 || queried q) = true) :=
  forall_row (P := fun q as q' => q' < 72 ∧ usesSet (marked q) (queried q) as = true ∧
    (marked q' = true → (as.any setsMark || marked q) = true) ∧
    (queried q' = true → (as.contains 4 || queried q) = true)) (by decide +kernel)

/-- Where header fields are reported. -/
theorem field_row : ∀ q < 72, ∀ t ∈ row q, 5 ∈ transActs t →
    (q, transActs t) = (17, [3, 5]) ∨ (q, transActs t) = (18, [5]) :=
  forall_row (P := fun q as _ => 5 ∈ as → (q, as) = (17, [3, 5]) ∨ (q, as) = (18, [5])) (by decide +kernel)

/-- Where the path is reported. -/
theorem path_row : ∀ q < 72, ∀ t ∈ row q, 11 ∈ transActs t →
    (q, transActs t) = (30, [11]) ∨ (q, transActs t) = (30, [11, 7]) :=
  forall_row (P := fun q as _ => 11 ∈ as → (q, as) = (30, [11]) ∨ (q, as) = (30, [11, 7])) (by decide +kernel)

section Step
variable {base : Nat} {text : Bytes} {s : HttpParser} (h : Captured base text s)
include h

/-- One transition keeps the invariant. -/
theorem Captured.step (pe : Nat) (c : UInt8) :
    Captured base (text ++ [c]) (actionLoop pe (base + text.length)
      { s with cs := transTarg (trans s.cs c) } (transActs (trans s.cs c))).1 := by
  set t := trans s.cs c with ht
  have hcs : (actionLoop pe (base + text.length) { s with cs := transTarg t } (transActs t)).1.cs =
    transTarg t := actionLoop_cs ..
  by_cases hdone : 16 ∈ transActs t
  · exact captured_of_cs (.inr (.inl (hcs.trans ((done_mem_transActs t).mp hdone))))
  obtain ⟨hlt, -, hmarked, hqueried⟩ := uses_row s.cs h.lt t (trans_mem_row h.lt c)
  have hfrom := entersFrom_trans h.lt c
  rw [← ht] at hfrom
  refine ⟨by rw [hcs]; exact hlt, ?_, ?_, ?_, ?_⟩
  · rw [hcs, actionLoop_mark hdone]
    intro hm
    cases hset : (transActs t).any setsMark with
    | true => exact ⟨[c], Since.start base text c, behind_start h.lt hset⟩
    | false =>
      obtain ⟨w, hsince, hbehind⟩ := h.mark (by simpa [hset] using hmarked hm)
      exact ⟨w ++ [c], hsince.concat c, behind_concat h.lt hset hbehind⟩
  · rw [hcs, actionLoop_queryStart hdone]
    intro hm
    cases hset : (transActs t).contains 4 with
    | true => exact ⟨[c], Since.start base text c⟩
    | false =>
      rw [hset, Bool.false_or] at hqueried
      obtain ⟨w, hsince⟩ := h.query (hqueried hm)
      exact ⟨w ++ [c], hsince.concat c⟩
  · rw [hcs, actionLoop_fieldStart hdone]
    intro htarg
    rw [htarg] at hfrom
    obtain ⟨hq, hacts⟩ | ⟨hq, hacts⟩ : s.cs = 16 ∧ transActs t = [] ∨
        ((s.cs = 14 ∨ s.cs = 19) ∨ s.cs = 70) ∧ 1 ∈ transActs t := by simpa [entersFrom] using hfrom
    · have hc := entersOn_trans (q := s.cs) (by rw [hq]; decide) c
      rw [← ht, htarg] at hc
      obtain ⟨w, hsince, hne, hall⟩ := h.field hq
      refine ⟨w ++ [c], by simpa [hacts] using hsince.concat c, by simp, ?_⟩
      rw [List.all_append, hall]
      simpa [entersOn] using hc
    · have hc := entersOn_trans (q := s.cs) (by rcases hq with (hq | hq) | hq <;> rw [hq] <;> decide) c
      rw [← ht, htarg] at hc
      refine ⟨[c], by simpa [hacts] using Since.start base text c, by simp, ?_⟩
      simpa [entersOn] using hc
  · rw [hcs]
    rintro (htarg | htarg) <;> rw [htarg] at hfrom
    · obtain ⟨hq, hacts⟩ | ⟨hq, hacts⟩ : s.cs = 16 ∧ transActs t = [2] ∨
          s.cs = 17 ∧ transActs t = [3] := by simpa [entersFrom] using hfrom
      · obtain ⟨w, hsince, hname⟩ := h.field hq
        exact ⟨w, by simpa [hacts, actionLoop, action, slice] using hsince.holds [c], hname⟩
      · obtain ⟨w, hholds, hname⟩ := h.name (.inl hq)
        exact ⟨w, by simpa [hacts, actionLoop, action] using hholds.append [c], hname⟩
    · obtain ⟨hq, hacts⟩ | ⟨hq, hacts⟩ : s.cs = 17 ∧ transActs t = [3] ∨
          s.cs = 18 ∧ transActs t = [] := by simpa [entersFrom] using hfrom
      · obtain ⟨w, hholds, hname⟩ := h.name (.inl hq)
        exact ⟨w, by simpa [hacts, actionLoop, action] using hholds.append [c], hname⟩
      · obtain ⟨w, hholds, hname⟩ := h.name (.inr hq)
        exact ⟨w, by simpa [hacts, actionLoop, action] using hholds.append [c], hname⟩

/-- The callbacks of one transition, with `rest` the bytes of the chunk behind the byte read. -/
theorem Captured.sound (c : UInt8) (rest : Bytes) :
    ∀ cb ∈ (actionLoop (base + (text ++ c :: rest).length) (base + text.length)
      { s with cs := transTarg (trans s.cs c) } (transActs (trans s.cs c))).2.1,
      cb.Sound base (text ++ c :: rest) := by
  intro cb hcb
  set t := trans s.cs c with ht
  obtain ⟨-, huses, -, -⟩ := uses_row s.cs h.lt t (trans_mem_row h.lt c)
  obtain ⟨before, a, behind, hacts, hdone, hcb⟩ := mem_actionLoop hcb
  set p := base + text.length with hp
  set pe := base + (text ++ c :: rest).length with hpe
  have hmem : a ∈ transActs t := by simp [hacts]
  obtain ⟨hmark, hquery⟩ := usesSet_append (hacts ▸ huses)
  have hslice : usesMark a = true → ∃ w, (slice (actionLoop pe p { s with cs := transTarg t }
      before).1.mark p).Holds base (text ++ c :: rest) w := by
    intro ha
    rw [actionLoop_mark hdone]
    cases hset : before.any setsMark with
    | true => exact ⟨[], (Since.nil base text).holds (c :: rest)⟩
    | false =>
      obtain ⟨w, hsince, -⟩ := h.mark (by simpa [hset] using hmark ha)
      exact ⟨w, hsince.holds (c :: rest)⟩
  unfold action at hcb
  split at hcb <;> simp only [List.mem_singleton, List.not_mem_nil] at hcb
  all_goals subst hcb
  case h_6 =>
    obtain ⟨hcs, hfield⟩ | ⟨hcs, hfield⟩ : s.cs = 17 ∧ transActs t = [3, 5] ∨
        s.cs = 18 ∧ transActs t = [5] := by
      simpa using field_row s.cs h.lt t (trans_mem_row h.lt c) hmem
    · obtain ⟨w, hname, hw⟩ := h.name (.inl hcs)
      obtain rfl : before = [3] := by
        rw [hfield] at hacts
        rcases before with _ | ⟨b, _ | ⟨b', before⟩⟩ <;> simp_all
      refine ⟨⟨w, hname.append _, hw⟩, [], (Since.nil base text).holds (c :: rest), ?_⟩
      exact ⟨rfl, by simp⟩
    · obtain ⟨w, hname, hw⟩ := h.name (.inr hcs)
      obtain ⟨w', hsince, hbehind⟩ := h.mark (by rw [hcs]; rfl)
      rw [hcs] at hbehind
      obtain rfl : before = [] := by
        rw [hfield] at hacts
        rcases before with _ | ⟨b, before⟩ <;> simp_all
      exact ⟨⟨w, hname.append _, hw⟩, w', hsince.holds (c :: rest), hbehind.2⟩
  case h_10 =>
    rw [actionLoop_queryStart hdone]
    cases hset : before.contains 4 with
    | true => exact ⟨[], (Since.nil base text).holds (c :: rest)⟩
    | false =>
      have hqueried := hquery rfl
      rw [hset, Bool.or_false] at hqueried
      obtain ⟨w, hsince⟩ := h.query hqueried
      exact ⟨w, hsince.holds (c :: rest)⟩
  case h_12 =>
    obtain ⟨hcs, tail, hpath, htail⟩ : s.cs = 30 ∧ ∃ tail, transActs t = 11 :: tail ∧ 11 ∉ tail := by
      have hrow := path_row s.cs h.lt t (trans_mem_row h.lt c) hmem
      simp only [Prod.mk.injEq] at hrow
      rcases hrow with ⟨hcs, hacts⟩ | ⟨hcs, hacts⟩ <;> exact ⟨hcs, _, hacts, by decide⟩
    obtain ⟨w, hsince, hbehind⟩ := h.mark (by rw [hcs]; rfl)
    rw [hcs] at hbehind
    obtain rfl : before = [] := by
      rw [hpath] at hacts
      rcases before with _ | ⟨b, before⟩ <;> simp_all
    exact ⟨w, hsince.holds (c :: rest), hbehind⟩
  case h_15 => exact .inr rfl
  case h_16 => exact .inl rfl
  case h_17 =>
    refine ⟨_, p + 1, rfl, by omega, ?_, rfl⟩
    simp only [hpe, hp, List.length_append, List.length_cons]
    omega
  all_goals exact hslice rfl

end Step

/-! ### The type of the message -/

/-- The types that the actions report, up to the one that ends the parse. -/
def actTypes : List Nat → List HttpParseType
  | [] => []
  | 14 :: as => .response :: actTypes as
  | 15 :: as => .request :: actTypes as
  | 16 :: _ => []
  | _ :: as => actTypes as

def types (cbs : List Callback) : List HttpParseType :=
  cbs.filterMap fun cb => match cb with
    | .setParseType t => some t
    | _ => none

theorem types_append (cbs cbs' : List Callback) : types (cbs ++ cbs') = types cbs ++ types cbs' :=
  List.filterMap_append

theorem types_actionLoop (pe p : Nat) (s : HttpParser) (as : List Nat) :
    types (actionLoop pe p s as).2.1 = actTypes as := by
  induction as generalizing s with
  | nil => rfl
  | cons a as ih =>
    unfold actTypes
    simp only [actionLoop]
    split_ifs with ha
    · subst ha
      rfl
    · rw [types_append, ih]
      unfold action
      split <;> first | rfl | (split <;> simp_all [types])

/-- The states behind the request or status line. -/
def typed (cs : Nat) : Bool := (15 ≤ cs && cs ≤ 20) || cs = 71

/-- In a state behind the first line the type has been reported once, and before it not at
all. -/
def Typed (cs : Nat) (ts : List HttpParseType) : Prop :=
  cs ≠ error → if typed cs then ts = [.request] ∨ ts = [.response] else ts = []

theorem types_row : ∀ q < 72, ∀ t ∈ row q, transTarg t ≠ error →
    if typed q then typed (transTarg t) = true ∧ actTypes (transActs t) = []
    else if typed (transTarg t) then
      actTypes (transActs t) = [.request] ∨ actTypes (transActs t) = [.response]
    else actTypes (transActs t) = [] :=
  forall_row (P := fun q as q' => q' ≠ error →
    if typed q then typed q' = true ∧ actTypes as = []
    else if typed q' then actTypes as = [.request] ∨ actTypes as = [.response] else actTypes as = []) (by decide +kernel)

theorem Typed.step {q : Nat} {ts : List HttpParseType} (h : Typed q ts) (hq : q < 72)
    (hq0 : q ≠ error) (c : UInt8) :
    Typed (transTarg (trans q c)) (ts ++ actTypes (transActs (trans q c))) := by
  intro htarg
  have hrow := types_row q hq _ (trans_mem_row hq c) htarg
  replace h := h hq0
  cases hq : typed q with
  | true =>
    simp only [hq, if_true] at h hrow
    rwa [hrow.1, hrow.2, if_pos rfl, List.append_nil]
  | false =>
    simp only [hq, Bool.false_eq_true, if_false] at h hrow
    rw [h, List.nil_append]
    exact hrow

/-! ### Runs -/

section Runs
variable {base : Nat} {text : Bytes} {s : HttpParser} {ts : List HttpParseType}

/-- What every transition keeps of the state, with the text read so far, and gives to the callbacks,
a run over the bytes of a chunk does. -/
theorem exec_invariant {I : Bytes → HttpParser → Prop} {P : Bytes → Callback → Prop}
    (hend : ∀ text s, s.cs = firstFinal ∨ s.cs = error → I text s)
    (hstep : ∀ text s pe c, s.cs ≠ error → I text s → I (text ++ [c]) (actionLoop pe (base + text.length)
      { s with cs := transTarg (trans s.cs c) } (transActs (trans s.cs c))).1)
    (hout : ∀ text s c rest, s.cs ≠ error → I text s →
      ∀ cb ∈ (actionLoop (base + (text ++ c :: rest).length) (base + text.length)
        { s with cs := transTarg (trans s.cs c) } (transActs (trans s.cs c))).2.1, P (text ++ c :: rest) cb)
    (hs : s.cs ≠ error) (h : I text s) (bytes : Bytes) :
    let r := exec (base + (text ++ bytes).length) bytes (base + text.length) s
    I (text ++ bytes) r.1 ∧ ∀ cb ∈ r.2.2, P (text ++ bytes) cb := by
  induction bytes generalizing text s with
  | nil => simpa [exec] using h
  | cons c rest ih =>
    have hstep' := hstep text s (base + (text ++ c :: rest).length) c hs h
    have hsound := hout text s c rest hs h
    have hlen : base + (text ++ [c]).length = base + text.length + 1 := by simp [Nat.add_assoc]
    have hbrk := (actionLoop_brk (base + (text ++ c :: rest).length) (base + text.length)
      { s with cs := transTarg (trans s.cs c) } (transActs (trans s.cs c))).trans
      (done_mem_transActs (trans s.cs c))
    have hcs := actionLoop_cs (base + (text ++ c :: rest).length) (base + text.length)
      { s with cs := transTarg (trans s.cs c) } (transActs (trans s.cs c))
    simp only [exec]
    set r := actionLoop (base + (text ++ c :: rest).length) (base + text.length)
      { s with cs := transTarg (trans s.cs c) } (transActs (trans s.cs c)) with hr
    split_ifs with hdone herr
    · exact ⟨hend _ _ (.inl (hcs.trans (hbrk.mp hdone))), hsound⟩
    · exact ⟨hend _ _ (.inr herr), hsound⟩
    · have hih := ih herr hstep'
      rw [List.append_assoc, List.singleton_append, hlen] at hih
      refine ⟨hih.1, fun cb hcb => ?_⟩
      rcases List.mem_append.mp hcb with hcb | hcb
      · exact hsound cb hcb
      · exact hih.2 cb hcb

theorem parse_invariant {I : Bytes → HttpParser → Prop} {P : Bytes → Callback → Prop}
    (hend : ∀ text s, s.cs = firstFinal ∨ s.cs = error → I text s)
    (hstep : ∀ text s pe c, s.cs ≠ error → I text s → I (text ++ [c]) (actionLoop pe (base + text.length)
      { s with cs := transTarg (trans s.cs c) } (transActs (trans s.cs c))).1)
    (hout : ∀ text s c rest, s.cs ≠ error → I text s →
      ∀ cb ∈ (actionLoop (base + (text ++ c :: rest).length) (base + text.length)
        { s with cs := transTarg (trans s.cs c) } (transActs (trans s.cs c))).2.1, P (text ++ c :: rest) cb)
    (hnread : ∀ text s n, I text s → I text { s with nread := n })
    (h : I text s) (bytes : Bytes) :
    let r := s.parse (base + text.length) bytes
    I (text ++ bytes) r.1 ∧ ∀ cb ∈ r.2, P (text ++ bytes) cb := by
  unfold parse
  split_ifs with hstop
  · refine ⟨?_, by simp⟩
    rcases hstop with rfl | herr
    · rwa [List.append_nil]
    · exact hend _ _ (.inr herr)
  · have hexec := exec_invariant hend hstep hout (fun hs => hstop (.inr hs)) h bytes
    rw [List.length_append, ← Nat.add_assoc] at hexec
    exact ⟨hnread _ _ _ hexec.1, hexec.2⟩

theorem parse_captured (h : Captured base text s) (bytes : Bytes) :
    let r := s.parse (base + text.length) bytes
    Captured base (text ++ bytes) r.1 ∧ ∀ cb ∈ r.2, cb.Sound base (text ++ bytes) :=
  parse_invariant (I := Captured base) (P := Callback.Sound base) (fun _ _ hcs => captured_of_cs (.inr hcs)) (fun _ _ pe c _ h => h.step pe c)
    (fun _ _ c rest _ h => h.sound c rest)
    (fun _ _ _ h => ⟨h.lt, h.mark, h.query, h.field, h.name⟩) h bytes

theorem exec_typed (h : Typed s.cs ts) (hs : s.cs < 72) (hs0 : s.cs ≠ error) (pe p : Nat)
    (bytes : Bytes) :
    let r := exec pe bytes p s
    Typed r.1.cs (ts ++ types r.2.2) := by
  induction bytes generalizing p s ts with
  | nil => simpa [exec, types] using h
  | cons c rest ih =>
    have hcs : (actionLoop pe p { s with cs := transTarg (trans s.cs c) }
      (transActs (trans s.cs c))).1.cs = transTarg (trans s.cs c) := actionLoop_cs ..
    have htypes := types_actionLoop pe p { s with cs := transTarg (trans s.cs c) }
      (transActs (trans s.cs c))
    have hstep := h.step hs hs0 c
    have hlt := (uses_row s.cs hs _ (trans_mem_row hs c)).1
    rw [← hcs, ← htypes] at hstep
    rw [← hcs] at hlt
    simp only [exec]
    set r := actionLoop pe p { s with cs := transTarg (trans s.cs c) } (transActs (trans s.cs c))
    split_ifs with hdone herr
    · exact hstep
    · exact hstep
    · rw [types_append, ← List.append_assoc]
      exact ih hstep hlt herr (p + 1)

theorem parse_typed (h : Typed s.cs ts) (hs : s.cs < 72) (buf : Nat) (bytes : Bytes) :
    let r := s.parse buf bytes
    Typed r.1.cs (ts ++ types r.2) := by
  unfold parse
  split_ifs with hstop
  · simpa [types] using h
  · exact exec_typed h hs (fun h0 => hstop (.inr h0)) _ _ bytes

/-- Feeding consecutive chunks, the first at position `buf`. -/
def feed (s : HttpParser) (buf : Nat) : List Bytes → HttpParser × List Callback
  | [] => (s, [])
  | chunk :: chunks =>
    let (s, cbs) := s.parse buf chunk
    let (s, cbs') := feed s (buf + chunk.length) chunks
    (s, cbs ++ cbs')

theorem feed_captured (h : Captured base text s) (chunks : List Bytes) :
    Captured base (text ++ chunks.flatten) (s.feed (base + text.length) chunks).1 := by
  induction chunks generalizing text s with
  | nil => simpa [feed] using h
  | cons chunk chunks ih =>
    have hih := ih (parse_captured h chunk).1
    rw [List.length_append, ← Nat.add_assoc, List.append_assoc] at hih
    exact hih

theorem feed_typed (h : Captured base text s) (ht : Typed s.cs ts) (chunks : List Bytes) :
    let r := s.feed (base + text.length) chunks
    Typed r.1.cs (ts ++ types r.2) := by
  induction chunks generalizing text s ts with
  | nil => simpa [feed, types] using ht
  | cons chunk chunks ih =>
    have hih := ih (parse_captured h chunk).1 (parse_typed ht h.lt (base + text.length) chunk)
    rw [List.length_append, ← Nat.add_assoc] at hih
    intro r
    have hr : r.2 = (s.parse (base + text.length) chunk).2 ++ _ := rfl
    rw [hr, types_append, ← List.append_assoc]
    exact hih

end Runs

/-- Every callback that the parser makes on a chunk is sound, whatever was fed before it. -/
theorem feed_sound (base : Nat) (fed : List Bytes) (chunk : Bytes) :
    ∀ cb ∈ ((reset.feed base fed).1.parse (base + fed.flatten.length) chunk).2,
      cb.Sound base (fed.flatten ++ chunk) := by
  have h : Captured base [] reset := captured_of_cs (.inl rfl)
  exact (parse_captured (feed_captured h fed) chunk).2

/-- A parser that has finished has reported the type of the message once. -/
theorem types_of_isFinished (base : Nat) (fed : List Bytes)
    (h : (reset.feed base fed).1.isFinished = true) :
    types (reset.feed base fed).2 = [.request] ∨ types (reset.feed base fed).2 = [.response] := by
  have hreset : Captured base [] reset := captured_of_cs (.inl rfl)
  have htyped : Typed reset.cs [] := fun _ => rfl
  have hcs : (reset.feed base fed).1.cs = firstFinal := by simpa [isFinished] using h
  have hend : Typed (reset.feed base fed).1.cs (types (reset.feed base fed).2) :=
    feed_typed hreset htyped fed
  rw [hcs] at hend
  exact hend (by decide)

end HttpParser
end Latypus.Http
