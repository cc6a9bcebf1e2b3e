import Latypus.Lib.Scanner
import Latypus.Http.Fields
import Latypus.Config.Grammar

/-! Configuration documents and the calls that parsing them makes. The calls for a semicolon and
for the braces are made one character late or at the end of the input, so a state between two
items has one call pending; with it counted, every item gives its own calls, in order. -/

namespace Latypus.Config
open Lib Http

/-- A run of characters and backslash escapes. -/
def isRun (ok : UInt8 → Bool) : Bytes → Bool
  | [] => true
  | c :: rest =>
    if c = 92 then
      match rest with
      | _ :: rest => isRun ok rest
      | [] => false
    else ok c && isRun ok rest

inductive Quote
  | none | single | double

/-- The characters that may stand in a symbol without a backslash. -/
def Quote.ok : Quote → UInt8 → Bool
  | none, c => isSymbolChar c
  | single, c => c ≠ 39
  | double, c => c ≠ 34

/-- A symbol by its raw text, without the quotes. -/
structure Symbol where
  quote : Quote
  raw : Bytes
  raw_isRun : isRun quote.ok raw = true
  raw_ne_nil : quote = .none → raw ≠ []

def Symbol.bytes (sym : Symbol) : Bytes :=
  match sym.quote with
  | .none => sym.raw
  | .single => 39 :: sym.raw ++ [39]
  | .double => 34 :: sym.raw ++ [34]

/-- White space that is not empty. -/
structure Blank where
  bytes : Bytes
  ne_nil : bytes ≠ []
  all_blank : bytes.all isBlank

inductive Item
  | comment (text : Bytes) (h : 10 ∉ text)
  | blank (w : Blank)
  | statement (first : Symbol) (rest : List (Blank × Symbol)) (w : Option Blank)
  | beginBlock (first : Symbol) (rest : List (Blank × Symbol)) (w : Blank)
  | endBlock

/-- The symbols behind the first one, each with the white space before it. -/
def restBytes (rest : List (Blank × Symbol)) : Bytes :=
  rest.flatMap fun x => x.1.bytes ++ x.2.bytes

def Item.bytes : Item → Bytes
  | .comment text _ => 35 :: text ++ [10]
  | .blank w => w.bytes
  | .statement first rest w => first.bytes ++ restBytes rest ++ (w.elim [] Blank.bytes ++ [59])
  | .beginBlock first rest w => first.bytes ++ restBytes rest ++ (w.bytes ++ [123])
  | .endBlock => [125]

def symbolEvents (first : Symbol) (rest : List (Blank × Symbol)) : List (Event Bytes) :=
  .symbol first.raw :: rest.map fun x => .symbol x.2.raw

/-- The calls that an item stands for. -/
def Item.events : Item → List (Event Bytes)
  | .comment _ _ => []
  | .blank _ => []
  | .statement first rest _ => symbolEvents first rest ++ [.endStatement]
  | .beginBlock first rest _ => symbolEvents first rest ++ [.startBlock]
  | .endBlock => [.endBlock]

namespace ConfigParser

/-! ### The actions of the transitions -/

def startsSymbol (c : UInt8) : Bool := isSymbolChar c || c = 34 || c = 39 || c = 92

/-- The actions for the calls that are pending between two items. -/
def leadActs : Nat → List Nat
  | 11 => [5]
  | 12 => [2]
  | 13 => [1]
  | _ => []

/-- The actions on the way out of a state, when it is not to the error state. -/
def actsOf (q : Nat) (c : UInt8) : List Nat :=
  match q with
  | 1 => if isBlank c || c = 59 then [3] else []
  | 4 => if isBlank c || c = 59 then [4] else []
  | 2 | 10 | 11 | 12 | 13 => leadActs q ++ if startsSymbol c then [0] else []
  | _ => []

theorem startsSymbol_classOf (c : UInt8) : startsSymbol c = startsSymbol (classOf bounds c) := by
  unfold startsSymbol
  rw [(chars_classOf c).2.1]
  simp only [eq_classOf 34 c (by decide), eq_classOf 39 c (by decide), eq_classOf 92 c (by decide)]

theorem actsOf_classOf (q : Nat) (c : UInt8) : actsOf q c = actsOf q (classOf bounds c) := by
  unfold actsOf
  rw [(chars_classOf c).1, startsSymbol_classOf]
  simp only [eq_classOf 59 c (by decide)]

theorem transActs_eq {q : Nat} (hq : q < 14) (c : UInt8) (h : target q c ≠ error) :
    transActs (trans q c) = actsOf q c := by
  have htable : ∀ q < 14, ∀ r ∈ classes, target q r ≠ error → transActs (trans q r) = actsOf q r := by
    simp only [classes, List.forall_mem_map]
    decide +kernel
  rw [trans_classOf, actsOf_classOf]
  exact htable q hq _ (classOf_mem (by decide) c) (target_classOf q c ▸ h)

/-! ### The parser as a scanner -/

def scanner : Scanner ConfigParser UInt8 (Event HeaderString) where
  step s p c := actionLoop p { s with cs := transTarg (trans s.cs c) } (transActs (trans s.cs c))
  stops s := s.cs == error
  takes _ := false

theorem exec_of_passes {w : Bytes} {p : Nat} {s t : ConfigParser} {out : List (Event HeaderString)}
    (h : scanner.Passes w p s t out) (ht : t.cs ≠ error) :
    exec w p s = (t, out ++ eofActionLoop (eofActs t.cs)) := by
  obtain ⟨hs, hscan⟩ := h
  replace hscan : (scanner.scan w p s).1 = t ∧ (scanner.scan w p s).2.2 = out := by
    rw [hscan]
    exact ⟨rfl, rfl⟩
  induction w generalizing p s out with
  | nil =>
    obtain ⟨rfl, rfl⟩ := hscan
    rfl
  | cons c w ih =>
    have hstep : scanner.step s p c = actionLoop p { s with cs := transTarg (trans s.cs c) }
      (transActs (trans s.cs c)) := rfl
    simp only [Scanner.scan, hs, Bool.false_eq_true, if_false, hstep] at hscan
    simp only [exec]
    set r := actionLoop p { s with cs := transTarg (trans s.cs c) } (transActs (trans s.cs c)) with hr
    by_cases hstop : scanner.stops r.1 = true
    · rw [if_pos hstop] at hscan
      exact absurd (by simpa [scanner] using hstop) (hscan.1 ▸ ht)
    · rw [if_neg hstop] at hscan
      have hcs : r.1.cs ≠ error := by simpa [scanner] using hstop
      rw [if_neg hcs]
      obtain ⟨h1, h2⟩ := hscan
      rw [ih (by simpa using hstop) ⟨h1, rfl⟩, ← h2, List.append_assoc]

/-! ### The path of each piece through the tables -/

/-- The call that is pending between two items. -/
def lead {σ : Type} : Nat → List (Event σ)
  | 11 => [.endStatement]
  | 12 => [.endBlock]
  | 13 => [.startBlock]
  | _ => []

theorem actionLoop_leadActs (p q : Nat) (s : ConfigParser) (as : List Nat) :
    actionLoop p s (leadActs q ++ as) = ((actionLoop p s as).1, lead q ++ (actionLoop p s as).2) := by
  unfold leadActs lead
  split <;> rfl

theorem eofActs_item {q : Nat} (hq : q ∈ items) :
    eofActionLoop (eofActs q) = lead q ++ [.configDone] := by
  obtain ⟨h, h'⟩ := hq
  obtain rfl | rfl | rfl | rfl : q = 10 ∨ q = 11 ∨ q = 12 ∨ q = 13 := by omega
  all_goals rfl

variable {p q : Nat} {m : Option Nat} {c : UInt8}

theorem passes_one (hq : q < 14) (hq0 : q ≠ error) (h : target q c ≠ error) :
    scanner.Passes [c] p ⟨q, m⟩ (actionLoop p ⟨target q c, m⟩ (actsOf q c)).1
      (actionLoop p ⟨target q c, m⟩ (actsOf q c)).2 := by
  have htarg : transTarg (trans q c) = target q c := by
    rw [← step_eq_target hq]
    exact (if_neg hq0).symm
  refine .single (by simpa [scanner] using hq0) ?_ ?_
  · simp only [scanner, htarg, transActs_eq hq c h]
  · intro hstop
    simp only [scanner, actionLoop_cs, beq_iff_eq] at hstop
    exact absurd hstop h

/-- A character on which no action is taken. -/
theorem passes_quiet {e : Nat} (hq : q < 14) (hq0 : q ≠ error) (h : target q c = e)
    (he : e ≠ error) (hacts : actsOf q c = []) : scanner.Passes [c] p ⟨q, m⟩ ⟨e, m⟩ [] := by
  have hone := passes_one (p := p) (m := m) hq hq0 (h ▸ he)
  rwa [hacts, h] at hone

/-- A run of characters and escapes; `e` is the state behind a backslash. -/
theorem passes_run {ok : UInt8 → Bool} {e : Nat} (hq : q < 14) (hq0 : q ≠ error) (he : e < 14)
    (he0 : e ≠ error) (hok : ∀ c, ok c = true → c ≠ 92 → target q c = q ∧ actsOf q c = [])
    (hback : target q 92 = e ∧ actsOf q 92 = [])
    (hesc : ∀ c, target e c = q ∧ actsOf e c = []) {w : Bytes} (hw : isRun ok w = true) (p : Nat) :
    scanner.Passes w p ⟨q, m⟩ ⟨q, m⟩ [] := by
  fun_induction isRun ok w generalizing p with
  | case1 => exact .nil (by simpa [scanner] using hq0)
  | case2 a rest ih =>
    have hone := passes_quiet (p := p) (m := m) hq hq0 hback.1 he0 hback.2
    have htwo := passes_quiet (p := p + 1) (m := m) (c := a) he he0 (hesc a).1 hq0 (hesc a).2
    exact hone.cons (htwo.cons (ih hw (p + 1 + 1)))
  | case3 => cases hw
  | case4 c rest hc ih =>
    rw [Bool.and_eq_true] at hw
    obtain ⟨htarg, hacts⟩ := hok c hw.1 hc
    exact (passes_quiet hq hq0 htarg hq0 hacts).cons (ih hw.2 (p + 1))

/-- The first character of a symbol sets the mark, behind the call that was pending. -/
theorem passes_symbolStart (hq : q ∈ symbolStarts) (hc : startsSymbol c = true) :
    scanner.Passes [c] p ⟨q, m⟩ ⟨target 10 c, some p⟩ (lead q) := by
  have hlt : q < 14 := by
    rcases hq with rfl | hq
    · omega
    · exact Nat.lt_succ_of_le hq.2
  have hacts : actsOf q c = leadActs q ++ [0] := by
    rcases hq with rfl | ⟨h, h'⟩
    · simp [actsOf, hc]
    · obtain rfl | rfl | rfl | rfl : q = 10 ∨ q = 11 ∨ q = 12 ∨ q = 13 := by omega
      all_goals simp [actsOf, hc]
  have hstart : ∀ r ∈ classes, startsSymbol r = true →
      target 2 r = target 10 r ∧ target 10 r ≠ error := forall_classes (by decide +kernel)
  have hclass : startsSymbol (classOf bounds c) = true := startsSymbol_classOf c ▸ hc
  have htarget : target q c = target 10 c ∧ target 10 c ≠ error := by
    have h := hstart _ (classOf_mem (by decide) c) hclass
    rw [← target_classOf, ← target_classOf] at h
    refine ⟨?_, h.2⟩
    rcases hq with rfl | ⟨h10, h13⟩
    · exact h.1
    · obtain rfl | rfl | rfl | rfl : q = 10 ∨ q = 11 ∨ q = 12 ∨ q = 13 := by omega
      all_goals rfl
  have hq0 : q ≠ error := by
    rcases hq with rfl | hq
    · decide
    · exact (Nat.lt_of_lt_of_le (by decide) hq.1).ne'
  have hone := passes_one (p := p) (m := m) (c := c) hlt hq0 (htarget.1 ▸ htarget.2)
  rw [hacts, actionLoop_leadActs, htarget.1] at hone
  simpa [actionLoop, action] using hone

/-! ### Symbols -/

/-- The state behind the last character of a symbol. -/
def endOf (sym : Symbol) : Nat :=
  match sym.quote with
  | .none => 1
  | _ => 4

/-- The slice that is reported for a symbol that starts at `p`. -/
def sliceOf (p : Nat) (sym : Symbol) : HeaderString :=
  match sym.quote with
  | .none => ⟨some p, sym.raw.length⟩
  | _ => ⟨some (p + 1), sym.raw.length⟩

theorem passes_unquoted {w : Bytes} (hw : isRun isSymbolChar w = true) (p : Nat) :
    scanner.Passes w p ⟨1, m⟩ ⟨1, m⟩ [] := by
  have hsymbol : ∀ r ∈ classes, isSymbolChar r = true → target 1 r = 1 ∧ actsOf 1 r = [] :=
    forall_classes (by decide +kernel)
  refine passes_run (by decide) (by decide) (e := 8) (by decide) (by decide) ?_ (by decide)
    (fun c => ⟨rfl, rfl⟩) hw p
  intro c hc _
  rw [target_classOf, actsOf_classOf]
  exact hsymbol _ (classOf_mem (by decide) c) ((chars_classOf c).2.1 ▸ hc)

/-- The inside of a quoted symbol and the quote behind it. -/
theorem passes_quoted {k : UInt8} {e : Nat} (hk : k ≠ 92) (hq : q < 14) (hq0 : q ≠ error)
    (he : e < 14) (he0 : e ≠ error) (htarget : ∀ c, target q c = fromQuoted k q e c)
    (hesc : ∀ c, target e c = q) (hacts : ∀ c, actsOf q c = []) (hacte : ∀ c, actsOf e c = [])
    {w : Bytes} (hw : isRun (· ≠ k) w = true) (p : Nat) :
    scanner.Passes (w ++ [k]) p ⟨q, m⟩ ⟨4, m⟩ [] := by
  have hrun : scanner.Passes w p ⟨q, m⟩ ⟨q, m⟩ [] := by
    refine passes_run hq hq0 he he0 ?_ ?_ (fun c => ⟨hesc c, hacte c⟩) hw p
    · intro c hc hback
      rw [decide_eq_true_eq] at hc
      rw [htarget, fromQuoted, if_neg hc, if_neg hback]
      exact ⟨rfl, hacts c⟩
    · rw [htarget, fromQuoted, if_neg hk.symm, if_pos rfl]
      exact ⟨rfl, hacts 92⟩
  have hend : target q k = 4 := by rw [htarget, fromQuoted, if_pos rfl]
  exact hrun.append (passes_quiet hq hq0 hend (by decide) (hacts k))

theorem passes_symbol (hq : q ∈ symbolStarts) (sym : Symbol) (p : Nat) :
    scanner.Passes sym.bytes p ⟨q, m⟩ ⟨endOf sym, some p⟩ (lead q) := by
  obtain ⟨quote, raw, hrun, hne⟩ := sym
  rw [← List.append_nil (lead q)]
  cases quote with
  | none =>
    cases raw with
    | nil => exact absurd rfl (hne rfl)
    | cons c rest =>
      simp only [Symbol.bytes, endOf]
      by_cases hc : c = 92
      · subst hc
        cases rest with
        | nil => cases hrun
        | cons a rest =>
          have hstart := passes_symbolStart (p := p) (m := m) hq (c := 92) (by decide)
          have hesc := passes_quiet (p := p + 1) (m := some p) (q := 8) (c := a) (e := 1)
            (by decide) (by decide) rfl (by decide) rfl
          rw [isRun, if_pos rfl] at hrun
          exact hstart.cons (hesc.cons (passes_unquoted hrun (p + 1 + 1)))
      · rw [isRun.eq_def] at hrun
        simp only [hc, if_false, Bool.and_eq_true] at hrun
        have hchar : isSymbolChar c = true := hrun.1
        have hone : target 10 c = 1 :=
          target_eq_of_classes (fun c => (chars_classOf c).2.1) (forall_classes (by decide +kernel)) hchar
        have hstart := passes_symbolStart (p := p) (m := m) hq (c := c) (by simp [startsSymbol, hchar])
        rw [hone] at hstart
        exact hstart.cons (passes_unquoted hrun.2 (p + 1))
  | single =>
    have hstart := passes_symbolStart (p := p) (m := m) hq (c := 39) (by decide)
    exact hstart.cons (passes_quoted (by decide) (by decide) (by decide) (e := 7) (by decide)
      (by decide) (fun _ => rfl) (fun _ => rfl) (fun _ => rfl) (fun _ => rfl) hrun (p + 1))
  | double =>
    have hstart := passes_symbolStart (p := p) (m := m) hq (c := 34) (by decide)
    exact hstart.cons (passes_quoted (by decide) (by decide) (by decide) (e := 9) (by decide)
      (by decide) (fun _ => rfl) (fun _ => rfl) (fun _ => rfl) (fun _ => rfl) hrun (p + 1))

/-- The character behind a symbol reports it. -/
theorem passes_symbolEnd (sym : Symbol) (p : Nat) (hc : isBlank c = true ∨ c = 59) :
    scanner.Passes [c] (p + sym.bytes.length) ⟨endOf sym, some p⟩
      ⟨if isBlank c then 2 else 11, some p⟩ [.symbol (sliceOf p sym)] := by
  have hblank : (isBlank c || c = 59) = true := by simpa using hc
  have hboth : ∀ r ∈ classes, (isBlank r || r = 59) = true →
      target 1 r = (if isBlank r then 2 else 11) ∧ target 4 r = (if isBlank r then 2 else 11) :=
    forall_classes (by decide +kernel)
  have htarget : target (endOf sym) c = if isBlank c then 2 else 11 := by
    have h := hboth _ (classOf_mem (by decide) c)
      (by simpa only [← (chars_classOf c).1, ← eq_classOf 59 c (by decide)] using hblank)
    rw [target_classOf, (chars_classOf c).1]
    unfold endOf
    split
    · exact h.1
    · exact h.2
  have hne : target (endOf sym) c ≠ error := by
    rw [htarget]
    split <;> decide
  obtain ⟨quote, raw, hrun, hraw⟩ := sym
  cases quote with
  | none =>
    have hone := passes_one (p := p + raw.length) (m := some p) (q := 1) (by decide) (by decide) hne
    rw [show target 1 c = _ from htarget] at hone
    simpa [actsOf, hblank, actionLoop, action, sliceOf, endOf, Symbol.bytes] using hone
  | single | double =>
    have hone := passes_one (p := p + (raw.length + 1 + 1)) (m := some p) (q := 4) (by decide) (by decide)
      hne
    rw [show target 4 c = _ from htarget] at hone
    simpa [actsOf, hblank, actionLoop, action, sliceOf, endOf, Symbol.bytes] using hone

/-! ### Items -/

/-- Reading `w` at position `p` of a text leads from `s` to `t` and makes the calls `out`. -/
def Reads (text w : Bytes) (p : Nat) (s t : ConfigParser) (out : List (Event Bytes)) : Prop :=
  ∃ calls, scanner.Passes w p s t calls ∧ calls.map (Event.map (bytesAt text)) = out

variable {text w rest : Bytes} {s t : ConfigParser} {out : List (Event Bytes)}

theorem Reads.append {w' : Bytes} {u : ConfigParser} {out' : List (Event Bytes)}
    (h : Reads text w p s t out) (h' : Reads text w' (p + w.length) t u out') :
    Reads text (w ++ w') p s u (out ++ out') := by
  obtain ⟨calls, hpass, rfl⟩ := h
  obtain ⟨calls', hpass', rfl⟩ := h'
  exact ⟨calls ++ calls', hpass.append hpass', by rw [List.map_append]⟩

theorem map_lead {σ τ : Type} (f : σ → τ) (q : Nat) : (lead q).map (Event.map f) = lead q := by
  unfold lead
  split <;> rfl

theorem Reads.of_lead (h : scanner.Passes w p s t (lead q)) : Reads text w p s t (lead q) :=
  ⟨lead q, h, map_lead _ q⟩

theorem Reads.of_quiet (h : scanner.Passes w p s t []) : Reads text w p s t [] := ⟨[], h, rfl⟩

theorem bytesAt_sliceOf (sym : Symbol) (h : text.drop p = sym.bytes ++ rest) :
    bytesAt text (sliceOf p sym) = sym.raw := by
  obtain ⟨quote, raw, hrun, hne⟩ := sym
  cases quote with
  | none => exact bytesAt_of_drop h
  | single | double =>
    simp only [Symbol.bytes, List.cons_append, List.append_assoc] at h
    exact bytesAt_of_drop (drop_of_drop (w := [_]) h)

/-- White space behind a symbol, or more of it. -/
theorem passes_blanks (hw : w.all isBlank = true) (p : Nat) :
    scanner.Passes w p ⟨2, m⟩ ⟨2, m⟩ [] := by
  have htable : ∀ r ∈ classes, isBlank r = true → actsOf 2 r = [] := forall_classes (by decide +kernel)
  refine .of_forall rfl fun c hc p => ?_
  have hblank : isBlank c = true := List.all_eq_true.mp hw c hc
  have hacts : actsOf 2 c = [] := by
    rw [actsOf_classOf]
    exact htable _ (classOf_mem (by decide) c) ((chars_classOf c).1 ▸ hblank)
  exact passes_quiet (by decide) (by decide) (if_pos hblank) (by decide) hacts

/-- White space reports the symbol before it. -/
theorem reads_gap (sym : Symbol) (gap : Blank) (h : text.drop p = sym.bytes ++ rest) :
    Reads text gap.bytes (p + sym.bytes.length) ⟨endOf sym, some p⟩ ⟨2, some p⟩
      [.symbol sym.raw] := by
  obtain ⟨w, hne, hblank⟩ := gap
  cases w with
  | nil => exact absurd rfl hne
  | cons c w =>
    rw [List.all_cons, Bool.and_eq_true] at hblank
    have hend := passes_symbolEnd sym p (.inl hblank.1)
    rw [if_pos hblank.1] at hend
    refine ⟨_, hend.cons (passes_blanks hblank.2 _), ?_⟩
    simp [Event.map, bytesAt_sliceOf sym h]

/-- The symbols of a statement or a block: all but the last are reported. -/
theorem reads_symbols (first : Symbol) (more : List (Blank × Symbol)) (hq : q ∈ symbolStarts)
    (h : text.drop p = first.bytes ++ restBytes more ++ rest) :
    ∃ last p' init, Reads text (first.bytes ++ restBytes more) p ⟨q, m⟩ ⟨endOf last, some p'⟩
        (lead q ++ init) ∧ init ++ [.symbol last.raw] = symbolEvents first more ∧
      text.drop p' = last.bytes ++ rest ∧
      p' + last.bytes.length = p + (first.bytes ++ restBytes more).length := by
  induction more generalizing first p q m with
  | nil =>
    refine ⟨first, p, [], ?_, rfl, by simpa [restBytes] using h, by simp [restBytes]⟩
    simpa [restBytes] using Reads.of_lead (passes_symbol hq first p)
  | cons x more ih =>
    obtain ⟨gap, sym⟩ := x
    have hbytes : restBytes ((gap, sym) :: more) = gap.bytes ++ (sym.bytes ++ restBytes more) := by
      simp [restBytes]
    rw [hbytes] at h ⊢
    simp only [List.append_assoc] at h
    have hnext := drop_of_drop (drop_of_drop h)
    rw [← List.append_assoc] at hnext
    obtain ⟨last, p', init, hread, hevents, hlast, hpos⟩ :=
      ih (m := some p) sym (.inl rfl : 2 ∈ symbolStarts) hnext
    refine ⟨last, p', .symbol first.raw :: init, ?_, ?_, hlast, ?_⟩
    · exact (Reads.of_lead (passes_symbol hq first p)).append ((reads_gap first gap h).append hread)
    · rw [List.cons_append, hevents]
      rfl
    · rw [hpos]
      simp only [List.length_append]
      omega

/-- A character between two items that starts no symbol. -/
theorem passes_item (hq : q ∈ items) (hc : startsSymbol c = false) (h : fromItem c ≠ error) (p : Nat) :
    scanner.Passes [c] p ⟨q, m⟩ ⟨fromItem c, m⟩ (lead q) := by
  have hlt : q < 14 := Nat.lt_succ_of_le hq.2
  have htarget : target q c = fromItem c := by rw [← step_eq_target hlt, step_item hq]
  have hacts : actsOf q c = leadActs q ++ [] := by
    obtain ⟨h10, h13⟩ := hq
    obtain rfl | rfl | rfl | rfl : q = 10 ∨ q = 11 ∨ q = 12 ∨ q = 13 := by omega
    all_goals simp [actsOf, hc]
  have hq0 : q ≠ error := (Nat.lt_of_lt_of_le (by decide) hq.1).ne'
  have hone := passes_one (p := p) (m := m) (c := c) hlt hq0 (htarget ▸ h)
  rw [hacts, actionLoop_leadActs, htarget] at hone
  simpa [actionLoop] using hone

theorem ten_mem_items : 10 ∈ items := ⟨le_rfl, by decide⟩

theorem eleven_mem_items : 11 ∈ items := ⟨by decide, by decide⟩

theorem twelve_mem_items : 12 ∈ items := ⟨by decide, by decide⟩

theorem thirteen_mem_items : 13 ∈ items := ⟨by decide, le_rfl⟩

/-- White space between two items. -/
theorem passes_blankItem (hq : q ∈ items) (gap : Blank) (p : Nat) :
    scanner.Passes gap.bytes p ⟨q, m⟩ ⟨10, m⟩ (lead q) := by
  have htable : ∀ r ∈ classes, isBlank r = true → startsSymbol r = false := forall_classes (by decide +kernel)
  have hone : ∀ q ∈ items, ∀ c, isBlank c = true → ∀ p,
      scanner.Passes [c] p ⟨q, m⟩ ⟨10, m⟩ (lead q) := by
    intro q hq c hc p
    have htarget : fromItem c = 10 := if_pos hc
    have hstart : startsSymbol c = false := by
      rw [startsSymbol_classOf]
      exact htable _ (classOf_mem (by decide) c) ((chars_classOf c).1 ▸ hc)
    exact htarget ▸ passes_item hq hstart (by rw [htarget]; decide) p
  obtain ⟨w, hne, hblank⟩ := gap
  cases w with
  | nil => exact absurd rfl hne
  | cons c w =>
    rw [List.all_cons, Bool.and_eq_true] at hblank
    have hloop : scanner.Passes w (p + 1) ⟨10, m⟩ ⟨10, m⟩ [] :=
      .of_forall rfl fun a ha p => hone 10 ten_mem_items a (List.all_eq_true.mp hblank.2 a ha) p
    simpa using (hone q hq c hblank.1 p).cons hloop

theorem passes_comment (hq : q ∈ items) (hw : 10 ∉ w) (p : Nat) :
    scanner.Passes (35 :: w ++ [10]) p ⟨q, m⟩ ⟨10, m⟩ (lead q) := by
  have hstart := passes_item (m := m) (c := 35) hq (by decide) (by decide) p
  have hloop : scanner.Passes w (p + 1) ⟨5, m⟩ ⟨5, m⟩ [] := by
    refine .of_forall rfl fun c hc p => ?_
    have htarget : target 5 c = 5 := if_neg fun h : c = 10 => hw (h ▸ hc)
    exact passes_quiet (by decide) (by decide) htarget (by decide) rfl
  have hend : scanner.Passes [10] (p + 1 + w.length) ⟨5, m⟩ ⟨10, m⟩ [] :=
    passes_quiet (by decide) (by decide) rfl (by decide) rfl
  simpa using hstart.cons (hloop.append hend)

/-- An item makes the call that was pending, and its own but for the one it leaves pending. -/
theorem reads_item (item : Item) (hq : q ∈ items) (h : text.drop p = item.bytes ++ rest) :
    ∃ t out, Reads text item.bytes p ⟨q, m⟩ t out ∧ t.cs ∈ items ∧
      out ++ lead t.cs = lead q ++ item.events := by
  cases item with
  | comment w hw =>
    exact ⟨⟨10, m⟩, lead q, .of_lead (passes_comment hq hw p), ten_mem_items, rfl⟩
  | blank gap =>
    exact ⟨⟨10, m⟩, lead q, .of_lead (passes_blankItem hq gap p), ten_mem_items, rfl⟩
  | statement first more gap =>
    simp only [Item.bytes] at h ⊢
    rw [List.append_assoc _ _ rest] at h
    obtain ⟨last, p', init, hread, hevents, hlast, hpos⟩ := reads_symbols (m := m) first more (.inr hq) h
    refine ⟨⟨11, some p'⟩, lead q ++ init ++ [.symbol last.raw], ?_, eleven_mem_items, ?_⟩
    · refine hread.append (hpos ▸ ?_)
      cases gap with
      | none =>
        have hend := passes_symbolEnd last p' (.inr rfl : isBlank 59 = true ∨ (59 : UInt8) = 59)
        exact ⟨_, hend, by simp [Event.map, bytesAt_sliceOf last hlast]⟩
      | some gap =>
        have hend : scanner.Passes [59] (p' + last.bytes.length + gap.bytes.length) ⟨2, some p'⟩
          ⟨11, some p'⟩ [] := passes_quiet (by decide) (by decide) rfl (by decide) rfl
        exact (reads_gap last gap hlast).append (.of_quiet hend)
    · rw [Item.events, ← hevents]
      simp [lead]
  | beginBlock first more gap =>
    simp only [Item.bytes] at h ⊢
    rw [List.append_assoc _ _ rest] at h
    obtain ⟨last, p', init, hread, hevents, hlast, hpos⟩ := reads_symbols (m := m) first more (.inr hq) h
    refine ⟨⟨13, some p'⟩, lead q ++ init ++ [.symbol last.raw], ?_, thirteen_mem_items, ?_⟩
    · have hend : scanner.Passes [123] (p' + last.bytes.length + gap.bytes.length) ⟨2, some p'⟩
        ⟨13, some p'⟩ [] := passes_quiet (by decide) (by decide) rfl (by decide) rfl
      exact hread.append (hpos ▸ (reads_gap last gap hlast).append (.of_quiet hend))
    · rw [Item.events, ← hevents]
      simp [lead]
  | endBlock =>
    exact ⟨⟨12, m⟩, lead q, .of_lead (passes_item (c := 125) hq (by decide) (by decide) p),
      twelve_mem_items, rfl⟩

/-! ### Documents -/

theorem reads_document (doc : List Item) (hq : q ∈ items) (h : text.drop p = doc.flatMap Item.bytes) :
    ∃ t out, Reads text (doc.flatMap Item.bytes) p ⟨q, m⟩ t out ∧ t.cs ∈ items ∧
      out ++ lead t.cs = lead q ++ doc.flatMap Item.events := by
  induction doc generalizing p q m with
  | nil =>
    have hq0 : q ≠ error := (Nat.lt_of_lt_of_le (by decide) hq.1).ne'
    exact ⟨⟨q, m⟩, [], .of_quiet (.nil (by simpa [scanner] using hq0)), hq, by simp⟩
  | cons item doc ih =>
    rw [List.flatMap_cons] at h
    obtain ⟨⟨q', m'⟩, out, hread, hq', hout⟩ := reads_item (m := m) item hq h
    obtain ⟨t, out', hread', ht, hout'⟩ := ih (m := m') hq' (drop_of_drop h)
    refine ⟨t, out ++ out', by simpa using hread.append hread', ht, ?_⟩
    rw [List.append_assoc, hout', ← List.append_assoc, hout, List.flatMap_cons, List.append_assoc]

/-- Parsing a document makes the calls that its items stand for, in order, and `config_done` at
the end. -/
theorem parse_document (doc : List Item) (h : 0 ∉ doc.flatMap Item.bytes) :
    (parse (doc.flatMap Item.bytes)).2.map (Event.map (bytesAt (doc.flatMap Item.bytes))) =
      doc.flatMap Item.events ++ [.configDone] := by
  obtain ⟨t, out, ⟨calls, hpass, rfl⟩, ht, hout⟩ :=
    reads_document (m := none) doc ten_mem_items (List.drop_zero (l := doc.flatMap Item.bytes))
  have ht0 : t.cs ≠ error := (Nat.lt_of_lt_of_le (by decide) ht.1).ne'
  have hexec := exec_of_passes hpass ht0
  rw [parse, cString_of_notMem h]
  change (exec _ 0 ⟨10, none⟩).2.map _ = _
  rw [hexec, eofActs_item ht, List.map_append, List.map_append, map_lead, ← List.append_assoc, hout]
  rfl

/-- A block with one statement: `a {b "\"";}`. -/
def blockExample : List Item :=
  let space : Blank := ⟨[32], by decide, by decide⟩
  let symbol (c : UInt8) (h : isRun isSymbolChar [c] = true) : Symbol := ⟨.none, [c], h, by simp⟩
  [.beginBlock (symbol 97 (by decide)) [] space,
    .statement (symbol 98 (by decide)) [(space, ⟨.double, [92, 34], by decide, by simp⟩)] none,
    .endBlock]

theorem parse_blockExample : 0 ∉ blockExample.flatMap Item.bytes ∧
    (parse (blockExample.flatMap Item.bytes)).2.map
        (Event.map (bytesAt (blockExample.flatMap Item.bytes))) =
      [.symbol [97], .startBlock, .symbol [98], .symbol [92, 34], .endStatement, .endBlock,
        .configDone] :=
  ⟨by decide, parse_document blockExample (by decide)⟩

end ConfigParser
end Latypus.Config
