import Latypus.Lib.Automaton
import Latypus.Http.ByteClasses
import Latypus.Config.Parser

/-! The grammar of configuration files and the automaton that the tables are. The automaton
accepts the language of the grammar in four states, one for each way in which the last token can
end, but `parse` returns true in the first of them only. -/

namespace Latypus.Config
open Lib Http Computability

/-! ### The grammar, in the words of config_parser.rl -/

def isAlnum (c : UInt8) : Bool := isDigit c || isAlpha c

/-- `~ ! @ $ % ^ & * ( ) - _ = + [ ] | : < > . , / ?` -/
def symbolSpecial : List Nat :=
  [126, 33, 64, 36, 37, 94, 38, 42, 40, 41, 45, 95, 61, 43, 91, 93, 124, 58, 60, 62, 46, 44, 47, 63]

def isSymbolChar (c : UInt8) : Bool := isAlnum c || symbolSpecial.contains c.toNat

def isBlank (c : UInt8) : Bool := c = 32 || c = 9 || c = 13 || c = 10

/-- The word of one given character. -/
def char (c : UInt8) : Language UInt8 := oneOf (· = c)

def escape : Language UInt8 := char 92 * oneOf fun _ => True

def notSquoteOrEscape : Language UInt8 := oneOf fun c => c ≠ 39 ∧ c ≠ 92

def notDquoteOrEscape : Language UInt8 := oneOf fun c => c ≠ 34 ∧ c ≠ 92

def squoteSymbol : Language UInt8 := char 39 * (notSquoteOrEscape + escape)∗ * char 39

def dquoteSymbol : Language UInt8 := char 34 * (notDquoteOrEscape + escape)∗ * char 34

def unquoteChar : Language UInt8 := oneOf (isSymbolChar ·) + escape

def unquoteSymbol : Language UInt8 := unquoteChar * unquoteChar∗

def symbol : Language UInt8 := squoteSymbol + dquoteSymbol + unquoteSymbol

def ws : Language UInt8 := oneOf (isBlank ·) * (oneOf (isBlank ·))∗

def comment : Language UInt8 := char 35 * (oneOf (· ≠ 10))∗ * char 10

def symbols : Language UInt8 := symbol * (ws * symbol)∗

def statement : Language UInt8 := symbols * ws∗ * char 59

def beginBlock : Language UInt8 := symbols * (ws * ws∗) * char 123

def endBlock : Language UInt8 := char 125

def config : Language UInt8 := (comment + beginBlock + endBlock + statement + ws)∗

namespace ConfigParser

/-- The automaton of the tables; nothing is read in the error state. -/
def dfa : DFA UInt8 Nat where
  step q c := if q = error then error else transTarg (trans q c)
  start := start
  accept := {q | 10 ≤ q ∧ q ≤ 13}

/-! ### The transitions, as the grammar has them -/

/-- The transitions out of the four states between two items. -/
def fromItem (c : UInt8) : Nat :=
  if isBlank c then 10 else if isSymbolChar c then 1 else if c = 34 then 3 else if c = 39 then 6
  else if c = 92 then 8 else if c = 35 then 5 else if c = 125 then 12 else 0

/-- The transitions out of an unquoted symbol. -/
def fromSymbol (c : UInt8) : Nat :=
  if isBlank c then 2 else if isSymbolChar c then 1 else if c = 59 then 11 else if c = 92 then 8
  else 0

/-- The transitions out of the white space behind a symbol. -/
def fromBlank (c : UInt8) : Nat :=
  if isBlank c then 2 else if isSymbolChar c then 1 else if c = 34 then 3 else if c = 39 then 6
  else if c = 59 then 11 else if c = 92 then 8 else if c = 123 then 13 else 0

/-- The transitions out of a quoted symbol that reading `k` ends; `q` is its state, and `q'`
that of an escape in it. -/
def fromQuoted (k : UInt8) (q q' : Nat) (c : UInt8) : Nat :=
  if c = k then 4 else if c = 92 then q' else q

/-- The transitions out of the state behind a closing quote. -/
def fromQuote (c : UInt8) : Nat := if isBlank c then 2 else if c = 59 then 11 else 0

def fromComment (c : UInt8) : Nat := if c = 10 then 10 else 5

def target (q : Nat) (c : UInt8) : Nat :=
  match q with
  | 0 => 0
  | 1 => fromSymbol c
  | 2 => fromBlank c
  | 3 => fromQuoted 34 3 9 c
  | 4 => fromQuote c
  | 5 => fromComment c
  | 6 => fromQuoted 39 6 7 c
  | 7 => 6
  | 8 => 1
  | 9 => 3
  | _ => fromItem c

/-- The keys of the table, each once. -/
def keys : List Nat := [
  0, 9, 10, 13, 32, 33, 34, 35, 36, 38, 39, 40, 58, 59, 60, 92, 95, 97, 122, 123, 124, 125, 126]

/-- The first byte of each class that the table does not divide. -/
def bounds : List Nat := [
  0, 1, 9, 10, 11, 13, 14, 32, 33, 34, 35, 36, 37, 38, 39, 40, 41, 58, 59, 60, 61, 92, 93, 95, 96, 97,
  98, 122, 123, 124, 125, 126, 127, 128]

def classes : Bytes := bounds.map UInt8.ofNat

/-- What is true of the first byte of each class is checked for the bounds. -/
theorem forall_classes {P : UInt8 → Prop} (h : ∀ n ∈ bounds, P (UInt8.ofNat n)) : ∀ r ∈ classes, P r :=
  List.forall_mem_map.mpr h

theorem sameClass_classOf : ∀ c, sameClass keys (classOf bounds c).toNat c.toNat = true :=
  forall_byte (by decide +kernel)

theorem trans_classOf (q : Nat) (c : UInt8) : trans q c = trans q (classOf bounds c) := by
  have hkeys : Table.transKeys ⊆ keys :=
    fun k => (by decide +kernel : ∀ k ∈ Table.transKeys, k ∈ keys) k
  obtain ⟨hsingle, hrange⟩ := search_congr (sameClass_classOf c) (by decide) hkeys
    (Table.keyOffsets.getD q 0) (Table.singleLengths.getD q 0) (2 * Table.rangeLengths.getD q 0)
  simp only [trans, hsingle, hrange]

theorem step_classOf (q : Nat) (c : UInt8) : dfa.step q c = dfa.step q (classOf bounds c) := by
  simp only [dfa, trans_classOf q c]

/-- The characters of the grammar, by the class. -/
theorem chars_classOf : ∀ c, isBlank c = isBlank (classOf bounds c) ∧
    isSymbolChar c = isSymbolChar (classOf bounds c) ∧
    [10, 34, 35, 39, 59, 92, 123, 125].all fun k =>
      c.toNat.beq k == (classOf bounds c).toNat.beq k :=
  forall_byte (by decide +kernel)

theorem eq_classOf (k c : UInt8) (hk : k.toNat ∈ [10, 34, 35, 39, 59, 92, 123, 125]) :
    (c = k) = (classOf bounds c = k) := by
  have h := List.all_eq_true.mp (chars_classOf c).2.2 k.toNat hk
  rw [beq_iff_eq, Bool.eq_iff_iff, Nat.beq_eq, Nat.beq_eq, UInt8.toNat_inj, UInt8.toNat_inj] at h
  exact propext h

theorem target_classOf (q : Nat) (c : UInt8) : target q c = target q (classOf bounds c) := by
  unfold target fromSymbol fromBlank fromQuoted fromQuote fromComment fromItem
  rw [(chars_classOf c).1, (chars_classOf c).2.1]
  simp only [eq_classOf 10 c (by decide), eq_classOf 34 c (by decide), eq_classOf 35 c (by decide),
    eq_classOf 39 c (by decide), eq_classOf 59 c (by decide), eq_classOf 92 c (by decide),
    eq_classOf 123 c (by decide), eq_classOf 125 c (by decide)]

theorem step_eq_target {q : Nat} (hq : q < 14) (c : UInt8) : dfa.step q c = target q c := by
  have htable : ∀ q < 14, ∀ r ∈ classes, dfa.step q r = target q r := by
    simp only [classes, List.forall_mem_map]
    decide +kernel
  rw [step_classOf, target_classOf]
  exact htable q hq _ (classOf_mem (by decide) c)

/-- Where the characters of a kind lead. -/
theorem target_eq_of_classes {q n : Nat} {ok : UInt8 → Bool} (hok : ∀ c, ok c = ok (classOf bounds c))
    (h : ∀ r ∈ classes, ok r = true → target q r = n) {c : UInt8} (hc : ok c = true) :
    target q c = n := by
  rw [target_classOf]
  exact h _ (classOf_mem (by decide) c) (hok c ▸ hc)

/-! ### What leads to each state is what the grammar says -/

/-- The symbols of a statement or a block that come before the one being read. -/
def led : Language UInt8 := config * (symbol * ws)∗

/-- The words that lead to a state, as the grammar has them. -/
def readTo : Nat → Language UInt8
  | 0 => ⊤
  | 1 => led * (unquoteChar * unquoteChar∗)
  | 2 => led * (symbol * ws)
  | 3 => led * (char 34 * (notDquoteOrEscape + escape)∗)
  | 4 => led * (squoteSymbol + dquoteSymbol)
  | 5 => config * (char 35 * (oneOf (· ≠ 10))∗)
  | 6 => led * (char 39 * (notSquoteOrEscape + escape)∗)
  | 7 => led * (char 39 * (notSquoteOrEscape + escape)∗ * char 92)
  | 8 => led * (unquoteChar∗ * char 92)
  | 9 => led * (char 34 * (notDquoteOrEscape + escape)∗ * char 92)
  | 10 | 11 | 12 | 13 => config
  | _ => ⊥

theorem config_le_led : config ≤ led := le_mul_kstar le_rfl

theorem led_mul_le : led * (symbol * ws) ≤ led := mul_mul_le_kstar le_rfl le_rfl

theorem blank_le_ws : oneOf (isBlank ·) ≤ ws := le_mul_kstar le_rfl

theorem symbolChar_le : oneOf (isSymbolChar ·) ≤ unquoteChar := le_self_add

/-- Another item behind a configuration. -/
theorem config_mul_le {l : Language UInt8}
    (h : l ≤ comment + beginBlock + endBlock + statement + ws) : config * l ≤ config :=
  (mul_le_mul_right h config).trans kstar_mul_le_kstar

/-- The symbols read so far, as the grammar counts them. -/
theorem led_mul_symbol : led * symbol ≤ config * symbols := by
  rw [led, mul_assoc]
  exact mul_le_mul_right (kstar_mul_swap symbol ws) config

theorem led_mul_statement : led * (symbol * (ws∗ * char 59)) ≤ config := by
  calc led * (symbol * (ws∗ * char 59)) = led * symbol * (ws∗ * char 59) := by rw [mul_assoc]
    _ ≤ config * symbols * (ws∗ * char 59) := mul_le_mul_left led_mul_symbol _
    _ = config * statement := by simp only [statement, mul_assoc]
    _ ≤ config := config_mul_le (by rw [add_assoc, add_comm _ (statement + ws), add_assoc]
                                    exact le_self_add)

theorem led_mul_beginBlock : led * (symbol * (ws * char 123)) ≤ config := by
  calc led * (symbol * (ws * char 123)) = led * symbol * (ws * char 123) := by rw [mul_assoc]
    _ ≤ config * symbols * (ws * ws∗ * char 123) :=
        mul_le_mul' led_mul_symbol (mul_le_mul_left (le_mul_kstar le_rfl) _)
    _ = config * beginBlock := by simp only [beginBlock, mul_assoc]
    _ ≤ config := config_mul_le (by rw [add_comm comment]; simp only [add_assoc]
                                    exact le_self_add)

theorem char_le {P : UInt8 → Prop} {c : UInt8} (h : P c) : char c ≤ oneOf P :=
  oneOf_mono fun _ hc => hc ▸ h

/-- The first character of a symbol. -/
theorem readTo_symbolStart {l : Language UInt8} {c : UInt8} (hl : l ≤ led)
    (hc : isSymbolChar c = true) : l * char c ≤ readTo 1 :=
  mul_le_mul' hl (le_mul_kstar ((char_le hc).trans symbolChar_le))

theorem readTo_quoteStart {l m : Language UInt8} {c : UInt8} (hl : l ≤ led) :
    l * char c ≤ led * (char c * m∗) :=
  mul_le_mul' hl (le_mul_kstar le_rfl)

theorem readTo_escapeStart {l : Language UInt8} (hl : l ≤ led) : l * char 92 ≤ readTo 8 :=
  mul_le_mul' hl (le_mul_of_one_le one_le_kstar le_rfl)

/-- A symbol that white space or a semicolon follows. -/
theorem readTo_symbolEnd {l m : Language UInt8} {c : UInt8} (hl : l ≤ led * m) (hm : m ≤ symbol) :
    (isBlank c = true → l * char c ≤ readTo 2) ∧ l * char 59 ≤ config := by
  constructor
  · intro hc
    calc l * char c ≤ led * symbol * ws :=
          mul_le_mul' (hl.trans (mul_le_mul_right hm led)) ((char_le hc).trans blank_le_ws)
      _ = readTo 2 := mul_assoc _ _ _
  · calc l * char 59 ≤ led * symbol * (ws∗ * char 59) :=
          mul_le_mul' (hl.trans (mul_le_mul_right hm led)) (le_mul_of_one_le one_le_kstar le_rfl)
      _ = led * (symbol * (ws∗ * char 59)) := mul_assoc _ _ _
      _ ≤ config := led_mul_statement

theorem readTo_fromItem (c : UInt8) : config * char c ≤ readTo (fromItem c) := by
  unfold fromItem
  split_ifs with h1 h2 h3 h4 h5 h6 h7
  · exact config_mul_le (((char_le h1).trans blank_le_ws).trans le_add_self)
  · exact readTo_symbolStart config_le_led h2
  · exact h3 ▸ readTo_quoteStart config_le_led
  · exact h4 ▸ readTo_quoteStart config_le_led
  · exact h5 ▸ readTo_escapeStart config_le_led
  · exact h6 ▸ mul_le_mul_right (le_mul_kstar le_rfl) config
  · refine h7 ▸ config_mul_le (l := char 125) ?_
    rw [add_assoc, add_assoc, add_comm, add_assoc]
    exact le_self_add
  · exact le_top

theorem readTo_fromSymbol (c : UInt8) : readTo 1 * char c ≤ readTo (fromSymbol c) := by
  have hend := readTo_symbolEnd (c := c) (le_refl (readTo 1)) (le_add_self : unquoteSymbol ≤ symbol)
  unfold fromSymbol
  split_ifs with h1 h2 h3 h4
  · exact hend.1 h1
  · rw [readTo, mul_assoc]
    exact mul_le_mul_right (mul_mul_le_kstar le_rfl ((char_le h2).trans symbolChar_le)) led
  · exact h3 ▸ hend.2
  · rw [h4, readTo, mul_assoc]
    exact mul_le_mul_right (mul_le_mul_left mul_kstar_le_kstar _) led
  · exact le_top

theorem readTo_fromBlank (c : UInt8) : readTo 2 * char c ≤ readTo (fromBlank c) := by
  unfold fromBlank
  split_ifs with h1 h2 h3 h4 h5 h6 h7
  · rw [readTo, mul_assoc, mul_assoc]
    exact mul_le_mul_right (mul_le_mul_right (mul_mul_le_kstar le_rfl (char_le h1)) symbol) led
  · exact readTo_symbolStart led_mul_le h2
  · exact h3 ▸ readTo_quoteStart led_mul_le
  · exact h4 ▸ readTo_quoteStart led_mul_le
  · rw [h5, readTo, mul_assoc, mul_assoc]
    exact (mul_le_mul_right (mul_le_mul_right (mul_le_mul_left le_kstar _) symbol) led).trans
      led_mul_statement
  · exact h6 ▸ readTo_escapeStart led_mul_le
  · rw [h7, readTo, mul_assoc, mul_assoc]
    exact led_mul_beginBlock
  · exact le_top

/-- A character or the second half of an escape inside quotes. -/
theorem quoted_mul_le {k c : UInt8} {l m : Language UInt8} (hc : char c ≤ m) :
    led * (char k * (m + l)∗) * char c ≤ led * (char k * (m + l)∗) := by
  rw [mul_assoc]
  exact mul_le_mul_right (mul_mul_le_kstar le_rfl (hc.trans le_self_add)) led

theorem escaped_mul_le {k : UInt8} (c : UInt8) {m : Language UInt8} :
    led * (char k * (m + escape)∗ * char 92) * char c ≤ led * (char k * (m + escape)∗) := by
  have hescape : char 92 * char c ≤ m + escape :=
    (mul_le_mul_right (char_le trivial) _).trans le_add_self
  rw [mul_assoc, mul_assoc (char k * (m + escape)∗)]
  exact mul_le_mul_right (mul_mul_le_kstar le_rfl hescape) led

/-- A quoted symbol and the escapes in it. -/
theorem readTo_fromQuoted {k c : UInt8} {m : Language UInt8} {q q' : Nat}
    (hm : ∀ c, c ≠ k → c ≠ 92 → char c ≤ m) (hquoted : char k * (m + escape)∗ * char k ≤
      squoteSymbol + dquoteSymbol) (hq : readTo q = led * (char k * (m + escape)∗))
    (hq' : readTo q' = led * (char k * (m + escape)∗ * char 92)) :
    readTo q * char c ≤ readTo (fromQuoted k q q' c) := by
  rw [hq, fromQuoted]
  split_ifs with hk hb
  · rw [hk, mul_assoc]
    exact mul_le_mul_right hquoted led
  · rw [hb, hq', mul_assoc]
  · rw [hq]
    exact quoted_mul_le (hm c hk hb)

/-- Each transition keeps to the languages of the states. -/
theorem readTo_target (q : Nat) (c : UInt8) : readTo q * char c ≤ readTo (target q c) := by
  match q with
  | 0 => exact le_top
  | 1 => exact readTo_fromSymbol c
  | 2 => exact readTo_fromBlank c
  | 3 => exact readTo_fromQuoted (fun c hk hb => char_le ⟨hk, hb⟩) le_add_self rfl rfl
  | 4 =>
    have hend := readTo_symbolEnd (c := c) (le_refl (readTo 4))
      (le_self_add : squoteSymbol + dquoteSymbol ≤ symbol)
    simp only [target, fromQuote]
    split_ifs with h1 h2
    · exact hend.1 h1
    · exact h2 ▸ hend.2
    · exact le_top
  | 5 =>
    simp only [target, fromComment]
    split_ifs with hc
    · rw [hc, readTo, mul_assoc]
      refine config_mul_le ?_
      simp only [add_assoc]
      exact le_self_add
    · rw [readTo, mul_assoc]
      exact mul_le_mul_right (mul_mul_le_kstar le_rfl (char_le hc)) config
  | 6 => exact readTo_fromQuoted (fun c hk hb => char_le ⟨hk, hb⟩) le_self_add rfl rfl
  | 7 => exact escaped_mul_le c
  | 8 =>
    have hescape : char 92 * char c ≤ unquoteChar :=
      (mul_le_mul_right (char_le trivial) _).trans le_add_self
    simp only [target, readTo]
    rw [mul_assoc, mul_assoc]
    refine mul_le_mul_right ?_ led
    calc unquoteChar∗ * (char 92 * char c) ≤ unquoteChar∗ * unquoteChar :=
          mul_le_mul_right hescape _
      _ = unquoteChar * unquoteChar∗ := Language.mul_self_kstar_comm _
  | 9 => exact escaped_mul_le c
  | 10 | 11 | 12 | 13 => exact readTo_fromItem c
  | q + 14 =>
    rintro w hw
    obtain ⟨u, hu, -⟩ := Language.mem_mul.mp hw
    exact absurd hu (Set.notMem_empty u)

theorem target_lt (q : Nat) (c : UInt8) : target q c < 14 := by
  unfold target fromSymbol fromBlank fromQuoted fromQuote fromComment fromItem
  split <;> (try split_ifs) <;> omega

theorem eval_lt (w : Bytes) : dfa.eval w < 14 := by
  induction w using List.reverseRecOn with
  | nil => decide
  | append_singleton w c ih =>
    rw [DFA.eval_append_singleton, step_eq_target ih]
    exact target_lt _ c

theorem readTo_mul_le (q : Nat) (c : UInt8) : readTo q * char c ≤ readTo (dfa.step q c) := by
  by_cases hq : q < 14
  · rw [step_eq_target hq]
    exact readTo_target q c
  · obtain ⟨q, rfl⟩ := Nat.exists_eq_add_of_le (not_lt.mp hq)
    rw [Nat.add_comm]
    rintro w hw
    obtain ⟨u, hu, -⟩ := Language.mem_mul.mp hw
    exact absurd hu (Set.notMem_empty u)

/-! ### Every word of the grammar leads from an item to an item -/

/-- The states between two items. -/
def items : Set Nat := {q | 10 ≤ q ∧ q ≤ 13}

/-- The states in which a symbol may begin. -/
def symbolStarts : Set Nat := {q | q = 2 ∨ q ∈ items}

/-- The states behind a symbol. -/
def symbolEnds : Set Nat := {1, 4}

theorem step_item {q : Nat} (hq : q ∈ items) (c : UInt8) : dfa.step q c = fromItem c := by
  rw [step_eq_target (Nat.lt_succ_of_le hq.2)]
  obtain ⟨h, h'⟩ := hq
  obtain rfl | rfl | rfl | rfl : q = 10 ∨ q = 11 ∨ q = 12 ∨ q = 13 := by omega
  all_goals rfl

/-- How a symbol begins, the same in both places. -/
theorem step_symbolStart {q : Nat} (hq : q ∈ symbolStarts) (c : UInt8) :
    (isSymbolChar c = true → dfa.step q c = 1) ∧ (c = 34 → dfa.step q c = 3) ∧
      (c = 39 → dfa.step q c = 6) ∧ (c = 92 → dfa.step q c = 8) := by
  have hstep : dfa.step q c = target 2 c ∨ dfa.step q c = target 10 c :=
    hq.imp (fun h => by rw [h, step_eq_target (by omega)]) fun h => step_item h c
  refine ⟨fun hc => ?_, ?_, ?_, ?_⟩
  · have h2 : target 2 c = 1 :=
      target_eq_of_classes (fun c => (chars_classOf c).2.1) (forall_classes (by decide +kernel)) hc
    have h10 : target 10 c = 1 :=
      target_eq_of_classes (fun c => (chars_classOf c).2.1) (forall_classes (by decide +kernel)) hc
    rcases hstep with h | h
    · rw [h, h2]
    · rw [h, h10]
  all_goals
    rintro rfl
    rcases hstep with h | h <;> rw [h] <;> rfl

theorem escape_le_leads {A B C : Set Nat} (hA : ∀ q ∈ A, dfa.step q 92 ∈ B)
    (hB : ∀ q ∈ B, ∀ c, dfa.step q c ∈ C) : escape ≤ leads dfa A C :=
  mul_le_leads (oneOf_le_leads fun q hq _ hc => hc ▸ hA q hq)
    (oneOf_le_leads fun q hq c _ => hB q hq c)

/-- A quoted symbol, with its state and that of an escape in it. -/
theorem quoted_le_leads {k : UInt8} {q q' : Nat} (hq : ∀ c, dfa.step q c = fromQuoted k q q' c)
    (hq' : ∀ c, dfa.step q' c = q) (hk : k ≠ 92) (hstart : ∀ s ∈ symbolStarts, dfa.step s k = q) :
    char k * (oneOf (fun c => c ≠ k ∧ c ≠ 92) + escape)∗ * char k ≤
      leads dfa symbolStarts symbolEnds := by
  have hloop : oneOf (fun c => c ≠ k ∧ c ≠ 92) + escape ≤ leads dfa {q} {q} := by
    refine add_le (oneOf_le_leads ?_) (escape_le_leads (B := {q'}) ?_ ?_)
    · rintro s rfl c ⟨hc, hb⟩
      rw [hq, fromQuoted, if_neg hc, if_neg hb]
      rfl
    · rintro s rfl
      rw [hq, fromQuoted, if_neg hk.symm, if_pos rfl]
      rfl
    · rintro s rfl c
      exact hq' c
  refine mul_le_leads (mul_le_leads (B := {q}) (oneOf_le_leads ?_) (kstar_le_leads hloop))
    (oneOf_le_leads ?_)
  · rintro s hs c rfl
    exact hstart s hs
  · rintro s rfl c rfl
    rw [hq, fromQuoted, if_pos rfl]
    exact .inr rfl

theorem unquoteChar_le_leads {A : Set Nat} (hA : ∀ q ∈ A, ∀ c,
    (isSymbolChar c = true → dfa.step q c = 1) ∧ (c = 92 → dfa.step q c = 8)) :
    unquoteChar ≤ leads dfa A {1} := by
  refine add_le (oneOf_le_leads fun q hq c hc => (hA q hq c).1 hc) (escape_le_leads (B := {8}) ?_ ?_)
  · exact fun q hq => (hA q hq 92).2 rfl
  · rintro q rfl c
    exact step_eq_target (by omega) c

theorem unquoteSymbol_le_leads : unquoteSymbol ≤ leads dfa symbolStarts symbolEnds := by
  refine (mul_le_leads (B := {1}) ?_ (kstar_le_leads ?_)).trans (leads_mono (by simp [symbolEnds]))
  · exact unquoteChar_le_leads fun q hq c =>
      ⟨(step_symbolStart hq c).1, (step_symbolStart hq c).2.2.2⟩
  · refine unquoteChar_le_leads ?_
    rintro q rfl c
    rw [step_eq_target (by omega)]
    constructor
    · exact fun hc => target_eq_of_classes (fun c => (chars_classOf c).2.1) (forall_classes (by decide +kernel)) hc
    · rintro rfl
      rfl

theorem symbol_le_leads : symbol ≤ leads dfa symbolStarts symbolEnds := by
  refine add_le (add_le ?_ ?_) unquoteSymbol_le_leads
  · exact quoted_le_leads (q := 6) (fun c => step_eq_target (by omega) c)
      (fun c => step_eq_target (by omega) c) (by decide) fun s hs => (step_symbolStart hs 39).2.2.1 rfl
  · exact quoted_le_leads (q := 3) (fun c => step_eq_target (by omega) c)
      (fun c => step_eq_target (by omega) c) (by decide) fun s hs => (step_symbolStart hs 34).2.1 rfl

/-- White space and a semicolon behind a symbol. -/
theorem step_symbolEnd {q : Nat} (hq : q = 2 ∨ q ∈ symbolEnds) (c : UInt8) :
    (isBlank c = true → dfa.step q c = 2) ∧ (c = 59 → dfa.step q c = 11) := by
  rcases hq with rfl | rfl | rfl <;> rw [step_eq_target (by omega)] <;>
    refine ⟨fun hc => ?_, ?_⟩
  all_goals first
    | exact if_pos hc
    | rintro rfl
      rfl

theorem ws_le_leads {A : Set Nat} (hA : ∀ q ∈ A, q = 2 ∨ q ∈ symbolEnds) : ws ≤ leads dfa A {2} :=
  mul_le_leads (oneOf_le_leads fun q hq c hc => (step_symbolEnd (hA q hq) c).1 hc)
    (kstar_le_leads (oneOf_le_leads fun _ hq c hc => (step_symbolEnd (.inl hq) c).1 hc))

theorem symbols_le_leads : symbols ≤ leads dfa items symbolEnds := by
  have hfirst : symbol ≤ leads dfa items symbolEnds := fun w hw q hq => symbol_le_leads hw q (.inr hq)
  have hnext : symbol ≤ leads dfa {2} symbolEnds := fun w hw q hq => symbol_le_leads hw q (.inl hq)
  exact mul_le_leads hfirst (kstar_le_leads (mul_le_leads (ws_le_leads fun _ => .inr) hnext))

theorem comment_le_leads : comment ≤ leads dfa items items := by
  refine mul_le_leads (mul_le_leads (B := {5}) (oneOf_le_leads ?_)
    (kstar_le_leads (oneOf_le_leads ?_))) (oneOf_le_leads ?_)
  · rintro q hq c rfl
    exact step_item hq 35
  · rintro q rfl c hc
    rw [step_eq_target (by omega)]
    exact if_neg hc
  · rintro q rfl c rfl
    rw [step_eq_target (by omega)]
    exact ⟨le_rfl, by decide⟩

theorem beginBlock_le_leads : beginBlock ≤ leads dfa items items := by
  refine mul_le_leads (mul_le_leads symbols_le_leads (mul_le_leads (ws_le_leads fun _ => .inr)
    (kstar_le_leads (ws_le_leads fun _ => .inl)))) (oneOf_le_leads ?_)
  rintro q rfl c rfl
  rw [step_eq_target (by omega)]
  exact ⟨by decide, le_rfl⟩

theorem statement_le_leads : statement ≤ leads dfa items items := by
  refine mul_le_leads (B := {q | q = 2 ∨ q ∈ symbolEnds}) (mul_le_leads
    (B := {q | q = 2 ∨ q ∈ symbolEnds}) ?_ ?_) (oneOf_le_leads ?_)
  · exact symbols_le_leads.trans (leads_mono fun _ => .inr)
  · exact kstar_le_leads ((ws_le_leads fun _ h => h).trans (leads_mono fun _ => .inl))
  · intro q hq c hc
    rw [(step_symbolEnd hq c).2 hc]
    exact ⟨by decide, by decide⟩

theorem config_le_leads : config ≤ leads dfa items items := by
  have hblank : oneOf (isBlank ·) ≤ leads dfa items items := oneOf_le_leads fun q hq c hc => by
    rw [step_item hq, fromItem, if_pos hc]
    exact ⟨le_rfl, by decide⟩
  refine kstar_le_leads (add_le (add_le (add_le (add_le comment_le_leads beginBlock_le_leads) ?_)
    statement_le_leads) (mul_le_leads hblank (kstar_le_leads hblank)))
  refine oneOf_le_leads ?_
  rintro q hq c rfl
  rw [step_item hq]
  exact ⟨by decide, by decide⟩

/-- The automaton accepts the language of the grammar. -/
theorem accepts_eq_config : dfa.accepts = config := by
  ext w
  constructor
  · intro hw
    have hmem := mem_of_eval (L := readTo) (Language.nil_mem_kstar _) readTo_mul_le w
    obtain ⟨h, h'⟩ : 10 ≤ dfa.eval w ∧ dfa.eval w ≤ 13 := hw
    generalize dfa.eval w = q at h h' hmem
    obtain rfl | rfl | rfl | rfl : q = 10 ∨ q = 11 ∨ q = 12 ∨ q = 13 := by omega
    all_goals exact hmem
  · exact fun hw => config_le_leads hw start ⟨le_rfl, by decide⟩

/-! ### What `parse` returns -/

theorem actionLoop_cs (p : Nat) (s : ConfigParser) (as : List Nat) :
    (actionLoop p s as).1.cs = s.cs := by
  induction as generalizing s with
  | nil => rfl
  | cons a as ih =>
    have haction : (action p s a).1.cs = s.cs := by
      unfold action
      split <;> rfl
    exact (ih _).trans haction

theorem evalFrom_error (w : Bytes) : dfa.evalFrom error w = error := by
  induction w with
  | nil => rfl
  | cons c w ih => exact ih

theorem exec_cs (w : Bytes) (p : Nat) (s : ConfigParser) (hs : s.cs ≠ error) :
    (exec w p s).1.cs = dfa.evalFrom s.cs w := by
  induction w generalizing p s with
  | nil => rfl
  | cons c w ih =>
    have hcs := actionLoop_cs p { s with cs := transTarg (trans s.cs c) } (transActs (trans s.cs c))
    have hstep : dfa.step s.cs c = transTarg (trans s.cs c) := if_neg hs
    rw [DFA.evalFrom_cons, hstep]
    simp only [exec]
    split_ifs with herr
    · have htarg : transTarg (trans s.cs c) = error := hcs.symm.trans herr
      rw [herr, htarg, evalFrom_error]
    · rw [ih _ _ herr, hcs]

theorem parse_iff_eval {text : Bytes} (h : 0 ∉ text) :
    (parse text).1 = true ↔ dfa.eval text = firstFinal := by
  have hcs : (exec text 0 ⟨start, none⟩).1.cs = dfa.eval text :=
    exec_cs text 0 ⟨start, none⟩ (by decide)
  simp only [parse, cString_of_notMem h, hcs, Bool.and_eq_true, decide_eq_true_eq,
    and_iff_right_iff_imp]
  intro heval
  rw [heval]
  decide

/-- The state between two items tells how the last one ended. -/
theorem eval_eq_firstFinal_iff {text : Bytes} (h : dfa.eval text ∈ dfa.accept) :
    dfa.eval text = firstFinal ↔ ∀ c ∈ text.getLast?, c ∉ [59, 123, 125] := by
  have htable : ∀ q < 14, ∀ r ∈ classes, 10 ≤ target q r →
      (target q r == firstFinal) = !([59, 123, 125].contains r) := by
    simp only [classes, List.forall_mem_map]
    decide +kernel
  induction text using List.reverseRecOn with
  | nil => exact iff_of_true rfl (by simp)
  | append_singleton w c _ =>
    rw [DFA.eval_append_singleton, step_eq_target (eval_lt w), target_classOf] at h ⊢
    have hlast := htable _ (eval_lt w) _ (classOf_mem (by decide) c) h.1
    rw [List.getLast?_concat, ← beq_iff_eq, hlast]
    simp [← eq_classOf 59 c (by decide), ← eq_classOf 123 c (by decide),
      ← eq_classOf 125 c (by decide)]

/-- `parse` agrees with the grammar unless a text of the grammar ends in a semicolon or a
brace. -/
theorem parse_agrees_iff {text : Bytes} (h : 0 ∉ text) :
    ((parse text).1 = true ↔ text ∈ config) ↔
      (text ∈ config → ∀ c ∈ text.getLast?, c ∉ [59, 123, 125]) := by
  rw [parse_iff_eval h, ← accepts_eq_config]
  constructor
  · exact fun hiff htext => (eval_eq_firstFinal_iff htext).mp (hiff.mpr htext)
  · intro hlast
    constructor
    · intro heval
      rw [DFA.mem_accepts, heval]
      exact ⟨le_rfl, by decide⟩
    · exact fun htext => (eval_eq_firstFinal_iff htext).mpr (hlast htext)

/-- The statement `a;` and a line feed. -/
theorem parse_agrees_line : (parse [97, 59, 10]).1 = true ∧
    ((parse [97, 59, 10]).1 = true ↔ [97, 59, 10] ∈ config) :=
  ⟨by decide, (parse_agrees_iff (by decide)).mpr fun _ => by simp⟩

/-- The statement `a;` alone is in the grammar, and `parse` returns false on it. -/
theorem parse_rejects_statement : [97, 59] ∈ config ∧ (parse [97, 59]).1 = false := by
  refine ⟨?_, by decide⟩
  rw [← accepts_eq_config]
  exact ⟨by decide, by decide⟩

end ConfigParser
end Latypus.Config
