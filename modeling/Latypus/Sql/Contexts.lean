import Latypus.Sql.Tokens

/-! What is left to read at each place of a statement, and what the fixed texts between its tokens
do there. -/

namespace Latypus.Sql
open Http (Bytes isAlpha isDigit)
open Lib Lib.Pattern

namespace Contexts
open Grammar

def endTail : List Pat :=
  [out .tableEnd, out .statementEnd, star ws, star (cat [byte 59, star ws, Statement, star ws]), opt (byte 59),
    out .done]

def constraintTail : List Pat :=
  star (cat [star ws, byte 44, star ws, Grammar.TableConstraint]) :: star ws :: byte 41 :: endTail

def elementTail : List Pat := star (cat [star ws, byte 44, star ws, TableElement]) :: constraintTail

def columnTail : List Pat := star (seq (plus ws) TableColumnConstraints) :: elementTail

def listTail : List Pat := star ws :: byte 40 :: star ws :: TableElement :: elementTail

/-- Before the name of the table, with or without that of its schema, and behind each of the two. -/
def tableNext : List Pat := out .tableName :: listTail

def schemaNext : List Pat := out .tableSchemaName :: byte 46 :: enter .tokenStart Identifier :: tableNext

def tableStart : List Pat :=
  star ws :: opt (seq TableSchemaName (byte 46)) :: enter .tokenStart Identifier :: tableNext

def firstColumn : List (List Pat) := [star ws :: TableElement :: elementTail]

/-- Behind a comma: a column or a constraint. -/
def elementStart : List (List Pat) :=
  [star ws :: TableElement :: elementTail, star ws :: Grammar.TableConstraint :: constraintTail]

/-- Behind the parenthesis of a size. -/
def columnEnd : List Pat := star ws :: columnTail

def closing : List Pat := star ws :: byte 41 :: columnEnd

def decimalsNext : List Pat := out .tableColumnTypeDecimals :: closing

def decimalsStart : List Pat := star ws :: enter .tokenStart Digits :: decimalsNext

def sizeNext : List Pat :=
  out .tableColumnTypeSize :: opt (cat [star ws, byte 44, star ws, TableColumnDataTypeQualifierDecimals]) :: closing

def sizeStart : List Pat := star ws :: enter .tokenStart Digits :: sizeNext

def typeNext : List Pat :=
  out .tableColumnTypeName ::
    opt (cat [star ws, byte 40, star ws, TableColumnDataTypeQualifier, star ws, byte 41, star ws]) :: columnTail

def typeStart : List Pat := star ws :: enter .tokenStart Identifier :: typeNext

def columnNext : List Pat := out .tableColumnName :: ws :: typeStart

/-- Behind a blank in a column: a constraint of the column, or the end of the column. -/
def columnGap : List (List Pat) :=
  [star ws :: TableColumnConstraints :: columnTail, star ws :: byte 44 :: star ws :: TableElement :: elementTail,
    star ws :: byte 44 :: star ws :: Grammar.TableConstraint :: constraintTail, star ws :: byte 41 :: endTail]

/-- Before and behind the value of a default. -/
def defaultNext : List Pat := out .tableColumnDefaultValue :: columnTail

def defaultStart : List (List Pat) := [star ws :: enter .tokenStart (alt Value (keyword NULL)) :: defaultNext]

/-- Names of columns in parentheses, and what is left behind one of them. -/
def namesNext (a : Action) (k : List Pat) : List Pat :=
  out a :: star (cat [star ws, byte 44, star ws, token a Identifier]) :: star ws :: byte 41 :: k

def names (a : Action) (k : List Pat) : List Pat := star ws :: enter .tokenStart Identifier :: namesNext a k

def referencesNext : List Pat :=
  out .tableConstraintReferencesTableName :: star ws :: byte 40 ::
    names .tableConstraintReferencesColumnName constraintTail

def referencesSchemaNext : List Pat :=
  out .tableConstraintReferencesSchemaName :: byte 46 :: enter .tokenStart Identifier :: referencesNext

def referencesStart : List Pat :=
  star ws :: opt (seq TableConstraintReferencesSchemaName (byte 46)) :: enter .tokenStart Identifier :: referencesNext

def references : List Pat :=
  star ws :: ((letters REFERENCES).map sym ++ ws :: referencesStart)

def constraintStart : List (List Pat) := [star ws :: Grammar.TableConstraint :: constraintTail]

def constraintTypeStart : List Pat := star ws :: TableConstraints :: constraintTail

def constraintNameNext : List Pat := out .tableConstraintName :: ws :: constraintTypeStart

def constraintName : List Pat := star ws :: enter .tokenStart Identifier :: constraintNameNext

open Reader

theorem walk_schema :
    walk [schemaNext, tableNext] [46] = ([[.tableSchemaName]], [enter .tokenStart Identifier :: tableNext]) := by
  rfl

theorem walk_table : ∀ ks ∈ [[schemaNext, tableNext], [tableNext]],
    walk ks [32, 40] = ([[.tableName], []], firstColumn) :=
  List.forall_mem_cons.mpr ⟨rfl, List.forall_mem_singleton.mpr rfl⟩

theorem walk_column : walk [columnNext] [32] = ([[.tableColumnName]], [typeStart]) := by
  rfl

theorem walk_type : walk [typeNext] [40] = ([[.tableColumnTypeName]], [sizeStart]) := by
  rfl

theorem walk_size : walk [sizeNext] [44] = ([[.tableColumnTypeSize]], [decimalsStart]) ∧
    walk [sizeNext] [41] = ([[.tableColumnTypeSize]], [columnEnd]) := ⟨rfl, rfl⟩

theorem walk_decimals : walk [decimalsNext] [41] = ([[.tableColumnTypeDecimals]], [columnEnd]) := by
  rfl

/-- A column may end behind its type, behind a size and behind a constraint: the action there, and
what is left behind a blank. -/
def columnEnds : List (List Pat × List Action × List (List Pat)) :=
  [(typeNext, [.tableColumnTypeName], (star ws :: byte 40 :: sizeStart) :: columnGap),
    (columnEnd, [], columnEnd :: columnGap),
    (out .tableColumnConstraintNull :: columnTail, [.tableColumnConstraintNull], columnGap),
    (out .tableColumnConstraintNotNull :: columnTail, [.tableColumnConstraintNotNull], columnGap),
    (defaultNext, [.tableColumnDefaultValue], columnGap),
    (out .tableColumnConstraintPrimaryKey :: columnTail, [.tableColumnConstraintPrimaryKey], columnGap),
    (out .tableColumnConstraintUnique :: columnTail, [.tableColumnConstraintUnique], columnGap)]

set_option synthInstance.maxSize 256 in
theorem walk_columnEnds : ∀ e ∈ columnEnds, walk [e.1] [32] = ([e.2.1], e.2.2) ∧
    walk [e.1] [44] = ([e.2.1], elementStart) ∧ walk [e.1] [41] = ([e.2.1], [endTail]) := by
  decide +kernel

/-- The action of a constraint of a column. -/
def constraintAction : ColumnConstraint → Action
  | .null => .tableColumnConstraintNull
  | .notNull => .tableColumnConstraintNotNull
  | .default _ => .tableColumnDefaultValue
  | .primaryKey => .tableColumnConstraintPrimaryKey
  | .unique => .tableColumnConstraintUnique

/-- The constraints of a column but the default, and the keyword of that. -/
theorem walk_columnGaps : ∀ e ∈ columnEnds,
    (∀ constraint ∈ [ColumnConstraint.null, .notNull, .primaryKey, .unique],
      walk e.2.2 constraint.toString =
        (List.replicate constraint.toString.length [], [out (constraintAction constraint) :: columnTail])) ∧
    walk e.2.2 (DEFAULT ++ [32]) = (List.replicate 8 [], defaultStart) := by
  decide +kernel

theorem walk_default : walk defaultStart NULL = ([.tokenStart] :: List.replicate 3 [], [defaultNext]) ∧
    walk defaultStart [39] = ([[.tokenStart]], [star (sym (.notByte 39)) :: byte 39 :: defaultNext]) :=
  ⟨rfl, rfl⟩

theorem walk_comma : walk elementStart [32] = ([[]], elementStart) := by
  rfl

/-- The keywords of a constraint of the table, with the parenthesis behind them. -/
def typeText : TableConstraintType → Bytes
  | .primaryKey => PRIMARY ++ [32] ++ KEY ++ [32, 40]
  | .foreignKey => FOREIGN ++ [32] ++ KEY ++ [32, 40]
  | .unique => UNIQUE ++ [32, 40]

def typeAction : TableConstraintType → Action
  | .primaryKey => .tableConstraintPrimaryKey
  | .foreignKey => .tableConstraintForeignKey
  | .unique => .tableConstraintUnique

/-- What is left behind the columns of a constraint. -/
def typeTail : TableConstraintType → List Pat
  | .foreignKey => references
  | .primaryKey | .unique => constraintTail

/-- The actions on the first byte of a constraint, where a column could stand too, where only a
constraint can, and behind the name of one. -/
def constraintStarts : List (List (List Pat) × List Action) :=
  [(elementStart, [.tableColumnBegin, .tokenStart, .tableConstraintBegin]),
    (constraintStart, [.tableConstraintBegin]), ([constraintTypeStart], [])]

theorem walk_constraintStarts : ∀ e ∈ constraintStarts,
    ∀ type ∈ [TableConstraintType.primaryKey, .foreignKey, .unique],
      walk e.1 (typeText type) = ((e.2 ++ [typeAction type]) :: List.replicate ((typeText type).length - 1) [],
        [names .tableConstraintColumnName (typeTail type)]) := by
  decide +kernel

theorem walk_constraint : walk elementStart (CONSTRAINT ++ [32]) =
      ([.tableColumnBegin, .tokenStart, .tableConstraintBegin] :: List.replicate 10 [], [constraintName]) ∧
    walk constraintStart (CONSTRAINT ++ [32]) = ([.tableConstraintBegin] :: List.replicate 10 [], [constraintName]) :=
  ⟨rfl, rfl⟩

theorem walk_constraintName : walk [constraintNameNext] [32] = ([[.tableConstraintName]], [constraintTypeStart]) := by
  rfl

/-- The lists of names in a constraint. -/
def nameLists : List (Action × List Pat) :=
  [(.tableConstraintColumnName, constraintTail), (.tableConstraintColumnName, references),
    (.tableConstraintReferencesColumnName, constraintTail)]

theorem walk_names : ∀ l ∈ nameLists, walk [namesNext l.1 l.2] [44, 32] = ([[l.1], []], [names l.1 l.2]) ∧
    walk [namesNext l.1 l.2] [41] = ([[l.1]], [l.2]) := by
  simp only [nameLists, List.forall_mem_cons, List.not_mem_nil, false_imp_iff, implies_true, and_true]
  exact ⟨⟨rfl, rfl⟩, ⟨rfl, rfl⟩, rfl, rfl⟩

theorem walk_references : walk [references] ([32] ++ REFERENCES ++ [32]) =
    (List.replicate 12 [], [referencesStart]) := by
  rfl

theorem walk_referencesSchema : walk [referencesSchemaNext, referencesNext] [46] =
    ([[.tableConstraintReferencesSchemaName]], [enter .tokenStart Identifier :: referencesNext]) := by
  rfl

theorem walk_referencesTable : ∀ ks ∈ [[referencesSchemaNext, referencesNext], [referencesNext]],
    walk ks [40] = ([[.tableConstraintReferencesTableName]], [names .tableConstraintReferencesColumnName constraintTail]) :=
  List.forall_mem_cons.mpr ⟨rfl, List.forall_mem_singleton.mpr rfl⟩

theorem walk_constraintTail : walk [constraintTail] [44, 32] = ([[], []], constraintStart) ∧
    walk [constraintTail] [41] = ([[]], [endTail]) := ⟨rfl, rfl⟩

section Names
variable {ts ks : List (List Pat)} {k : List Pat} {name t : Bytes} {c : UInt8} {d d' : TableDefinition}

theorem deriv_identifier (hc : isAlpha c) :
    Pattern.deriv ByteClass.has reserved c Identifier = [([], [avoid (star (sym .word)) [c]])] := by
  have halpha : ByteClass.has .alpha c = true := hc
  have hquote : ByteClass.has (.byte 96) c = false := by
    refine beq_eq_false_iff_ne.mpr ?_
    rintro rfl
    exact absurd hc (by decide)
  simp [Pattern.deriv, leaving, Identifier, cat, byte, flat, halpha, hquote, endsForbidden_singleton]

theorem step_identifier (hc : isAlpha c) (k : List Pat) :
    step ByteClass.has reserved c (enter .tokenStart Identifier :: k) =
      [([.tokenStart], avoid (star (sym .word)) [c] :: k)] := by
  have hleaving : leaving Identifier = none := rfl
  simp [step, Pattern.deriv, leaving, deriv_identifier hc, hleaving]

theorem step_ws_of_isAlpha (hc : isAlpha c) (k : List Pat) :
    step ByteClass.has reserved c (star ws :: k) = step ByteClass.has reserved c k := by
  refine step_star_of_not (separators_not_word ?_ ?_)
  · decide
  · simp [isWord, hc]

/-- The actions of a list of readings that all execute the same. -/
theorem inOrder_flatMap (as : List Action) (hks : ks ≠ []) :
    inOrder ((ks.map fun k => (as, k)).flatMap Prod.fst) = inOrder as := by
  obtain ⟨k, hk⟩ := List.exists_mem_of_ne_nil ks hks
  refine List.filter_congr fun a _ => ?_
  simp only [List.flatMap_map, List.mem_flatMap, decide_eq_decide]
  exact ⟨fun ⟨_, _, ha⟩ => ha, fun ha => ⟨k, hk, ha⟩⟩

/-- A name, where nothing but a name can stand. -/
theorem takes_of_moves (as : List Action) (hks : ks ≠ []) (hquiet : Quiet ks) (hname : isIdentifier name)
    (hmoves : ∀ c ∈ name.head?, isAlpha c →
      moves ByteClass.has reserved ts c = (nameReadings ks [c]).map fun k => (as, k))
    (hact : ∀ us, (inOrder as).foldl act (reading us t d) = reading us [] d') :
    Takes (tainted [] name = false) (reading ts t d) name (reading ks name d') := by
  cases name with
  | nil => simp [isIdentifier] at hname
  | cons c w =>
    have hc : isAlpha c := by simp_all [isIdentifier]
    have hafter : after ByteClass.has reserved ts c = nameReadings ks [c] ++ [] := by
      simp [after, hmoves c rfl hc, List.map_map, Function.comp_def]
    have hfired : inOrder (fired ByteClass.has reserved ts c) = inOrder as := by
      rw [fired, hmoves c rfl hc, inOrder_flatMap]
      simpa [nameReadings] using hks
    exact takes_name hquiet (.none w) hname (read_eq hafter hfired (hact _))

theorem takes_identifier (hquiet : Quiet [k]) (hname : isIdentifier name) :
    Takes (tainted [] name = false) (reading [enter .tokenStart Identifier :: k] t d) name
      (reading [k] name d) := by
  refine takes_of_moves [.tokenStart] (by simp) hquiet hname ?_ fun _ => rfl
  intro c _ hc
  simp [moves, step_identifier hc, nameReadings]

theorem takes_wsIdentifier (hquiet : Quiet [k]) (hname : isIdentifier name) :
    Takes (tainted [] name = false) (reading [star ws :: enter .tokenStart Identifier :: k] t d) name
      (reading [k] name d) := by
  refine takes_of_moves [.tokenStart] (by simp) hquiet hname ?_ fun _ => rfl
  intro c _ hc
  simp [moves, step_ws_of_isAlpha hc, step_identifier hc, nameReadings]

/-- A name that may turn out to be that of a schema. -/
theorem takes_qualified {a : Action}
    (hquiet : Quiet [out a :: byte 46 :: enter .tokenStart Identifier :: k, k]) (hname : isIdentifier name) :
    Takes (tainted [] name = false)
      (reading [star ws :: opt (seq (token a Identifier) (byte 46)) :: enter .tokenStart Identifier :: k] t d) name
      (reading [out a :: byte 46 :: enter .tokenStart Identifier :: k, k] name d) := by
  refine takes_of_moves [.tokenStart] (by simp) hquiet hname ?_ fun _ => rfl
  intro c _ hc
  have hleaving : leaving Identifier = none := rfl
  have hschema : Pattern.deriv ByteClass.has reserved c (opt (seq (token a Identifier) (byte 46))) =
      [([.tokenStart], [avoid (star (sym .word)) [c], out a, byte 46])] := by
    simp [opt, Grammar.token, leave, Pattern.deriv, deriv_identifier hc, leaving, hleaving, flat, byte]
  have hnone : leaving (opt (seq (Grammar.token a Identifier) (byte 46))) = some [] := rfl
  simp only [moves, List.flatMap_cons, List.flatMap_nil, step_ws_of_isAlpha hc]
  rw [step, hschema, hnone, step_identifier hc]
  rfl

theorem step_tableElement (hc : isAlpha c) :
    step ByteClass.has reserved c (TableElement :: elementTail) =
      [([.tableColumnBegin, .tokenStart], avoid (star (sym .word)) [c] :: columnNext)] := by
  have hleaving : leaving Identifier = none := rfl
  simp only [TableElement, TableColumnDefinition, TableColumnName, Grammar.token, leave, cat, step, Pattern.deriv,
    deriv_identifier hc, leaving, hleaving]
  rfl

theorem takes_firstColumn (hname : isIdentifier name) (t : Bytes) (d : TableDefinition) :
    Takes (tainted [] name = false) (reading firstColumn t d) name
      (reading [columnNext] name (d.addColumn .new)) := by
  refine takes_of_moves [.tableColumnBegin, .tokenStart] (by simp) (by decide) hname ?_ fun _ => rfl
  intro c _ hc
  simp only [firstColumn, moves, List.flatMap_cons, List.flatMap_nil, step_ws_of_isAlpha hc,
    step_tableElement hc]
  rfl

/-- A number, where nothing but a number can stand. -/
theorem takes_number {digits : Bytes} (hquiet : Quiet [k]) (hne : digits ≠ []) (hdigits : ∀ c ∈ digits, isDigit c) :
    Takes True (reading [star ws :: enter .tokenStart Digits :: k] t d) digits (reading [k] digits d) := by
  obtain ⟨c, w, rfl⟩ := List.exists_cons_of_ne_nil hne
  have hc : ByteClass.has .digit c = true := hdigits c (by simp)
  have hws : ByteClass.has .ws c = false :=
    separators_not_word (by decide) (by simp_all [isWord, ByteClass.has])
  have hmoves : moves ByteClass.has reserved [star ws :: enter .tokenStart Digits :: k] c =
      [([.tokenStart], star (sym .digit) :: k)] := by
    simp [moves, ws, step, Pattern.deriv, leaving, Digits, plus, flat, hc, hws]
  have hread : (reading [star ws :: enter .tokenStart Digits :: k] t d).read c =
      reading [star (sym .digit) :: k] [c] d := by
    have hafter : after ByteClass.has reserved [star ws :: enter .tokenStart Digits :: k] c =
        [star (sym .digit) :: k] := by simp [after, hmoves]
    have hfired : inOrder (fired ByteClass.has reserved [star ws :: enter .tokenStart Digits :: k] c) =
        [.tokenStart] := by
      rw [fired, hmoves]
      rfl
    exact read_eq hafter hfired rfl
  have hw : ∀ c ∈ w, isDigit c := fun c hc => hdigits c (by simp [hc])
  have hrest := takes_digits hquiet hw [c] d
  intro x rest hx
  rw [List.cons_append, run_cons, hread]
  exact hrest x rest hx

/-- The keywords that a constraint can begin with: the first letter, the others, what is left behind
them, and the action for the type of the constraint. -/
def keywordStarts : List (UInt8 × Bytes × List Pat × List Action) :=
  [(67, CONSTRAINT.tail, ws :: constraintName, []),
    (80, PRIMARY.tail, ws :: star ws :: ((letters KEY).map sym ++
      star ws :: byte 40 :: names .tableConstraintColumnName constraintTail), [.tableConstraintPrimaryKey]),
    (85, UNIQUE.tail, star ws :: byte 40 :: names .tableConstraintColumnName constraintTail,
      [.tableConstraintUnique]),
    (70, FOREIGN.tail, ws :: star ws :: ((letters KEY).map sym ++
      star ws :: byte 40 :: names .tableConstraintColumnName references), [.tableConstraintForeignKey])]

theorem keywordStarts_spec : ∀ e ∈ keywordStarts, Quiet [e.2.2.1] ∧
    (∀ x ∈ e.2.1, isAlpha x ∧ isAlpha (x + 32)) ∧ letters (e.1 :: e.2.1) ∈ reserved := by
  decide +kernel

theorem moves_keyword : ∀ e ∈ keywordStarts, ∀ c ∈ [e.1, e.1 + 32],
    after ByteClass.has reserved elementStart c =
        nameReadings [columnNext] [c] ++ [(letters e.2.1).map sym ++ e.2.2.1] ∧
      inOrder (fired ByteClass.has reserved elementStart c) =
        [.tableColumnBegin, .tokenStart, .tableConstraintBegin] ++ e.2.2.2 := by
  decide +kernel

/-- The type of the constraint that a letter makes the parser begin. The type of a new constraint is
zero, and the keyword CONSTRAINT leaves it so. -/
def typeOfLetter (c : UInt8) : Option TableConstraintType :=
  if ByteClass.has (.letter 67) c || ByteClass.has (.letter 80) c then some .primaryKey
  else if ByteClass.has (.letter 85) c then some .unique
  else if ByteClass.has (.letter 70) c then some .foreignKey
  else none

/-- The constraints that are begun on the first letter of a name. -/
def spuriousConstraints (name : Bytes) : List TableConstraint :=
  (name.head?.bind typeOfLetter).toList.map fun type => { TableConstraint.new with type := type }

theorem act_keyword {e : UInt8 × Bytes × List Pat × List Action} (he : e ∈ keywordStarts)
    (hc : c ∈ [e.1, e.1 + 32]) (t : Bytes) (d : TableDefinition) (w : Bytes) (us : List (List Pat)) :
    ([Action.tableColumnBegin, .tokenStart, .tableConstraintBegin] ++ e.2.2.2).foldl act (reading us t d) =
      reading us []
        (({ d with tableConstraints := d.tableConstraints ++ spuriousConstraints (c :: w) }).addColumn .new) := by
  simp only [keywordStarts, List.mem_cons, List.not_mem_nil, or_false] at he
  rcases he with rfl | rfl | rfl | rfl
  all_goals
    simp only [List.mem_cons, List.not_mem_nil, or_false] at hc
    rcases hc with rfl | rfl <;> simp [act, handle, reading, ParserImpl.modify,
      ParserImpl.modifyConstraint]
  all_goals rfl

/-- A name where a constraint could stand too. -/
theorem takes_element (hname : isIdentifier name) (hreserved : reserved.any (spells ByteClass.has · name) = false)
    (t : Bytes) (d : TableDefinition) :
    Takes (tainted [] name = false) (reading elementStart t d) name
      (reading [columnNext] name
        (({ d with tableConstraints := d.tableConstraints ++ spuriousConstraints name }).addColumn .new)) := by
  cases name with
  | nil => simp [isIdentifier] at hname
  | cons c w =>
    by_cases hkeyword : ∃ e ∈ keywordStarts, c ∈ [e.1, e.1 + 32]
    · obtain ⟨e, he, hce⟩ := hkeyword
      obtain ⟨hquiet, hletters, hmem⟩ := keywordStarts_spec e he
      have hspells : spells ByteClass.has (letters e.2.1) w = false := by
        have hnot := List.any_eq_false.mp hreserved _ hmem
        have hfirst : ByteClass.has (.letter e.1) c = true := by
          simpa [ByteClass.has] using hce
        simpa [letters, spells, hfirst] using hnot
      obtain ⟨hafter, hfired⟩ := moves_keyword e he c hce
      have hread := read_eq hafter hfired (act_keyword he hce t d w _)
      exact takes_name (by decide) (.keyword hquiet hletters hspells) hname hread
    · have hnot : ∀ u ∈ [67, 80, 85, 70], ByteClass.has (.letter u) c = false := by
        simpa [keywordStarts, ByteClass.has] using hkeyword
      have hspurious : spuriousConstraints (c :: w) = [] := by
        simp [spuriousConstraints, typeOfLetter, hnot]
      have hbegins : begins (Grammar.TableConstraint :: constraintTail) =
          [.letter 67, .letter 80, .letter 85, .letter 70] := rfl
      have hnone : step ByteClass.has reserved c (Grammar.TableConstraint :: constraintTail) = [] := by
        refine step_eq_nil ?_
        simpa [hbegins] using hnot
      rw [hspurious, List.append_nil]
      refine takes_of_moves [.tableColumnBegin, .tokenStart] (by simp) (by decide) hname ?_ fun _ => rfl
      rintro _ ⟨⟩ hc
      simp only [elementStart, moves, List.flatMap_cons, List.flatMap_nil, step_ws_of_isAlpha hc,
        step_tableElement hc, hnone]
      rfl

end Names

end Contexts
end Latypus.Sql
