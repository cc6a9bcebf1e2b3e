import Mathlib.Data.List.Infix
import Latypus.Sql.Columns

/-! The rest of the text of a table definition, its constraints, and the statement that the parser
makes of the whole. -/

namespace Latypus.Sql
open Http (Bytes)
open Lib Lib.Pattern Contexts

structure TableConstraint.WellFormed (c : TableConstraint) : Prop where
  name : c.name = [] ∨ isName c.name
  columns : c.columns ≠ []
  columnNames : ∀ name ∈ c.columns, isName name
  references :
    if c.type = .foreignKey then
      (c.referencesSchemaName = [] ∨ isName c.referencesSchemaName) ∧ isName c.referencesTableName ∧
        c.referencesColumns ≠ [] ∧ ∀ name ∈ c.referencesColumns, isName name
    else c.referencesSchemaName = [] ∧ c.referencesTableName = [] ∧ c.referencesColumns = []

def TableConstraint.names (c : TableConstraint) : List Bytes :=
  [c.name] ++ c.columns ++ [c.referencesSchemaName, c.referencesTableName] ++ c.referencesColumns

structure TableDefinition.WellFormed (d : TableDefinition) : Prop where
  schemaName : d.schemaName = [] ∨ isName d.schemaName
  tableName : isName d.tableName
  columns : d.columnDefinitions ≠ []
  columnDefinitions : ∀ c ∈ d.columnDefinitions, c.WellFormed
  tableConstraints : ∀ c ∈ d.tableConstraints, c.WellFormed

def TableDefinition.names (d : TableDefinition) : List Bytes :=
  [d.schemaName, d.tableName] ++ d.columnDefinitions.flatMap ColumnDefinition.names ++
    d.tableConstraints.flatMap TableConstraint.names

/-- What the parser makes of the text of a definition: a column is begun with the first constraint, and
a constraint with every later column whose name has the first letter of a keyword. -/
def TableDefinition.reread (d : TableDefinition) : TableDefinition :=
  { d with
    columnDefinitions := d.columnDefinitions ++ if d.tableConstraints = [] then [] else [.new]
    tableConstraints :=
      (d.columnDefinitions.tail.flatMap fun c => spuriousConstraints c.columnName) ++ d.tableConstraints }

theorem isIdentifier_of_isName {w : Bytes} (h : isName w) : isIdentifier w := (Bool.and_eq_true_iff.mp h).1

namespace Reader
variable {d : TableDefinition} {c : TableConstraint}

/-- The names of a list, added to a constraint. -/
def addNames (a : Action) (names : List Bytes) (c : TableConstraint) : TableConstraint :=
  match a with
  | .tableConstraintColumnName => { c with columns := c.columns ++ names }
  | _ => { c with referencesColumns := c.referencesColumns ++ names }

theorem quiet_names : ∀ l ∈ nameLists, Quiet [namesNext l.1 l.2] := by
  decide

theorem act_name {l : Action × List Pat} (hl : l ∈ nameLists) {name : Bytes} (hname : isIdentifier name)
    (d : TableDefinition) (c : TableConstraint) (vs : List (List Pat)) :
    [l.1].foldl act (reading vs name (d.addConstraint c)) =
      reading vs name (d.addConstraint (addNames l.1 [name] c)) := by
  have hdequote := dequote_of_isIdentifier hname
  simp only [nameLists, List.mem_cons, List.not_mem_nil, or_false] at hl
  rcases hl with rfl | rfl | rfl <;> simp [act, handle, reading, addNames, hdequote]

theorem addNames_cons {l : Action × List Pat} (hl : l ∈ nameLists) (name : Bytes) (names : List Bytes) :
    addNames l.1 names (addNames l.1 [name] c) = addNames l.1 (name :: names) c := by
  simp only [nameLists, List.mem_cons, List.not_mem_nil, or_false] at hl
  rcases hl with rfl | rfl | rfl <;> simp [addNames]

theorem passes_names {l : Action × List Pat} (hl : l ∈ nameLists) {names : List Bytes} (hne : names ≠ [])
    (hnames : ∀ name ∈ names, isName name) :
    Passes (∀ name ∈ names, tainted [] name = false) [Contexts.names l.1 l.2] (d.addConstraint c)
      (commaList names ++ [41]) [l.2] (d.addConstraint (addNames l.1 names c)) := by
  induction names generalizing c with
  | nil => exact absurd rfl hne
  | cons name rest ih =>
    have hname := isIdentifier_of_isName (hnames name (by simp))
    obtain ⟨hcomma, hclose⟩ := walk_names l hl
    have hact := act_name hl hname d c
    cases rest with
    | nil =>
      have hpasses := passes_of_takes (fun _ => takes_wsIdentifier (quiet_names l hl) hname) (by decide) hclose hact
      exact hpasses.congr (by simp)
    | cons name' rest =>
      have hfirst := passes_of_takes (fun _ => takes_wsIdentifier (quiet_names l hl) hname) (by decide) hcomma hact
      have hrest := ih (c := addNames l.1 [name] c) (by simp) fun name h => hnames name (by simp [h])
      rw [addNames_cons hl] at hrest
      rw [commaList, List.append_assoc]
      exact (hfirst.append hrest).congr (by simp)
      simp

/-- Where a constraint begins: behind a column, where another column could stand, or behind a constraint. -/
def elements (afterColumn : Bool) : List (List Pat) := if afterColumn then elementStart else constraintStart

/-- What the first byte of a constraint begins: a column too, where one could stand. -/
def begun (afterColumn : Bool) (d : TableDefinition) : TableDefinition :=
  if afterColumn then d.addColumn .new else d

/-- The actions on that byte. -/
def begunActions (afterColumn : Bool) : List Action :=
  if afterColumn then [.tableColumnBegin, .tokenStart, .tableConstraintBegin] else [.tableConstraintBegin]

theorem act_begun (afterColumn : Bool) (d : TableDefinition) (vs : List (List Pat)) (t : Bytes) :
    ∃ t', (begunActions afterColumn).foldl act (reading vs t d) =
      reading vs t' ((begun afterColumn d).addConstraint .new) := by
  cases afterColumn <;> exact ⟨_, rfl⟩

theorem act_type (type : TableConstraintType) (d : TableDefinition) (c : TableConstraint) (vs : List (List Pat))
    (t : Bytes) :
    (reading vs t (d.addConstraint c)).act (typeAction type) =
      reading vs t (d.addConstraint { c with type := type }) := by
  cases type <;> simp [typeAction, act, handle, reading]

/-- The keywords of a constraint, where one begins or behind its name. -/
theorem passes_typeText {start : List (List Pat)} {as : List Action} {d' : TableDefinition}
    (hstart : (start, as) ∈ constraintStarts) (type : TableConstraintType)
    (hact : ∀ vs t, ∃ t', as.foldl act (reading vs t d) = reading vs t' (d'.addConstraint c)) :
    Passes True start d (typeText type) [Contexts.names .tableConstraintColumnName (typeTail type)]
      (d'.addConstraint { c with type := type }) := by
  have hacts : ∀ vs t, ∃ t', (as ++ [typeAction type]).foldl act (reading vs t d) =
      reading vs t' (d'.addConstraint { c with type := type }) := by
    intro vs t
    obtain ⟨t', ht'⟩ := hact vs t
    exact ⟨t', by rw [List.foldl_append, ht', List.foldl_cons, List.foldl_nil, act_type]⟩
  have hwalk := walk_constraintStarts _ hstart type (by cases type <;> simp)
  cases type with
  | primaryKey => exact passes_of_walk hwalk hacts
  | foreignKey => exact passes_of_walk hwalk hacts
  | unique => exact passes_of_walk hwalk hacts

/-- A constraint up to the names of its columns. -/
theorem passes_constraintHead (afterColumn : Bool) {name : Bytes} (hname : name = [] ∨ isName name)
    (type : TableConstraintType) (d : TableDefinition) :
    Passes (tainted [] name = false) (elements afterColumn) d
      ((if 0 < name.length then Grammar.CONSTRAINT ++ [32] ++ name ++ [32] else []) ++ typeText type)
      [Contexts.names .tableConstraintColumnName (typeTail type)]
      ((begun afterColumn d).addConstraint { TableConstraint.new with name := name, type := type }) := by
  rcases hname with rfl | hname
  · have hstart : (elements afterColumn, begunActions afterColumn) ∈ constraintStarts := by
      cases afterColumn <;> simp [elements, begunActions, constraintStarts]
    exact (passes_typeText hstart type (act_begun afterColumn d)).congr (by simp [tainted])
  · have hidentifier := isIdentifier_of_isName hname
    have hne : 0 < name.length := by
      refine List.length_pos_iff.mpr ?_
      rintro rfl
      exact absurd hname (by decide)
    have hkeyword : Passes True (elements afterColumn) d (Grammar.CONSTRAINT ++ [32]) [constraintName]
        ((begun afterColumn d).addConstraint .new) := by
      cases afterColumn with
      | true => exact passes_of_walk walk_constraint.1 (act_begun true d)
      | false => exact passes_of_walk walk_constraint.2 (act_begun false d)
    have hnamed : Passes (tainted [] name = false) [constraintName] ((begun afterColumn d).addConstraint .new)
        (name ++ [32]) [constraintTypeStart]
        ((begun afterColumn d).addConstraint { TableConstraint.new with name := name }) := by
      refine passes_of_takes (fun _ => takes_wsIdentifier (by decide) hidentifier) (by decide) walk_constraintName ?_
      intro vs
      simp [act, handle, reading, dequote_of_isIdentifier hidentifier]
    have hstart : ([constraintTypeStart], ([] : List Action)) ∈ constraintStarts := by simp [constraintStarts]
    have htype : Passes True [constraintTypeStart]
        ((begun afterColumn d).addConstraint { TableConstraint.new with name := name }) (typeText type)
        [Contexts.names .tableConstraintColumnName (typeTail type)]
        ((begun afterColumn d).addConstraint { TableConstraint.new with name := name, type := type }) :=
      passes_typeText hstart type fun vs t => ⟨t, rfl⟩
    have hpasses := (hkeyword.append (hnamed.append htype)).congr (show _ ↔ tainted [] name = false by simp)
    rw [if_pos hne]
    simpa using hpasses

/-- The references of a foreign key. -/
theorem passes_references (hschema : c.referencesSchemaName = [] ∨ isName c.referencesSchemaName)
    (htable : isName c.referencesTableName) (hne : c.referencesColumns ≠ [])
    (hcolumns : ∀ name ∈ c.referencesColumns, isName name) :
    Passes (tainted [] c.referencesSchemaName = false ∧ tainted [] c.referencesTableName = false ∧
        ∀ name ∈ c.referencesColumns, tainted [] name = false)
      [references]
      (d.addConstraint { c with referencesSchemaName := [], referencesTableName := [], referencesColumns := [] })
      ([32] ++ Grammar.REFERENCES ++ [32] ++
        ((if 0 < c.referencesSchemaName.length then c.referencesSchemaName ++ [46] else []) ++
          (c.referencesTableName ++ [40])) ++ (commaList c.referencesColumns ++ [41]))
      [constraintTail] (d.addConstraint c) := by
  have hidentifier := isIdentifier_of_isName htable
  have hkeyword : ∀ e, Passes True [references] e ([32] ++ Grammar.REFERENCES ++ [32]) [referencesStart] e :=
    fun e => passes_of_walk walk_references fun vs t => ⟨t, rfl⟩
  have hqualified : Passes (tainted [] c.referencesSchemaName = false ∧ tainted [] c.referencesTableName = false)
      [referencesStart]
      (d.addConstraint { c with referencesSchemaName := [], referencesTableName := [], referencesColumns := [] })
      ((if 0 < c.referencesSchemaName.length then c.referencesSchemaName ++ [46] else []) ++
        (c.referencesTableName ++ [40]))
      [Contexts.names .tableConstraintReferencesColumnName constraintTail]
      (d.addConstraint { c with referencesColumns := [] }) := by
    refine passes_qualified (d.addConstraint { c with referencesTableName := [], referencesColumns := [] })
      (by decide) walk_referencesSchema walk_referencesTable (by decide)
      (hschema.imp_right isIdentifier_of_isName) hidentifier ?_ ?_
    · split
      · simp_all
      · have hdequote := dequote_of_isIdentifier (isIdentifier_of_isName (hschema.resolve_left ‹_›))
        simp [act, handle, reading, hdequote]
    · intro vs
      simp [act, handle, reading, dequote_of_isIdentifier hidentifier]
  have hlist : (Action.tableConstraintReferencesColumnName, constraintTail) ∈ nameLists := by simp [nameLists]
  have hnames : Passes (∀ name ∈ c.referencesColumns, tainted [] name = false)
      [Contexts.names .tableConstraintReferencesColumnName constraintTail]
      (d.addConstraint { c with referencesColumns := [] }) (commaList c.referencesColumns ++ [41]) [constraintTail]
      (d.addConstraint c) := passes_names hlist hne hcolumns
  exact (((hkeyword _).append hqualified).append hnames).congr (by simp [and_assoc])

theorem toString_eq (c : TableConstraint) :
    c.toString = (if 0 < c.name.length then Grammar.CONSTRAINT ++ [32] ++ c.name ++ [32] else []) ++
      typeText c.type ++ (commaList c.columns ++ [41]) ++
      if c.type = .foreignKey then
        [32] ++ Grammar.REFERENCES ++ [32] ++
          ((if 0 < c.referencesSchemaName.length then c.referencesSchemaName ++ [46] else []) ++
            (c.referencesTableName ++ [40])) ++ (commaList c.referencesColumns ++ [41])
      else [] := by
  obtain ⟨type, name, columns, schema, table, referencesColumns⟩ := c
  cases type <;>
    simp [TableConstraint.toString, typeText, Grammar.CONSTRAINT, Grammar.PRIMARY, Grammar.FOREIGN, Grammar.KEY,
      Grammar.UNIQUE, Grammar.REFERENCES]

theorem passes_constraint (afterColumn : Bool) (hwell : c.WellFormed) (d : TableDefinition) :
    Passes (∀ name ∈ c.names, tainted [] name = false) (elements afterColumn) d c.toString [constraintTail]
      ((begun afterColumn d).addConstraint c) := by
  have hhead := passes_constraintHead afterColumn hwell.name c.type d
  have hlist : (Action.tableConstraintColumnName, typeTail c.type) ∈ nameLists := by
    cases c.type <;> simp [nameLists, typeTail]
  have hcolumns : Passes (∀ name ∈ c.columns, tainted [] name = false)
      [Contexts.names .tableConstraintColumnName (typeTail c.type)]
      ((begun afterColumn d).addConstraint { TableConstraint.new with name := c.name, type := c.type })
      (commaList c.columns ++ [41]) [typeTail c.type]
      ((begun afterColumn d).addConstraint
        { TableConstraint.new with name := c.name, type := c.type, columns := c.columns }) :=
    passes_names hlist hwell.columns hwell.columnNames
  have hreferences := hwell.references
  rw [toString_eq]
  by_cases hforeign : c.type = .foreignKey
  · rw [if_pos hforeign] at hreferences ⊢
    obtain ⟨hschema, htable, hne, hnames⟩ := hreferences
    have htail : typeTail c.type = references := by rw [hforeign, typeTail]
    have hrefs := passes_references (d := begun afterColumn d) hschema htable hne hnames
    rw [htail] at hcolumns hhead
    refine ((hhead.append hcolumns).append hrefs).congr ?_
    simp [TableConstraint.names, or_imp, forall_and, and_assoc]
  · rw [if_neg hforeign] at hreferences ⊢
    obtain ⟨hschema, htable, hnames⟩ := hreferences
    have htail : typeTail c.type = constraintTail := by
      cases htype : c.type <;> simp_all [typeTail]
    have hconstraint : { TableConstraint.new with name := c.name, type := c.type, columns := c.columns } = c := by
      obtain ⟨type, name, columns, schema, table, referencesColumns⟩ := c
      simp_all [TableConstraint.new]
    rw [htail] at hcolumns hhead
    rw [hconstraint] at hcolumns
    rw [List.append_nil]
    refine (hhead.append hcolumns).congr ?_
    simp [TableConstraint.names, or_imp, forall_and, hschema, htable, hnames, tainted]

/-- The constraints behind the first. -/
theorem passes_constraints {cs : List TableConstraint} (hwell : ∀ c ∈ cs, c.WellFormed) (d : TableDefinition) :
    Passes (∀ c ∈ cs, ∀ name ∈ c.names, tainted [] name = false) [constraintTail] d
      (cs.flatMap fun c => [44, 32] ++ c.toString) [constraintTail]
      { d with tableConstraints := d.tableConstraints ++ cs } := by
  induction cs generalizing d with
  | nil => exact fun t => ⟨fun _ => ⟨t, by simp⟩, fun h => absurd (by simp) h⟩
  | cons c cs ih =>
    have hcomma : Passes True [constraintTail] d [44, 32] (elements false) d :=
      passes_of_walk walk_constraintTail.1 fun vs t => ⟨t, rfl⟩
    have hfirst := passes_constraint false (hwell c (by simp)) d
    have hrest := ih (fun c hc => hwell c (by simp [hc])) ((begun false d).addConstraint c)
    have hpasses := ((hcomma.append hfirst).append hrest).congr
      (show _ ↔ ∀ c' ∈ c :: cs, ∀ name ∈ c'.names, tainted [] name = false by simp)
    simpa [begun, TableDefinition.addConstraint] using hpasses

/-- The constraints and the parenthesis behind the columns. -/
theorem Completes.close {good : Prop} {r : Reader} {cs : List TableConstraint} (h : Completes good r d)
    (hwell : ∀ c ∈ cs, c.WellFormed) :
    (good ∧ (∀ c ∈ cs, ∀ name ∈ c.names, tainted [] name = false) →
      ∃ t, r.run ((cs.flatMap fun c => [44, 32] ++ c.toString) ++ [41]) = reading [endTail] t { d with
        columnDefinitions := d.columnDefinitions ++ if cs = [] then [] else [.new]
        tableConstraints := d.tableConstraints ++ cs }) ∧
    (¬(good ∧ ∀ c ∈ cs, ∀ name ∈ c.names, tainted [] name = false) →
      (r.run ((cs.flatMap fun c => [44, 32] ++ c.toString) ++ [41])).Dead) := by
  cases cs with
  | nil =>
    refine ⟨fun hand => ?_, fun hnot => h.2 (fun hgood => hnot ⟨hgood, by simp⟩) 41 [] (by decide)⟩
    obtain ⟨t, hclose⟩ := (h.1 hand.1).close
    exact ⟨t, by simpa [run_cons] using hclose⟩
  | cons c cs =>
    by_cases hgood : good
    · obtain ⟨t, hcomma⟩ := (h.1 hgood).comma
      have hblank : (reading elementStart t d).run [32] = reading (elements true) (t ++ [32]) d :=
        run_silent walk_comma t d
      have hfirst := passes_constraint true (hwell c (by simp)) d
      have hwellRest : ∀ c ∈ cs, c.WellFormed := fun c hc => hwell c (by simp [hc])
      have hrest := passes_constraints hwellRest ((begun true d).addConstraint c)
      have hclose : ∀ e, Passes True [constraintTail] e [41] [endTail] e :=
        fun e => passes_of_walk walk_constraintTail.2 fun vs t => ⟨t, rfl⟩
      have hpasses := ((hfirst.append hrest).append (hclose _)).congr
        (show _ ↔ ∀ c' ∈ c :: cs, ∀ name ∈ c'.names, tainted [] name = false by simp) (t ++ [32])
      have hrun : r.run (((c :: cs).flatMap fun c => [44, 32] ++ c.toString) ++ [41]) =
          (reading (elements true) (t ++ [32]) d).run
            (c.toString ++ (cs.flatMap fun c => [44, 32] ++ c.toString) ++ [41]) := by
        rw [← hblank, ← hcomma]
        simp [run_cons]
      rw [hrun]
      simpa [hgood, begun, TableDefinition.addConstraint, TableDefinition.addColumn] using hpasses
    · exact ⟨fun hand => absurd hand.1 hgood, fun _ => h.2 hgood 44 _ (by decide)⟩

theorem run_create : (Reader.mk [[Grammar.SQL]] [] .reset).run (Grammar.CREATE ++ [32] ++ Grammar.TABLE ++ [32]) =
    reading [tableStart] (Grammar.CREATE ++ [32] ++ Grammar.TABLE ++ [32]) .new := by
  decide +kernel

theorem Dead.finish_statements {r : Reader} (h : r.Dead) : r.finish.impl.statements = [] := by
  obtain ⟨readings, token, impl⟩ := r
  obtain ⟨hreadings, hstatements⟩ := h
  obtain rfl : readings = [] := hreadings
  exact hstatements

theorem finish_endTail (t : Bytes) (d : TableDefinition) :
    (reading [endTail] t d).finish.impl.statements = [d] := by
  rfl

end Reader

open Reader

/-- The statements that the parser makes of the text of a definition. -/
theorem parse_toString {d : TableDefinition} (hwell : d.WellFormed) :
    parse d.toString = if ∀ name ∈ d.names, tainted [] name = false then [d.reread] else [] := by
  obtain ⟨c, cs, hcolumns⟩ := List.exists_cons_of_ne_nil hwell.columns
  have hwellColumns := hwell.columnDefinitions
  rw [hcolumns] at hwellColumns
  have hwellFirst := hwellColumns c (by simp)
  have hwellRest : ∀ c ∈ cs, c.WellFormed := fun c hc => hwellColumns c (by simp [hc])
  have hfirstName := isIdentifier_of_isName hwellFirst.columnName
  have htext : d.toString = (Grammar.CREATE ++ [32] ++ Grammar.TABLE ++ [32]) ++
      (((if 0 < d.schemaName.length then d.schemaName ++ [46] else []) ++ (d.tableName ++ [32, 40])) ++
        (c.toString ++ (columnsToString false cs ++
          ((d.tableConstraints.flatMap fun c => [44, 32] ++ c.toString) ++ [41])))) := by
    have hne : ¬c.columnName.length = 0 := by
      intro hnil
      rw [List.length_eq_zero_iff.mp hnil] at hfirstName
      exact absurd hfirstName (by decide)
    simp [TableDefinition.toString, hcolumns, columnsToString, hne, Grammar.CREATE, Grammar.TABLE]
  have hnames : (∀ name ∈ d.names, tainted [] name = false) ↔
      (tainted [] d.schemaName = false ∧ tainted [] d.tableName = false) ∧
        (((tainted [] c.columnName = false ∧ tainted [] c.typeName = false) ∧
          ∀ c ∈ cs, ∀ name ∈ c.names, tainted [] name = false) ∧
        ∀ c ∈ d.tableConstraints, ∀ name ∈ c.names, tainted [] name = false) := by
    simp only [TableDefinition.names, hcolumns, List.flatMap_cons, List.forall_mem_append,
      List.forall_mem_flatMap, ColumnDefinition.names, List.forall_mem_cons, List.not_mem_nil, false_imp_iff,
      implies_true, and_true, and_assoc]
  obtain ⟨hgood, hbad⟩ := passes_tableName (hwell.schemaName.imp_right isIdentifier_of_isName)
    (isIdentifier_of_isName hwell.tableName) (Grammar.CREATE ++ [32] ++ Grammar.TABLE ++ [32])
  rw [parse_eq, htext, run_append, run_create, run_append]
  by_cases htable : tainted [] d.schemaName = false ∧ tainted [] d.tableName = false
  · obtain ⟨t, hrun⟩ := hgood htable
    have hfirst := completes_column hwellFirst t fun t =>
      takes_firstColumn hfirstName t ⟨d.schemaName, d.tableName, [], []⟩
    obtain ⟨hdone, hdead⟩ := (hfirst.columns hwellRest).close hwell.tableConstraints
    rw [hrun, run_append, run_append]
    split
    · rename_i hclean
      obtain ⟨t', hclose⟩ := hdone (hnames.mp hclean).2
      rw [hclose, finish_endTail]
      simp [TableDefinition.reread, TableDefinition.addColumn, hcolumns]
    · rename_i hclean
      exact (hdead fun hand => hclean (hnames.mpr ⟨htable, hand⟩)).finish_statements
  · rw [if_neg fun hclean => htable (hnames.mp hclean).1]
    exact ((hbad htable).run _).finish_statements

/-- A reserved word stands somewhere in a name, in either case. -/
def holdsReserved (name : Bytes) : Bool :=
  name.tails.any fun rest => Grammar.reserved.any fun u => spells ByteClass.has u (rest.take u.length)

/-- The first letter of a name is that of a keyword which a constraint can begin with: CONSTRAINT,
PRIMARY, UNIQUE or FOREIGN. -/
def beginsLikeKeyword (name : Bytes) : Bool :=
  name.head?.any fun c => [67, 80, 85, 70].any fun u => ByteClass.has (.letter u) c

theorem tainted_iff (seen w : Bytes) : tainted seen w = true ↔
    ∃ u v, w = u ++ v ∧ u ≠ [] ∧ endsForbidden ByteClass.has Grammar.reserved (seen ++ u) = true := by
  induction w generalizing seen with
  | nil => simp [tainted]
  | cons c w ih =>
    rw [tainted, Bool.or_eq_true, ih]
    constructor
    · rintro (hends | ⟨u, v, rfl, -, hends⟩)
      · exact ⟨[c], w, rfl, by simp, hends⟩
      · exact ⟨c :: u, v, rfl, by simp, by simpa using hends⟩
    · rintro ⟨u, v, hsplit, hne, hends⟩
      obtain ⟨b, u, rfl⟩ := List.exists_cons_of_ne_nil hne
      obtain ⟨rfl, rfl⟩ := List.cons.inj hsplit
      cases u with
      | nil => exact .inl hends
      | cons b' u => exact .inr ⟨b' :: u, v, rfl, by simp, by simpa using hends⟩

theorem tainted_eq_holdsReserved (name : Bytes) : tainted [] name = holdsReserved name := by
  have hreserved : ∀ u ∈ Grammar.reserved, 0 < u.length := by decide
  rw [Bool.eq_iff_iff, tainted_iff]
  simp only [holdsReserved, endsForbidden, List.any_eq_true, List.mem_tails, List.nil_append]
  constructor
  · rintro ⟨u, v, rfl, -, ks, hks, hspells⟩
    have hlength := length_eq_of_spells hspells
    rw [List.length_drop] at hlength
    refine ⟨u.drop (u.length - ks.length) ++ v, ?_, ks, hks, ?_⟩
    · exact ⟨u.take (u.length - ks.length), by rw [← List.append_assoc, List.take_append_drop]⟩
    · rwa [List.take_left' (by rw [List.length_drop, hlength])]
  · rintro ⟨rest, ⟨u, rfl⟩, ks, hks, hspells⟩
    have hlength := length_eq_of_spells hspells
    have hne : rest.take ks.length ≠ [] := by
      rw [← List.length_pos_iff, hlength]
      exact hreserved ks hks
    refine ⟨u ++ rest.take ks.length, rest.drop ks.length, ?_, by simp [hne], ks, hks, ?_⟩
    · rw [List.append_assoc, List.take_append_drop]
    · rwa [List.drop_left' (by rw [List.length_append, hlength]; omega)]

theorem spuriousConstraints_eq_nil_iff (name : Bytes) :
    spuriousConstraints name = [] ↔ beginsLikeKeyword name = false := by
  cases name with
  | nil => simp [spuriousConstraints, beginsLikeKeyword]
  | cons c w =>
    simp only [spuriousConstraints, beginsLikeKeyword, typeOfLetter, List.head?_cons, Option.bind_some,
      Option.any_some, List.any_cons, List.any_nil]
    cases ByteClass.has (.letter 67) c <;> cases ByteClass.has (.letter 80) c <;>
      cases ByteClass.has (.letter 85) c <;> cases ByteClass.has (.letter 70) c <;> simp

theorem reread_eq_self_iff (d : TableDefinition) :
    d.reread = d ↔ d.tableConstraints = [] ∧
      ∀ c ∈ d.columnDefinitions.tail, beginsLikeKeyword c.columnName = false := by
  have hcolumns : d.columnDefinitions ++ (if d.tableConstraints = [] then [] else [.new]) = d.columnDefinitions ↔
      d.tableConstraints = [] := by
    rw [List.append_right_eq_self]
    split <;> simp_all
  have hconstraints : (d.columnDefinitions.tail.flatMap fun c => spuriousConstraints c.columnName) ++
      d.tableConstraints = d.tableConstraints ↔
      ∀ c ∈ d.columnDefinitions.tail, beginsLikeKeyword c.columnName = false := by
    rw [List.append_left_eq_self, List.flatMap_eq_nil_iff]
    simp only [spuriousConstraints_eq_nil_iff]
  rw [← hcolumns, ← hconstraints]
  obtain ⟨schemaName, tableName, columnDefinitions, tableConstraints⟩ := d
  simp [TableDefinition.reread]

/-- The definition that is read is the one that was printed if and only if it has no constraints, no
column but the first has the first letter of a keyword, and no name holds a reserved word. -/
theorem createTable_roundTrips_iff {d : TableDefinition} (hwell : d.WellFormed) :
    parse d.toString = [d] ↔ d.tableConstraints = [] ∧
      (∀ c ∈ d.columnDefinitions.tail, beginsLikeKeyword c.columnName = false) ∧
      ∀ name ∈ d.names, holdsReserved name = false := by
  simp only [parse_toString hwell, tainted_eq_holdsReserved]
  split
  · rename_i hclean
    rw [List.singleton_inj, reread_eq_self_iff]
    exact ⟨fun h => ⟨h.1, h.2, hclean⟩, fun h => ⟨h.1, h.2.1⟩⟩
  · rename_i hclean
    exact ⟨fun h => absurd h (by simp), fun h => absurd h.2.2 hclean⟩

/-- `CREATE TABLE shop.item (id int(11) PRIMARY KEY NOT NULL, amount dec(10,2) DEFAULT NULL,
note text DEFAULT '-' UNIQUE)` -/
def itemTable : TableDefinition where
  schemaName := [115, 104, 111, 112]
  tableName := [105, 116, 101, 109]
  columnDefinitions := [
    ⟨[105, 100], [105, 110, 116], [.primaryKey, .notNull], 11, 0⟩,
    ⟨[97, 109, 111, 117, 110, 116], [100, 101, 99], [.default Grammar.NULL], 10, 2⟩,
    ⟨[110, 111, 116, 101], [116, 101, 120, 116], [.default [39, 45, 39], .unique], 0, 0⟩]
  tableConstraints := []

theorem wellFormed_itemTable : itemTable.WellFormed := by
  refine ⟨.inr (by decide), show isName [105, 116, 101, 109] by decide, by simp [itemTable], ?_, by simp [itemTable]⟩
  intro c hc
  simp only [itemTable, List.mem_cons, List.not_mem_nil, or_false] at hc
  rcases hc with rfl | rfl | rfl
  · exact ⟨by decide, by decide, by decide, by decide, by decide, by simp [ColumnConstraint.WellFormed]⟩
  · exact ⟨by decide, by decide, by decide, by decide, by decide, by simp [ColumnConstraint.WellFormed]⟩
  · have hdefault : (ColumnConstraint.default [39, 45, 39]).WellFormed := .inr ⟨[45], by decide, rfl⟩
    refine ⟨by decide, by decide, by decide, by decide, by decide, fun constraint hc => ?_⟩
    rcases List.mem_cons.mp hc with rfl | hc
    · exact hdefault
    · obtain rfl := List.mem_singleton.mp hc
      trivial

theorem createTable_roundTrips_iff_item : parse itemTable.toString = [itemTable] :=
  (createTable_roundTrips_iff wellFormed_itemTable).mpr ⟨rfl, by decide +kernel, by decide +kernel⟩

/-- `CREATE TABLE t (id int)`, with constraints of the table. -/
def keyed (tableConstraints : List TableConstraint) : TableDefinition :=
  ⟨[], [116], [⟨[105, 100], [105, 110, 116], [], 0, 0⟩], tableConstraints⟩

theorem wellFormed_keyed {tableConstraints : List TableConstraint} (h : ∀ c ∈ tableConstraints, c.WellFormed) :
    (keyed tableConstraints).WellFormed := by
  refine ⟨.inl rfl, show isName [116] by decide, by simp [keyed], ?_, h⟩
  intro c hc
  obtain rfl : c = ⟨[105, 100], [105, 110, 116], [], 0, 0⟩ := by simpa [keyed] using hc
  exact ⟨by decide, by decide, by simp, by simp, by simp, by simp⟩

/-- With a primary key the statement that is read has a second column, without a name. -/
theorem primaryKey_misread : (keyed [⟨.primaryKey, [], [[105, 100]], [], [], []⟩]).WellFormed ∧
    parse (keyed [⟨.primaryKey, [], [[105, 100]], [], [], []⟩]).toString =
      [⟨[], [116], [⟨[105, 100], [105, 110, 116], [], 0, 0⟩, .new], [⟨.primaryKey, [], [[105, 100]], [], [], []⟩]⟩] ∧
    parse (keyed [⟨.primaryKey, [], [[105, 100]], [], [], []⟩]).toString ≠
      [keyed [⟨.primaryKey, [], [[105, 100]], [], [], []⟩]] := by
  refine ⟨wellFormed_keyed ?_, by decide +kernel, by decide +kernel⟩
  intro c hc
  obtain rfl : c = ⟨.primaryKey, [], [[105, 100]], [], [], []⟩ := by simpa using hc
  exact ⟨.inl rfl, by simp, by decide, by decide⟩

end Latypus.Sql
