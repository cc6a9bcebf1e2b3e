import Latypus.Http.Message

/-! The definitions of tables, db_sql_model.cc, with the text that each prints. -/

namespace Latypus.Sql
open Http (Bytes decimal)

inductive ColumnConstraint where
  | null
  | notNull
  | default (value : Bytes)
  | primaryKey
  | unique
deriving DecidableEq, Repr

/-- A size or a number of decimals of zero stands for none. -/
structure ColumnDefinition where
  columnName : Bytes
  typeName : Bytes
  constraints : List ColumnConstraint
  size : Int
  decimals : Int
deriving DecidableEq, Repr

inductive TableConstraintType where
  | primaryKey
  | foreignKey
  | unique
deriving DecidableEq, Repr

structure TableConstraint where
  type : TableConstraintType
  name : Bytes
  columns : List Bytes
  referencesSchemaName : Bytes
  referencesTableName : Bytes
  referencesColumns : List Bytes
deriving DecidableEq, Repr

structure TableDefinition where
  schemaName : Bytes
  tableName : Bytes
  columnDefinitions : List ColumnDefinition
  tableConstraints : List TableConstraint
deriving DecidableEq, Repr

/-- The constructors without arguments; the type of a constraint is zero. -/
def ColumnDefinition.new : ColumnDefinition := ⟨[], [], [], 0, 0⟩

def TableConstraint.new : TableConstraint := ⟨.primaryKey, [], [], [], [], []⟩

def TableDefinition.new : TableDefinition := ⟨[], [], [], []⟩

def ColumnConstraint.toString : ColumnConstraint → Bytes
  | null => [78, 85, 76, 76]
  | notNull => [78, 79, 84, 32, 78, 85, 76, 76]
  | default value => [68, 69, 70, 65, 85, 76, 84, 32] ++ value
  | primaryKey => [80, 82, 73, 77, 65, 82, 89, 32, 75, 69, 89]
  | unique => [85, 78, 73, 81, 85, 69]

def ColumnDefinition.toString (c : ColumnDefinition) : Bytes :=
  c.columnName ++ [32] ++ c.typeName ++
    (if 0 < c.size then
      [40] ++ decimal c.size ++ (if 0 < c.decimals then [44] ++ decimal c.decimals else []) ++ [41]
    else []) ++
    c.constraints.flatMap fun constraint => [32] ++ constraint.toString

/-- Names with ", " between them. -/
def commaList : List Bytes → Bytes
  | [] => []
  | [name] => name
  | name :: names => name ++ [44, 32] ++ commaList names

def TableConstraint.toString (c : TableConstraint) : Bytes :=
  (if 0 < c.name.length then [67, 79, 78, 83, 84, 82, 65, 73, 78, 84, 32] ++ c.name ++ [32] else []) ++
    match c.type with
    | .primaryKey =>
      [80, 82, 73, 77, 65, 82, 89, 32, 75, 69, 89, 32, 40] ++ commaList c.columns ++ [41]
    | .foreignKey =>
      [70, 79, 82, 69, 73, 71, 78, 32, 75, 69, 89, 32, 40] ++ commaList c.columns ++
        [41, 32, 82, 69, 70, 69, 82, 69, 78, 67, 69, 83, 32] ++
        (if 0 < c.referencesSchemaName.length then c.referencesSchemaName ++ [46] else []) ++
        c.referencesTableName ++ [40] ++ commaList c.referencesColumns ++ [41]
    | .unique => [85, 78, 73, 81, 85, 69, 32, 40] ++ commaList c.columns ++ [41]

/-- The loop over the columns, which leaves out those without a name: "BUG in grammar - spurious
table_column_begin event". A column but the first has ", " before it. -/
def columnsToString : Bool → List ColumnDefinition → Bytes
  | _, [] => []
  | first, c :: cs =>
    (if c.columnName.length = 0 then [] else (if first then [] else [44, 32]) ++ c.toString) ++
      columnsToString false cs

def TableDefinition.toString (d : TableDefinition) : Bytes :=
  [67, 82, 69, 65, 84, 69, 32, 84, 65, 66, 76, 69, 32] ++
    (if 0 < d.schemaName.length then d.schemaName ++ [46] else []) ++
    d.tableName ++ [32, 40] ++ columnsToString true d.columnDefinitions ++
    (d.tableConstraints.flatMap fun c => [44, 32] ++ c.toString) ++ [41]

/-- `db_sql_parser_impl`: the statements read and the one that is being read. -/
structure ParserImpl where
  statements : List TableDefinition
  createTableStatement : Option TableDefinition
deriving DecidableEq, Repr

namespace ParserImpl

def reset : ParserImpl := ⟨[], none⟩

/-- A change of the statement that is being read. -/
def modify (f : TableDefinition → TableDefinition) (s : ParserImpl) : ParserImpl :=
  { s with createTableStatement := s.createTableStatement.map f }

/-- A change of the last member of a list, `back()`. -/
def modifyBack {β : Type} (f : β → β) (l : List β) : List β :=
  l.dropLast ++ (l.getLast?.map f).toList

@[simp] theorem modifyBack_append {β : Type} (f : β → β) (l : List β) (x : β) :
    modifyBack f (l ++ [x]) = l ++ [f x] := by
  simp [modifyBack]

def modifyColumn (f : ColumnDefinition → ColumnDefinition) : ParserImpl → ParserImpl :=
  modify fun d => { d with columnDefinitions := modifyBack f d.columnDefinitions }

def modifyConstraint (f : TableConstraint → TableConstraint) : ParserImpl → ParserImpl :=
  modify fun d => { d with tableConstraints := modifyBack f d.tableConstraints }

def pushColumnConstraint (constraint : ColumnConstraint) : ParserImpl → ParserImpl :=
  modifyColumn fun c => { c with constraints := c.constraints ++ [constraint] }

end ParserImpl

def TableDefinition.addColumn (d : TableDefinition) (c : ColumnDefinition) : TableDefinition :=
  { d with columnDefinitions := d.columnDefinitions ++ [c] }

def TableDefinition.addConstraint (d : TableDefinition) (c : TableConstraint) : TableDefinition :=
  { d with tableConstraints := d.tableConstraints ++ [c] }

@[simp] theorem ParserImpl.modifyColumn_addColumn (f : ColumnDefinition → ColumnDefinition)
    (statements : List TableDefinition) (d : TableDefinition) (c : ColumnDefinition) :
    modifyColumn f ⟨statements, some (d.addColumn c)⟩ = ⟨statements, some (d.addColumn (f c))⟩ := by
  simp [modifyColumn, modify, TableDefinition.addColumn]

@[simp] theorem ParserImpl.modifyConstraint_addConstraint (f : TableConstraint → TableConstraint)
    (statements : List TableDefinition) (d : TableDefinition) (c : TableConstraint) :
    modifyConstraint f ⟨statements, some (d.addConstraint c)⟩ = ⟨statements, some (d.addConstraint (f c))⟩ := by
  simp [modifyConstraint, modify, TableDefinition.addConstraint]

end Latypus.Sql
