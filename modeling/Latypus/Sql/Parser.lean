import Latypus.Lib.Pattern
import Latypus.Sql.Model

/-! The parser of db_sql_parser.rl: its machine, definition by definition, and the execution of the
machine with the handlers of db_sql_parser_impl.cc. Actions on one symbol are executed in the order
of the grammar: those of what is entered from the outside in, those of what is left from the inside
out. -/

namespace Latypus.Sql
open Http (Bytes atoi bytesAt isAlpha isDigit)
open Lib Lib.Pattern

/-- Classes of bytes; `letter` is a capital letter in either case. -/
inductive ByteClass where
  | letter (c : UInt8)
  | byte (c : UInt8)
  | notByte (c : UInt8)
  | ws
  | alpha
  | digit
  | word
deriving DecidableEq, Repr

def isWord (c : UInt8) : Bool := isDigit c || isAlpha c || c == 95

def ByteClass.has : ByteClass → UInt8 → Bool
  | letter u, c => c == u || c == u + 32
  | byte b, c => c == b
  | notByte b, c => c != b
  | ws, c => c == 32 || c == 9 || c == 10
  | alpha, c => isAlpha c
  | digit, c => isDigit c
  | word, c => isWord c

/-- The actions of the machine, in the order in which they are executed on one symbol. -/
inductive Action where
  | statementBegin
  | tableBegin
  | tableColumnBegin
  | tokenStart
  | tableConstraintBegin
  | tableConstraintForeignKey
  | tableConstraintPrimaryKey
  | tableConstraintUnique
  | tableSchemaName
  | tableName
  | tableColumnTypeName
  | tableColumnTypeSize
  | tableColumnTypeDecimals
  | tableColumnName
  | tableColumnDefaultValue
  | tableColumnConstraintNull
  | tableColumnConstraintNotNull
  | tableColumnConstraintPrimaryKey
  | tableColumnConstraintUnique
  | tableConstraintReferencesSchemaName
  | tableConstraintReferencesTableName
  | tableConstraintReferencesColumnName
  | tableConstraintColumnName
  | tableConstraintName
  | tableEnd
  | statementEnd
  | done
deriving DecidableEq, Repr

def Action.order : List Action := [
  statementBegin, tableBegin, tableColumnBegin, tokenStart, tableConstraintBegin,
  tableConstraintForeignKey, tableConstraintPrimaryKey, tableConstraintUnique, tableSchemaName, tableName,
  tableColumnTypeName, tableColumnTypeSize, tableColumnTypeDecimals, tableColumnName,
  tableColumnDefaultValue, tableColumnConstraintNull, tableColumnConstraintNotNull,
  tableColumnConstraintPrimaryKey, tableColumnConstraintUnique, tableConstraintReferencesSchemaName,
  tableConstraintReferencesTableName, tableConstraintReferencesColumnName, tableConstraintColumnName,
  tableConstraintName, tableEnd, statementEnd, done]

abbrev Pat := Pattern ByteClass UInt8 Action

namespace Grammar

/-- A word in either case, given in capital letters. -/
def letters (w : Bytes) : List ByteClass := w.map ByteClass.letter

def keyword (w : Bytes) : Pat := cat ((letters w).map sym)

def byte (c : UInt8) : Pat := sym (.byte c)

def ws : Pat := sym .ws

def CREATE : Bytes := [67, 82, 69, 65, 84, 69]
def DROP : Bytes := [68, 82, 79, 80]
def TEMP : Bytes := [84, 69, 77, 80]
def TEMPORARY : Bytes := [84, 69, 77, 80, 79, 82, 65, 82, 89]
def TABLE : Bytes := [84, 65, 66, 76, 69]
def DEFAULT : Bytes := [68, 69, 70, 65, 85, 76, 84]
def NULL : Bytes := [78, 85, 76, 76]
def NOT : Bytes := [78, 79, 84]
def FOREIGN : Bytes := [70, 79, 82, 69, 73, 71, 78]
def PRIMARY : Bytes := [80, 82, 73, 77, 65, 82, 89]
def KEY : Bytes := [75, 69, 89]
def CONSTRAINT : Bytes := [67, 79, 78, 83, 84, 82, 65, 73, 78, 84]
def UNIQUE : Bytes := [85, 78, 73, 81, 85, 69]
def REFERENCES : Bytes := [82, 69, 70, 69, 82, 69, 78, 67, 69, 83]

def reserved : List (List ByteClass) :=
  [CREATE, DROP, TEMP, TEMPORARY, TABLE, DEFAULT, NULL, PRIMARY, FOREIGN, KEY, CONSTRAINT, UNIQUE,
    REFERENCES].map letters

def NOT_NULL : Pat := cat [keyword NOT, plus ws, keyword NULL]
def PRIMARY_KEY : Pat := cat [keyword PRIMARY, plus ws, keyword KEY]
def FOREIGN_KEY : Pat := cat [keyword FOREIGN, plus ws, keyword KEY]

/-- `--` is the strong difference: no reserved word occurs anywhere in an identifier. -/
def Identifier : Pat :=
  avoid (alt (seq (sym .alpha) (star (sym .word)))
    (cat [byte 96, star (sym (.notByte 96)), byte 96])) []

def Value : Pat := cat [byte 39, star (sym (.notByte 39)), byte 39]
def Digits : Pat := plus (sym .digit)

/-- A part of the input that an action is called with. -/
def token (a : Action) (r : Pat) : Pat := leave a (enter .tokenStart r)

def TableSchemaName : Pat := token .tableSchemaName Identifier
def TableName : Pat := seq (opt (seq TableSchemaName (byte 46))) (token .tableName Identifier)
def TableColumnDataTypeName : Pat := token .tableColumnTypeName Identifier
def TableColumnDataTypeQualifierSize : Pat := token .tableColumnTypeSize Digits
def TableColumnDataTypeQualifierDecimals : Pat := token .tableColumnTypeDecimals Digits
def TableColumnDataTypeQualifier : Pat :=
  seq TableColumnDataTypeQualifierSize
    (opt (cat [star ws, byte 44, star ws, TableColumnDataTypeQualifierDecimals]))
def TableColumnDataType : Pat :=
  seq TableColumnDataTypeName
    (opt (cat [star ws, byte 40, star ws, TableColumnDataTypeQualifier, star ws, byte 41, star ws]))
def TableColumnName : Pat := token .tableColumnName Identifier

def TableColumnDefaultValue : Pat := token .tableColumnDefaultValue (alt Value (keyword NULL))
def TableColumnConstraintDefault : Pat := cat [keyword DEFAULT, plus ws, TableColumnDefaultValue]
def TableColumnConstraintNull : Pat := leave .tableColumnConstraintNull (keyword NULL)
def TableColumnConstraintNotNull : Pat := leave .tableColumnConstraintNotNull NOT_NULL
def TableColumnConstraintPrimaryKey : Pat := leave .tableColumnConstraintPrimaryKey PRIMARY_KEY
def TableColumnConstraintUnique : Pat := leave .tableColumnConstraintUnique (keyword UNIQUE)
def TableColumnConstraints : Pat :=
  alt TableColumnConstraintNotNull (alt TableColumnConstraintNull (alt TableColumnConstraintPrimaryKey
    (alt TableColumnConstraintUnique TableColumnConstraintDefault)))
def TableColumnDefinition : Pat :=
  cat [TableColumnName, plus ws, TableColumnDataType, star (seq (plus ws) TableColumnConstraints)]

/-- One or more of something, with commas between them. -/
def commaSeparated (r : Pat) : Pat := seq r (star (cat [star ws, byte 44, star ws, r]))

def TableConstraintReferencesSchemaName : Pat := token .tableConstraintReferencesSchemaName Identifier
def TableConstraintReferencesTableName : Pat :=
  seq (opt (seq TableConstraintReferencesSchemaName (byte 46)))
    (token .tableConstraintReferencesTableName Identifier)
def TableConstraintReferencesColumnName : Pat := token .tableConstraintReferencesColumnName Identifier
def TableConstraintReferencesDefinition : Pat :=
  cat [keyword REFERENCES, plus ws, TableConstraintReferencesTableName, star ws, byte 40, star ws,
    commaSeparated TableConstraintReferencesColumnName, star ws, byte 41]
def TableConstraintColumnName : Pat := token .tableConstraintColumnName Identifier
/-- The columns that a constraint is about, in parentheses. -/
def constraintColumns : List Pat :=
  [star ws, byte 40, star ws, commaSeparated TableConstraintColumnName, star ws, byte 41]
def TableConstraintForeignKey : Pat :=
  enter .tableConstraintForeignKey
    (cat (FOREIGN_KEY :: constraintColumns ++ [star ws, TableConstraintReferencesDefinition]))
def TableConstraintPrimaryKey : Pat :=
  enter .tableConstraintPrimaryKey (cat (PRIMARY_KEY :: constraintColumns))
def TableConstraintUnique : Pat :=
  enter .tableConstraintUnique (cat (keyword UNIQUE :: constraintColumns))
def TableConstraints : Pat :=
  alt TableConstraintPrimaryKey (alt TableConstraintUnique TableConstraintForeignKey)
def TableConstraintName : Pat := token .tableConstraintName Identifier
def TableConstraint : Pat :=
  enter .tableConstraintBegin
    (seq (opt (cat [keyword CONSTRAINT, plus ws, TableConstraintName, plus ws])) TableConstraints)

def TableElement : Pat := enter .tableColumnBegin TableColumnDefinition
def TableElementList : Pat :=
  cat [byte 40, star ws, TableElement, star (cat [star ws, byte 44, star ws, TableElement]),
    star (cat [star ws, byte 44, star ws, TableConstraint]), star ws, byte 41]

def CreateTableStatement : Pat :=
  leave .tableEnd (enter .tableBegin
    (cat [keyword CREATE, plus ws, opt (seq (alt (keyword TEMP) (keyword TEMPORARY)) (plus ws)),
      keyword TABLE, plus ws, TableName, star ws, TableElementList]))

def SchemaDefinitionStatement : Pat := CreateTableStatement
def Statement : Pat := leave .statementEnd (enter .statementBegin SchemaDefinitionStatement)

def SQL : Pat :=
  leave .done (cat [star ws, Statement, star ws, star (cat [byte 59, star ws, Statement, star ws]),
    opt (byte 59)])

end Grammar

def dequote (value : Bytes) : Bytes :=
  if 2 ≤ value.length ∧ value[0]? = some 96 ∧ value[value.length - 1]? = some 96 then
    (value.drop 1).take (value.length - 2)
  else value

/-- The parser: the readings of what it has seen, `tok` as a position, and the state of the
handlers. -/
structure Parser where
  readings : List (List Pat)
  tok : Nat
  impl : ParserImpl
deriving DecidableEq

open ParserImpl in
/-- The handler of an action that is called with the text of a token, or with none. -/
def handle (token : Bytes) (s : ParserImpl) : Action → ParserImpl
  | .statementBegin | .statementEnd | .done | .tokenStart => s
  | .tableBegin => { s with createTableStatement := some .new }
  | .tableSchemaName => modify (fun d => { d with schemaName := dequote token }) s
  | .tableName => modify (fun d => { d with tableName := dequote token }) s
  | .tableColumnBegin => modify (fun d => { d with columnDefinitions := d.columnDefinitions ++ [.new] }) s
  | .tableColumnName => modifyColumn (fun c => { c with columnName := dequote token }) s
  | .tableColumnTypeName => modifyColumn (fun c => { c with typeName := token }) s
  | .tableColumnTypeSize => modifyColumn (fun c => { c with size := atoi token }) s
  | .tableColumnTypeDecimals => modifyColumn (fun c => { c with decimals := atoi token }) s
  | .tableColumnDefaultValue => pushColumnConstraint (.default token) s
  | .tableColumnConstraintNull => pushColumnConstraint .null s
  | .tableColumnConstraintNotNull => pushColumnConstraint .notNull s
  | .tableColumnConstraintPrimaryKey => pushColumnConstraint .primaryKey s
  | .tableColumnConstraintUnique => pushColumnConstraint .unique s
  | .tableConstraintBegin => modify (fun d => { d with tableConstraints := d.tableConstraints ++ [.new] }) s
  | .tableConstraintName => modifyConstraint (fun c => { c with name := dequote token }) s
  | .tableConstraintPrimaryKey => modifyConstraint (fun c => { c with type := .primaryKey }) s
  | .tableConstraintForeignKey => modifyConstraint (fun c => { c with type := .foreignKey }) s
  | .tableConstraintUnique => modifyConstraint (fun c => { c with type := .unique }) s
  | .tableConstraintColumnName => modifyConstraint (fun c => { c with columns := c.columns ++ [dequote token] }) s
  | .tableConstraintReferencesSchemaName =>
    modifyConstraint (fun c => { c with referencesSchemaName := dequote token }) s
  | .tableConstraintReferencesTableName =>
    modifyConstraint (fun c => { c with referencesTableName := dequote token }) s
  | .tableConstraintReferencesColumnName =>
    modifyConstraint (fun c => { c with referencesColumns := c.referencesColumns ++ [dequote token] }) s
  | .tableEnd => ⟨s.statements ++ s.createTableStatement.toList, none⟩

/-- The actions of all readings, each executed once. -/
def inOrder (as : List Action) : List Action := Action.order.filter (· ∈ as)

/-- One action with the cursor at `p`. -/
def action (buffer : Bytes) (p : Nat) (s : Parser) : Action → Parser
  | .tokenStart => { s with tok := p }
  | a => { s with impl := handle (bytesAt buffer ⟨some s.tok, p - s.tok⟩) s.impl a }

/-- `execute` of the rest of a buffer with the cursor at `p`, with the actions at its end. The machine
is in its error state when it has no reading left. -/
def execute (buffer : Bytes) : Bytes → Nat → Parser → Parser
  | [], p, s => (inOrder (s.readings.filterMap finish).flatten).foldl (action buffer p) s
  | c :: rest, p, s =>
    let next := moves ByteClass.has Grammar.reserved s.readings c
    let s := (inOrder (next.flatMap Prod.fst)).foldl (action buffer p) { s with readings := next.map Prod.snd }
    if s.readings = [] then s else execute buffer rest (p + 1) s

/-- The statements that a parser has read after one finished call. -/
def parse (buffer : Bytes) : List TableDefinition :=
  (execute buffer buffer 0 ⟨[[Grammar.SQL]], 0, .reset⟩).impl.statements

end Latypus.Sql
