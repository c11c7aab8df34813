import SqlSharding.Sql.Cursor
import SqlSharding.Value

/-!
# Statements

What routing needs to know of a statement: its kind, its tables, the conditions that its rows satisfy, its
pagination, and the places of the text that a rewritten statement changes.
-/

namespace SqlSharding.Sql

/-! ## Tables -/

structure TableRef where
  name : String
  aliasName : Option String
  deriving DecidableEq, Inhabited, Repr

/-- Whether a table goes by the given alias. -/
def TableRef.hasAlias (t : TableRef) (name : String) : Bool := t.aliasName.any (Text.sameName · name)

/-- Whether a table has the given name. -/
def TableRef.hasName (t : TableRef) (name : String) : Bool := Text.sameName t.name name

/-- The tables of a statement in the order of their first occurrence, each name once. -/
structure Tables where
  entries : List TableRef
  deriving DecidableEq, Inhabited, Repr

namespace Tables

def empty : Tables := ⟨[]⟩

/-- Adds an occurrence of a table to a list: a known table keeps its place and its first alias. -/
def insert (t : TableRef) : List TableRef → List TableRef
  | [] => [t]
  | known :: rest =>
    if known.hasName t.name then { known with aliasName := known.aliasName.or t.aliasName } :: rest
    else known :: insert t rest

def add (ts : Tables) (t : TableRef) : Tables := ⟨insert t ts.entries⟩

def isEmpty (ts : Tables) : Bool := ts.entries.isEmpty

def names (ts : Tables) : List String := ts.entries.map (·.name)

/-- The name of the only table. -/
def singleName? (ts : Tables) : Option String :=
  match ts.entries with
  | [t] => some t.name
  | _ => none

def containsName (ts : Tables) (name : String) : Bool := ts.entries.any (·.hasName name)

def containsAlias (ts : Tables) (name : String) : Bool := ts.entries.any (·.hasAlias name)

/-- The table that a column qualifier names: aliases come before table names. -/
def resolveOwner? (ts : Tables) (owner : String) : Option String :=
  ((ts.entries.find? (·.hasAlias owner)).or (ts.entries.find? (·.hasName owner))).map (·.name)

end Tables

/-! ## Conditions -/

/-- A column, with the table or alias that qualifies it. -/
structure Column where
  table : Option String
  name : String
  deriving DecidableEq, Inhabited, Repr

/-- Whether a column can be the named column of the named table. -/
def Column.isOf (c : Column) (table column : String) : Bool :=
  Text.sameName c.name column && c.table.all (Text.sameName · table)

/-- A literal, or a placeholder by its number counted from zero. -/
inductive Operand where
  | literal (v : Value)
  | placeholder (index : Nat)
  deriving DecidableEq, Inhabited, Repr

/-- The value of an operand under the bound parameters. -/
def Operand.resolve (parameters : List Value) : Operand → Outcome Value
  | literal v => .ok v
  | placeholder index => (parameters[index]?).elim (.error (.missingParameter index)) .ok

inductive ConditionOperator where
  | equal
  | isIn
  | between
  deriving DecidableEq, Inhabited, Repr

def ConditionOperator.text : ConditionOperator → String
  | equal => "="
  | isIn => "IN"
  | between => "BETWEEN"

/-- A column with one value, a list of values, or the two bounds of its values. -/
structure Condition where
  column : Column
  operator : ConditionOperator
  values : List Operand
  deriving DecidableEq, Inhabited, Repr

/-- The conditions that every row of a statement satisfies. They are unusable once the statement also asks for rows
that need not satisfy them. -/
structure Conditions where
  entries : List Condition
  usable : Bool
  deriving DecidableEq, Inhabited, Repr

namespace Conditions

def empty : Conditions := ⟨[], true⟩

def add (cs : Conditions) (c : Condition) : Conditions := if cs.usable then ⟨cs.entries ++ [c], true⟩ else cs

def markUnusable (_ : Conditions) : Conditions := ⟨[], false⟩

/-- The first condition on a column of a table. -/
def find? (cs : Conditions) (table column : String) : Option Condition :=
  cs.entries.find? fun c => c.column.isOf table column

/-- The conditions with the qualifiers that name a table replaced by that table. -/
def resolveOwners (cs : Conditions) (ts : Tables) : Conditions :=
  let resolve (owner : String) : String := (ts.resolveOwner? owner).getD owner
  { cs with
    entries := cs.entries.map fun c => { c with column := { c.column with table := c.column.table.map resolve } } }

end Conditions

/-! ## Pagination -/

/-- A bound of the rows that a statement returns: a literal, or a placeholder by its number counted from zero. -/
inductive Bound where
  | literal (n : Int64)
  | placeholder (index : Nat)
  deriving DecidableEq, Inhabited, Repr

/-- The number of a bound under the bound parameters. -/
def Bound.resolve (parameters : List Value) : Bound → Outcome Int64
  | literal n => .ok n
  | placeholder index =>
    match parameters[index]? with
    | none => .error (.missingParameter index)
    | some v =>
      v.toShardingInteger?.elim
        (.error (.invalidRewrite s!"pagination parameter {index} is not an integer: {v.display}")) .ok

/-- How many rows a statement returns and how many it leaves out before them. -/
structure Limit where
  rowCount : Option Bound
  offset : Option Bound
  /-- Whether the bounds may be widened for a part of the rows. -/
  rewritable : Bool
  deriving DecidableEq, Inhabited, Repr

/-- The offset and the row count under the bound parameters. -/
def Limit.resolve (l : Limit) (parameters : List Value) : Outcome (Int64 × Option Int64) := do
  let offset ← l.offset.elim (pure 0) (Bound.resolve parameters)
  let rowCount ← l.rowCount.elim (pure none) fun b => some <$> b.resolve parameters
  return (offset, rowCount)

/-! ## Places to rewrite -/

/-- A place of a statement's text that a rewritten statement changes. -/
inductive RewritePoint where
  /-- The name of a logic table. -/
  | table (span : Span) (name : String) (quote : Option QuoteStyle)
  /-- The literal number of rows to leave out. -/
  | offset (span : Span) (value : Int64)
  /-- The literal number of rows to return. -/
  | rowCount (span : Span) (value : Int64)
  /-- The closing parentheses of the columns and of the values of an INSERT with one row, and the number of
  placeholders before the latter. -/
  | generatedKey (columnsEnd valuesEnd parameterIndex : Nat)
  deriving DecidableEq, Inhabited, Repr

namespace RewritePoint

def ofTable (name : Identifier) : RewritePoint := table name.span name.name name.quote

/-- Where a point begins. -/
def position : RewritePoint → Nat
  | table span _ _ => span.start
  | offset span _ => span.start
  | rowCount span _ => span.start
  | generatedKey columnsEnd _ _ => columnsEnd

end RewritePoint

/-! ## Statements -/

structure Statement where
  kind : StatementKind
  tables : Tables
  conditions : Conditions
  /-- In the order of their positions once the statement is complete. -/
  points : List RewritePoint
  /-- The number of placeholders. -/
  parameterCount : Nat
  limit : Option Limit
  insertColumns : List String
  insertRows : Nat
  /-- The column qualifiers met so far. Whether they name tables is known only at the end. -/
  qualifiers : List Identifier
  deriving DecidableEq, Inhabited, Repr

namespace Statement

def ofKind (kind : StatementKind) : Statement :=
  ⟨kind, .empty, .empty, [], 0, none, [], 0, []⟩

/-- Records a table with the place of its name. -/
def addTable (s : Statement) (name : Identifier) (aliasName : Option String) : Statement :=
  { s with tables := s.tables.add ⟨name.name, aliasName⟩, points := s.points ++ [.ofTable name] }

def addQualifier (s : Statement) (owner : Identifier) : Statement := { s with qualifiers := s.qualifiers ++ [owner] }

def addCondition (s : Statement) (c : Condition) : Statement := { s with conditions := s.conditions.add c }

def addPoint (s : Statement) (p : RewritePoint) : Statement := { s with points := s.points ++ [p] }

def hasInsertColumn (s : Statement) (column : String) : Bool := s.insertColumns.any (Text.sameName · column)

/-- Where a generated key can be added: columns, values, and placeholders before the values' end. -/
def generatedKeyPoint? (s : Statement) : Option (Nat × Nat × Nat) :=
  s.points.findSome? fun
    | .generatedKey columnsEnd valuesEnd parameterIndex => some (columnsEnd, valuesEnd, parameterIndex)
    | _ => none

/-- Drops an element that equals the one before it. -/
def dropRepeated [DecidableEq α] : List α → List α
  | [] => []
  | [x] => [x]
  | x :: y :: rest => if x = y then dropRepeated (y :: rest) else x :: dropRepeated (y :: rest)

/-- Points in the order of their positions, none of them twice. -/
def sortPoints (points : List RewritePoint) : List RewritePoint :=
  dropRepeated (points.mergeSort fun p q => p.position ≤ q.position)

/-- Completes a statement: a qualifier that names a table and is no alias becomes a place to rewrite, and the
qualifiers of the conditions become table names. -/
def finish (s : Statement) (parameterCount : Nat) : Statement :=
  let owners := s.qualifiers.filter fun q => !s.tables.containsAlias q.name && s.tables.containsName q.name
  { s with
    parameterCount
    qualifiers := []
    conditions := s.conditions.resolveOwners s.tables
    points := sortPoints (s.points ++ owners.map .ofTable) }

end Statement

end SqlSharding.Sql
