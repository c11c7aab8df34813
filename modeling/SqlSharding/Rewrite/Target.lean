import SqlSharding.Rewrite.Edit
import SqlSharding.Sql.Statement

/-!
# Rewriting a statement

The places that reading a statement recorded become edits: logic tables get physical names, literal pagination bounds
get new numbers, and a generated key is added to a row. Where the statement has parameters the key is bound as
one more parameter, otherwise it is written as a literal.
-/

namespace SqlSharding.Rewrite

open Sql (RewritePoint)

/-- A key made for a row, with the column that it fills. -/
structure GeneratedKey where
  column : String
  value : Value
  deriving DecidableEq, Inhabited, Repr

/-- What the places of a statement are rewritten to. -/
structure Target where
  /-- The physical names of logic tables, the latest first. -/
  tables : List (String × String)
  rowCount : Option Int64
  offset : Option Int64
  generatedKey : Option GeneratedKey
  deriving DecidableEq, Inhabited, Repr

namespace Target

/-- Changes nothing. -/
def empty : Target := ⟨[], none, none, none⟩

def insertTable (t : Target) (logic physical : String) : Target := { t with tables := (logic, physical) :: t.tables }

/-- The physical name of a logic table, in any letter case. -/
def physicalTable? (t : Target) (logic : String) : Option String :=
  (t.tables.find? fun entry => Text.sameName entry.1 logic).map (·.2)

/-- The edits of one place. A place without a new content gives none. -/
def editsAt (t : Target) (usesPlaceholder : Bool) : RewritePoint → List Edit
  | .table span name quote =>
    (t.physicalTable? name).toList.map fun physical => ⟨span, quote.elim physical (·.quote physical)⟩
  | .offset span _ => t.offset.toList.map fun n => ⟨span, toString n.toInt⟩
  | .rowCount span _ => t.rowCount.toList.map fun n => ⟨span, toString n.toInt⟩
  | .generatedKey columnsEnd valuesEnd _ =>
    t.generatedKey.toList.flatMap fun key =>
      let value := if usesPlaceholder then "?" else key.value.toSqlLiteral
      [.insertion columnsEnd (", " ++ key.column), .insertion valuesEnd (", " ++ value)]

/-- Whether an edit may stand before another one. -/
def precedes (e f : Edit) : Bool :=
  e.span.start < f.span.start || (e.span.start = f.span.start && e.span.finish ≤ f.span.finish)

/-- The edits of all places, in the order of the text. -/
def edits (t : Target) (usesPlaceholder : Bool) (points : List RewritePoint) : List Edit :=
  (points.flatMap (t.editsAt usesPlaceholder)).mergeSort precedes

/-- The number of placeholders before the place of a generated key. -/
def keySlot? (points : List RewritePoint) : Option Nat :=
  points.findSome? fun
    | .generatedKey _ _ parameterIndex => some parameterIndex
    | _ => none

/-- The parameters with the generated key among them. -/
def bindKey (t : Target) (points : List RewritePoint) (parameters : List Value) : List Value :=
  match keySlot? points, t.generatedKey with
  | some slot, some key => parameters.take slot ++ key.value :: parameters.drop slot
  | _, _ => parameters

end Target

/-- A rewritten statement with its parameters. -/
structure BoundSql where
  sql : String
  parameters : List Value
  deriving DecidableEq, Inhabited, Repr

/-- Rewrites a statement for a target. -/
def rewrite (sql : String) (points : List RewritePoint) (t : Target) (parameters : List Value) : Outcome BoundSql := do
  let usesPlaceholder := !parameters.isEmpty
  let rewritten ← applyEdits sql (t.edits usesPlaceholder points)
  return ⟨rewritten, if usesPlaceholder then t.bindKey points parameters else parameters⟩

/-- Rewrites a statement for a target with the generated key as a literal. -/
def rewritePlain (sql : String) (points : List RewritePoint) (t : Target) : Outcome String :=
  applyEdits sql (t.edits false points)

end SqlSharding.Rewrite
