import SqlSharding.Rewrite.Target
import SqlSharding.Routing.KeySource
import SqlSharding.Routing.Rule

/-!
# Routes

A statement with its parameters becomes one unit for each combination of physical tables that it has to run on. The first
ruled table of the statement decides the data sources; tables that are spread alike follow it, and all others are
combined with it inside each data source. When there are several units each of them returns enough rows for the
pagination of the whole.
-/

namespace SqlSharding.Routing

open Sql (Statement Condition Bound)
open Rewrite (Target GeneratedKey)

/-- A statement for one data source. -/
structure ExecutionUnit where
  dataSource : String
  sql : String
  parameters : List Value
  deriving DecidableEq, Inhabited, Repr

/-- The pagination of a whole statement, to be applied to the merged rows of its units. -/
structure Pagination where
  offset : Int64
  rowCount : Option Int64
  deriving DecidableEq, Inhabited, Repr

structure RouteResult where
  kind : Sql.StatementKind
  units : List ExecutionUnit
  pagination : Option Pagination
  generatedKey : Option Value
  deriving DecidableEq, Inhabited, Repr

/-! ## Pins -/

/-- What a condition pins its column to. -/
def conditionPin (parameters : List Value) (c : Condition) : Outcome Pin := do
  let values ← c.values.mapM (·.resolve parameters)
  match c.operator, values with
  | .isIn, values => return .list values
  | .equal, [v] => return .single v
  | .between, [lower, upper] => return .range lower upper
  | operator, values =>
    throw (.internal s!"{operator.text} condition on '{c.column.name}' has {values.length} values")

/-- Adds the pin of a column, if the statement has a condition on it. -/
def pinColumn (t : TableRule) (s : Statement) (parameters : List Value) (pins : Pins) (column : String) :
    Outcome Pins :=
  match s.conditions.find? t.logicTable column with
  | none => .ok pins
  | some c => do return Named.insert column (← conditionPin parameters c) pins

/-- The pins of a table's sharding columns. A generated key pins its column. -/
def pinsOf (t : TableRule) (s : Statement) (parameters : List Value) (key : Option GeneratedKey) : Outcome Pins :=
  t.shardingColumns.foldlM (fun pins column =>
    match key with
    | some key =>
      if Text.sameName key.column column then .ok (Named.insert column (.single key.value) pins)
      else pinColumn t s parameters pins column
    | none => pinColumn t s parameters pins column) []

/-! ## Assignments -/

/-- The physical tables of the logic tables of one unit. -/
abbrev Assignment := List (String × String)

/-- The assignments in each data source, in the order of the data sources' names. -/
abbrev Assignments := Named (List Assignment)

/-- Adds an assignment in a data source. -/
def addAssignment (assigned : Assignments) (dataSource : String) (a : Assignment) : Assignments :=
  Named.insert dataSource ((assigned.get? dataSource).getD [] ++ [a]) assigned

/-- The assignments of a single table to its nodes. -/
def assignNodes (t : TableRule) (nodes : List DataNode) : Assignments :=
  nodes.foldl (fun assigned node => addAssignment assigned node.dataSource [(t.logicTable, node.table)]) []

/-- The physical table of a bound table beside one of the primary table: the one at the same position. -/
def counterpart (primary bound : TableRule) (dataSource : String) (a : Assignment) : Outcome String :=
  let physical := (a.head?.map (·.2)).getD ""
  let found := (primary.tableIndex? dataSource physical).bind fun i => (bound.tablesIn dataSource)[i]?
  found.elim
    (.error (.configuration
      s!"binding table '{bound.logicTable}' has no counterpart of '{physical}' in '{dataSource}'")) .ok

/-- Gives every assignment the counterpart of its primary table. -/
def followPrimary (primary bound : TableRule) (assigned : Assignments) : Outcome Assignments :=
  assigned.mapM fun (dataSource, as) => do
    let extended ← as.mapM fun a => do
      return a ++ [(bound.logicTable, ← counterpart primary bound dataSource a)]
    return (dataSource, extended)

/-- Combines the assignments in each data source with a table's nodes there. Data sources without one drop out. -/
def combineNodes (t : TableRule) (nodes : List DataNode) (assigned : Assignments) : Assignments :=
  (assigned.map fun (dataSource, as) =>
    let tables := (nodes.filter fun node => node.dataSource = dataSource).map (·.table)
    (dataSource, as.flatMap fun a => tables.map fun table => a ++ [(t.logicTable, table)])).filter
      fun entry => !entry.2.isEmpty

/-- Adds a further table to the assignments. -/
def addTable (r : Rule) (primary : TableRule) (s : Statement) (parameters : List Value) (assigned : Assignments)
    (t : TableRule) : Outcome Assignments :=
  if r.areBound primary.logicTable t.logicTable then followPrimary primary t assigned
  else do
    let nodes ← t.route (← pinsOf t s parameters none)
    return combineNodes t nodes assigned

/-! ## Pagination -/

/-- The bounds that every unit of a statement gets. -/
structure WidenedBounds where
  pagination : Option Pagination
  parameters : List Value
  target : Target

/-- Puts a number in the place of a bound: a literal is rewritten, a placeholder gets another parameter. -/
def replaceBound (rewritten : Target → Int64 → Target) (w : WidenedBounds) (b : Bound) (n : Int64) : WidenedBounds :=
  match b with
  | .literal _ => { w with target := rewritten w.target n }
  | .placeholder index => { w with parameters := w.parameters.set index (.integer n) }

/-- Makes a unit return the rows before the offset too. -/
def widen (limit : Sql.Limit) (p : Pagination) (w : WidenedBounds) : WidenedBounds :=
  let w := limit.offset.elim w fun b => replaceBound (fun t n => { t with offset := some n }) w b 0
  match limit.rowCount, p.rowCount with
  | some b, some n =>
    replaceBound (fun t n => { t with rowCount := some n }) w b (clampInt64 (p.offset.toInt + n.toInt))
  | _, _ => w

/-- The pagination of a statement. It is widened only for several units. -/
def paginate (s : Statement) (unitCount : Nat) (parameters : List Value) : Outcome WidenedBounds :=
  match s.limit with
  | none => .ok ⟨none, parameters, .empty⟩
  | some limit =>
    if !limit.rewritable then .ok ⟨none, parameters, .empty⟩
    else do
      let (offset, rowCount) ← limit.resolve parameters
      let p : Pagination := ⟨offset, rowCount⟩
      let unchanged : WidenedBounds := ⟨some p, parameters, .empty⟩
      return if 1 < unitCount then widen limit p unchanged else unchanged

/-! ## Routes -/

/-- The rules of a statement's tables, in the order of the statement. -/
def ruledTables (r : Rule) (s : Statement) : List TableRule := s.tables.names.filterMap r.find?

/-- The column that is filled with a generated key: an INSERT of one row leaves out the key column of its first ruled
table. -/
def keyColumn? (r : Rule) (s : Statement) : Option String :=
  if s.kind = .insert && s.generatedKeyPoint?.isSome then
    match ruledTables r s with
    | primary :: _ => primary.generatedKeyColumn.filter fun column => !s.hasInsertColumn column
    | [] => none
  else none

/-- A statement without a ruled table goes to the default data source as it is. -/
def routeToDefault (r : Rule) (s : Statement) (sql : String) (parameters : List Value) : Outcome RouteResult :=
  match r.defaultDataSource with
  | some source => .ok ⟨s.kind, [⟨source, sql, parameters⟩], none, none⟩
  | none => .error (.noShardingRule (s.tables.names.head?.getD ""))

/-- The unit of an assignment. -/
def unitOf (s : Statement) (sql : String) (w : WidenedBounds) (dataSource : String) (a : Assignment) :
    Outcome ExecutionUnit := do
  let target := a.foldl (fun (t : Target) (logic, physical) => t.insertTable logic physical) w.target
  let bound ← Rewrite.rewrite sql s.points target w.parameters
  return ⟨dataSource, bound.sql, bound.parameters⟩

/-- Routes a statement that was read from the given text. The key is the one that its source hands out next; it is
used only if the statement leaves out a key column. -/
def route (r : Rule) (s : Statement) (sql : String) (parameters : List Value) (key : Value) : Outcome RouteResult :=
  match ruledTables r s with
  | [] => routeToDefault r s sql parameters
  | primary :: others => do
    if s.kind = .insert && 1 < s.insertRows then
      throw (.unsupported s!"multi-row INSERT into sharded table '{primary.logicTable}'")
    let generated := (keyColumn? r s).map fun column => GeneratedKey.mk column key
    let nodes ← primary.route (← pinsOf primary s parameters generated)
    let assigned ← others.foldlM (addTable r primary s parameters) (assignNodes primary nodes)
    let flat := assigned.flatMap fun (dataSource, as) => as.map (dataSource, ·)
    let widened ← paginate s flat.length parameters
    let w := { widened with target := { widened.target with generatedKey := generated } }
    let units ← flat.mapM fun (dataSource, a) => unitOf s sql w dataSource a
    return ⟨s.kind, units, w.pagination, generated.map (·.value)⟩

end SqlSharding.Routing
