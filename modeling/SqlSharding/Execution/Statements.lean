import SqlSharding.Execution.Engine
import SqlSharding.Routing.Route

/-!
# Statements on several units

The ways of running a routed statement: as a query, as an update, as either of them, or as a batch. Each says what
becomes of the units' values.
-/

namespace SqlSharding.Execution

open Physical (Backend GeneratedKeys ResultSet)
open Routing (ExecutionUnit)
open Engine (Action)

variable (b : Backend)

/-- The result sets of the units that did not fail. -/
def query (context : Context) (units : List StatementUnit) : Action (List ResultSet) := do
  let results ← Engine.execute b context units fun _ u => b.queryOn u.connection u.sql u.parameters
  return results.filterMap id

/-- The number of rows that all units affected; a unit that failed counts as none. -/
def update (context : Context) (units : List StatementUnit) (keys : GeneratedKeys) : Action Nat := do
  let counts ← Engine.execute b context units fun _ u => b.updateOn u.connection u.sql u.parameters keys
  return (counts.map (·.getD 0)).foldl (· + ·) 0

/-- Whether the first unit returned rows. -/
def execute (context : Context) (units : List StatementUnit) : Action Bool := do
  let results ← Engine.execute b context units fun _ u => b.executeOn u.connection u.sql u.parameters
  return (results.head?.bind id).getD false

/-! ## Batches -/

/-- The parameter sets of a batch that run as the same statement at the same data source. -/
structure BatchGroup where
  dataSource : String
  sql : String
  parameterSets : List (List Value)
  /-- The batch entry of each parameter set. -/
  batchIndexes : List Nat
  deriving DecidableEq, Inhabited, Repr

/-- Adds a unit of a batch entry to its group, which is a new one if there is none yet. -/
def addToGroup (groups : List BatchGroup) (entry : Nat) (u : ExecutionUnit) : List BatchGroup :=
  match groups with
  | [] => [⟨u.dataSource, u.sql, [u.parameters], [entry]⟩]
  | g :: rest =>
    if g.dataSource = u.dataSource && g.sql = u.sql then
      { g with parameterSets := g.parameterSets ++ [u.parameters], batchIndexes := g.batchIndexes ++ [entry] } :: rest
    else g :: addToGroup rest entry u

/-- The groups of a batch, given the units of each entry, in the order in which they first occur. -/
def groupBatch (entries : List (List ExecutionUnit)) : List BatchGroup :=
  entries.zipIdx.foldl (fun groups (units, entry) => units.foldl (addToGroup · entry ·) groups) []

/-- Adds the counts of parameter sets to the totals of their entries. -/
def credit (totals : List Nat) (counts : List (Nat × Nat)) : List Nat :=
  counts.foldl (fun totals (entry, count) => totals.modify entry (· + count)) totals

/-- The number of rows that each entry of a batch affected, on all units together. -/
def batch (context : Context) (units : List StatementUnit) (entries : Nat) : Action (List Nat) := do
  let results ← Engine.execute b context units fun _ u => b.batchOn u.connection u.sql u.parameterSets
  return (units.zip results).foldl (fun totals (u, counts) => credit totals (u.batchIndexes.zip (counts.getD [])))
    (List.replicate entries 0)

end SqlSharding.Execution
