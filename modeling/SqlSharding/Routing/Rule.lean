import SqlSharding.Routing.Algorithm
import SqlSharding.Routing.DataNode

/-!
# Sharding rules

A table rule says on which data nodes the rows of a logic table lie and how they are spread over them. A sharding rule
holds the table rules, the data sources, and the groups of tables that are spread alike.
-/

namespace SqlSharding.Routing

/-- The elements of a list without those that occurred before. -/
def distinct [DecidableEq α] (xs : List α) : List α :=
  xs.foldl (fun seen x => if x ∈ seen then seen else seen ++ [x]) []

structure TableRule where
  logicTable : String
  dataNodes : List DataNode
  databaseStrategy : Option Strategy
  tableStrategy : Option Strategy
  /-- The column that is filled with a generated key when an INSERT leaves it out. -/
  generatedKeyColumn : Option String

namespace TableRule

/-- A rule for a table, which has to lie somewhere. -/
def of (logicTable : String) (dataNodes : List DataNode) (databaseStrategy tableStrategy : Option Strategy)
    (generatedKeyColumn : Option String) : Outcome TableRule :=
  if dataNodes.isEmpty then .error (.configuration s!"table '{logicTable}' has no data nodes")
  else .ok ⟨logicTable, dataNodes, databaseStrategy, tableStrategy, generatedKeyColumn⟩

/-- The data sources of a table in the order of their first node. -/
def dataSources (t : TableRule) : List String := distinct (t.dataNodes.map (·.dataSource))

/-- The physical tables in a data source. -/
def tablesIn (t : TableRule) (dataSource : String) : List String :=
  (t.dataNodes.filter fun node => node.dataSource = dataSource).map (·.table)

/-- The position of a physical table among those in its data source. -/
def tableIndex? (t : TableRule) (dataSource table : String) : Option Nat := (t.tablesIn dataSource).idxOf? table

/-- The sharding columns of both strategies. -/
def shardingColumns (t : TableRule) : List String :=
  distinct ((t.databaseStrategy.toList ++ t.tableStrategy.toList).flatMap (·.columns))

/-- Narrows targets by a strategy, if there is one. -/
def narrow (t : TableRule) (strategy : Option Strategy) (available : List String) (pins : Pins) :
    Outcome (List String) :=
  strategy.elim (.ok available) fun s => s.shard t.logicTable available pins

/-- The data nodes that can hold rows with the pinned values: the data sources are narrowed first, then the physical
tables in each of them. -/
def route (t : TableRule) (pins : Pins) : Outcome (List DataNode) := do
  let sources ← t.narrow t.databaseStrategy t.dataSources pins
  let nodes ← sources.mapM fun source => do
    let tables ← t.narrow t.tableStrategy (t.tablesIn source) pins
    return tables.map fun table => DataNode.mk source table
  return nodes.flatten

end TableRule

structure Rule where
  dataSources : List String
  defaultDataSource : Option String
  tables : List TableRule
  /-- The names, in lower case, of tables that are spread alike. -/
  bindingGroups : List (List String)

namespace Rule

/-- The rule of some tables, without groups. -/
def ofTables (tables : List TableRule) (defaultDataSource : Option String) : Rule :=
  ⟨distinct (tables.flatMap (·.dataSources) ++ defaultDataSource.toList), defaultDataSource, tables, []⟩

/-- The rule of a logic table, in any letter case. -/
def find? (r : Rule) (logicTable : String) : Option TableRule :=
  r.tables.find? fun t => Text.sameName t.logicTable logicTable

/-- Declares tables that are spread alike; each needs a rule. -/
def bind (r : Rule) (names : List String) : Outcome Rule :=
  match names.find? fun name => (r.find? name).isNone with
  | some name => .error (.configuration s!"binding table '{name}' has no table rule")
  | none => .ok { r with bindingGroups := r.bindingGroups ++ [names.map Text.lower] }

/-- Whether two tables are spread alike. -/
def areBound (r : Rule) (a b : String) : Bool :=
  r.bindingGroups.any fun group => Text.lower a ∈ group && Text.lower b ∈ group

end Rule

end SqlSharding.Routing
