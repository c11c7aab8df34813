import SqlSharding.Json.Decode
import SqlSharding.Routing.InlineList
import SqlSharding.Routing.Rule

/-!
# Configurations

A sharding rule as plain data, which is read from a JSON text and written to one. Building the rule expands the
inline lists of data nodes and finds the expressions by their names.
-/

namespace SqlSharding.Routing

/-! ## The data -/

inductive AlgorithmConfig where
  | modulo (shardCount : Option Nat)
  | ranges (entries : List RangeEntry)
  | lookup (entries : Named String)
  | expression (name : String)
  deriving DecidableEq, Inhabited, Repr

structure StrategyConfig where
  shardingColumns : List String
  algorithm : AlgorithmConfig
  deriving DecidableEq, Inhabited, Repr

structure TableConfig where
  logicTable : String
  /-- The data nodes as an inline list. Without them the table lies under its own name in every data source. -/
  actualDataNodes : Option String
  databaseStrategy : Option StrategyConfig
  tableStrategy : Option StrategyConfig
  generatedKeyColumn : Option String
  deriving DecidableEq, Inhabited, Repr

structure Configuration where
  /-- The data source of statements without a ruled table. -/
  defaultDataSource : Option String
  dataSources : List String
  tables : List TableConfig
  bindingTables : List (List String)
  defaultDatabaseStrategy : Option StrategyConfig
  defaultTableStrategy : Option StrategyConfig
  deriving DecidableEq, Inhabited, Repr

/-! ## Reading and writing -/

def RangeEntry.ofJson? (j : Json) : Option RangeEntry := do
  let [lower, upper, target] ← j.recordMembers? ["lower", "upper", "target"] | none
  return ⟨← Json.required? Json.toInt64? lower, ← Json.required? Json.toInt64? upper,
    ← Json.required? Json.toString? target⟩

def RangeEntry.toJson (e : RangeEntry) : Json :=
  .object [("lower", .ofInt e.lower.toInt), ("upper", .ofInt e.upper.toInt), ("target", .string e.target)]

namespace AlgorithmConfig

/-- An algorithm is a record that names its kind. Here and below, `outer` is the number of arrays and objects around
the value. -/
def ofJson? (outer : Nat) (j : Json) : Option AlgorithmConfig := do
  let (kind, data) ← j.tagged? "type" outer
  match kind with
  | "modulo" => do
    let [shardCount] ← data.recordMembers? ["shard_count"] | none
    return modulo (← Json.orDefault? none (Json.toOption? (Json.toNatBelow? 4294967296)) shardCount)
  | "range" => do
    let [entries] ← data.recordMembers? ["ranges"] | none
    return ranges (← Json.required? (Json.toList? RangeEntry.ofJson?) entries)
  | "lookup" => do
    let [table] ← data.recordMembers? ["entries"] | none
    return lookup (.ofList (← Json.required? (Json.toEntries? Json.toString?) table))
  | "expression" => do
    let [name] ← data.recordMembers? ["name"] | none
    return expression (← Json.required? Json.toString? name)
  | _ => none

def toJson : AlgorithmConfig → Json
  | modulo shardCount => .object [("type", .string "modulo"), ("shard_count", .ofOption .ofNat shardCount)]
  | ranges entries => .object [("type", .string "range"), ("ranges", .array (entries.map RangeEntry.toJson))]
  | lookup entries =>
    .object [("type", .string "lookup"), ("entries", .object (entries.map fun (key, t) => (key, .string t)))]
  | expression name => .object [("type", .string "expression"), ("name", .string name)]

end AlgorithmConfig

namespace StrategyConfig

def ofJson? (outer : Nat) (j : Json) : Option StrategyConfig := do
  let [columns, algorithm] ← j.recordMembers? ["sharding_columns", "algorithm"] | none
  return ⟨← Json.required? (Json.toList? Json.toString?) columns,
    ← Json.required? (AlgorithmConfig.ofJson? (outer + 1)) algorithm⟩

def toJson (s : StrategyConfig) : Json :=
  .object [("sharding_columns", .ofStrings s.shardingColumns), ("algorithm", s.algorithm.toJson)]

/-- A member that may be absent or null. -/
def optional? (outer : Nat) (member : Option Json) : Option (Option StrategyConfig) :=
  Json.orDefault? none (Json.toOption? (ofJson? outer)) member

end StrategyConfig

/-- A text that may be absent or null. -/
def optionalText? (member : Option Json) : Option (Option String) :=
  Json.orDefault? none (Json.toOption? Json.toString?) member

namespace TableConfig

def ofJson? (outer : Nat) (j : Json) : Option TableConfig := do
  let [logic, nodes, database, table, key] ← j.recordMembers?
    ["logic_table", "actual_data_nodes", "database_strategy", "table_strategy", "generated_key_column"] | none
  return ⟨← Json.required? Json.toString? logic, ← optionalText? nodes, ← StrategyConfig.optional? (outer + 1) database,
    ← StrategyConfig.optional? (outer + 1) table, ← optionalText? key⟩

def toJson (t : TableConfig) : Json :=
  .object [("logic_table", .string t.logicTable), ("actual_data_nodes", .ofOption .string t.actualDataNodes),
    ("database_strategy", .ofOption StrategyConfig.toJson t.databaseStrategy),
    ("table_strategy", .ofOption StrategyConfig.toJson t.tableStrategy),
    ("generated_key_column", .ofOption .string t.generatedKeyColumn)]

end TableConfig

namespace Configuration

def ofJson? (j : Json) : Option Configuration := do
  let [source, sources, tables, binding, database, table] ← j.recordMembers?
    ["default_data_source", "data_sources", "tables", "binding_tables", "default_database_strategy",
     "default_table_strategy"] | none
  return ⟨← optionalText? source, ← Json.orDefault? [] (Json.toList? Json.toString?) sources,
    ← Json.orDefault? [] (Json.toList? (TableConfig.ofJson? 2)) tables,
    ← Json.orDefault? [] (Json.toList? (Json.toList? Json.toString?)) binding,
    ← StrategyConfig.optional? 1 database, ← StrategyConfig.optional? 1 table⟩

def toJson (c : Configuration) : Json :=
  .object [("default_data_source", .ofOption .string c.defaultDataSource),
    ("data_sources", .ofStrings c.dataSources), ("tables", .array (c.tables.map TableConfig.toJson)),
    ("binding_tables", .array (c.bindingTables.map Json.ofStrings)),
    ("default_database_strategy", .ofOption StrategyConfig.toJson c.defaultDatabaseStrategy),
    ("default_table_strategy", .ofOption StrategyConfig.toJson c.defaultTableStrategy)]

/-- Reads a configuration from a JSON text. -/
def ofText (text : String) : Outcome Configuration :=
  match Json.ofText? text with
  | none => .error (.configuration "invalid sharding config: the text is not a JSON value")
  | some j =>
    (ofJson? j).elim (.error (.configuration "invalid sharding config: a member is missing or has a wrong shape")) .ok

end Configuration

/-! ## Building the rule -/

/-- The expressions that a configuration may name. -/
abbrev Expressions := List (String × Expression)

/-- The algorithm that a configuration describes. -/
def AlgorithmConfig.build (expressions : Expressions) : AlgorithmConfig → Outcome Algorithm
  | modulo shardCount => .ok (.modulo shardCount)
  | ranges entries => .ok (.ranges entries)
  | lookup entries => .ok (.lookup entries)
  | expression name =>
    match expressions.find? fun e => e.1 = name with
    | some (_, evaluate) => .ok (.expression name evaluate)
    | none => .error (.configuration s!"no sharding expression named '{name}'")

def StrategyConfig.build (expressions : Expressions) (s : StrategyConfig) : Outcome Strategy := do
  if s.shardingColumns.isEmpty then throw (.configuration "sharding strategy names no columns")
  return .of s.shardingColumns (← s.algorithm.build expressions)

/-- The strategy of a table, or else the default one. -/
def buildStrategy (expressions : Expressions) (own default : Option StrategyConfig) : Outcome (Option Strategy) :=
  match own.or default with
  | none => .ok none
  | some s => some <$> s.build expressions

namespace Configuration

/-- The data nodes of a table. -/
def dataNodes (c : Configuration) (t : TableConfig) : Outcome (List DataNode) :=
  match t.actualDataNodes with
  | none => .ok (c.dataSources.map fun source => ⟨source, t.logicTable⟩)
  | some text =>
    match InlineList.expand text with
    | .error fault => .error fault.toFailure
    | .ok names => names.mapM DataNode.ofText

/-- Refuses a node in a data source that is not declared, if data sources are declared at all. -/
def checkDeclared (c : Configuration) (t : TableConfig) (nodes : List DataNode) : Outcome Unit :=
  match nodes.find? fun node => node.dataSource ∉ c.dataSources with
  | some stray =>
    if c.dataSources.isEmpty then .ok ()
    else .error (.configuration s!"table '{t.logicTable}' uses undeclared data source '{stray.dataSource}'")
  | none => .ok ()

def tableRule (c : Configuration) (expressions : Expressions) (t : TableConfig) : Outcome TableRule := do
  let nodes ← c.dataNodes t
  c.checkDeclared t nodes
  let database ← buildStrategy expressions t.databaseStrategy c.defaultDatabaseStrategy
  let table ← buildStrategy expressions t.tableStrategy c.defaultTableStrategy
  TableRule.of t.logicTable nodes database table t.generatedKeyColumn

/-- The rule that a configuration describes. -/
def rule (c : Configuration) (expressions : Expressions) : Outcome Rule := do
  let tables ← c.tables.mapM (c.tableRule expressions)
  let unbound := Rule.ofTables tables c.defaultDataSource
  let declared := { unbound with dataSources := distinct (unbound.dataSources ++ c.dataSources) }
  c.bindingTables.foldlM Rule.bind declared

end Configuration

end SqlSharding.Routing
