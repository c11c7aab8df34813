import SqlSharding.Client.Database

/-!
# Statements of a client

A plain statement reads and routes a text at each call. A prepared one is read once and routed at each call with the
parameters that are bound by then; it can also collect a batch, which runs at once.
-/

namespace SqlSharding.Client

open Physical (Backend GeneratedKeys ResultSet)
open Routing (RouteResult Pagination)
open Execution (Context StatementUnit)

/-- The rows of a query, as the units returned them, and the pagination to be applied to all of them together. -/
structure QueryResult where
  resultSets : List ResultSet
  pagination : Option Pagination
  deriving DecidableEq, Inhabited, Repr

/-- The number of rows of all units. -/
def QueryResult.rowCount (r : QueryResult) : Nat := (r.resultSets.map (·.rows.length)).foldl (· + ·) 0

/-! ## Running a route -/

section
variable {S : Type} (b : Backend) (context : Context) (r : RouteResult)

def runQuery : Action S QueryResult := do
  let units ← bind b r
  return ⟨← Action.onEngine (Execution.query b context units), r.pagination⟩

def runUpdate (keys : GeneratedKeys) : Action S Nat := do
  let units ← bind b r
  Action.onEngine (Execution.update b context units keys)

def runExecute : Action S Bool := do
  let units ← bind b r
  Action.onEngine (Execution.execute b context units)

end

/-! ## Plain statements -/

structure PlainStatement where
  context : Context
  /-- The key of the last row that an update inserted, if one was generated. -/
  generatedKey : Option Value
  deriving DecidableEq, Inhabited, Repr

namespace PlainStatement

/-- A new statement of a database. -/
def new (d : Database) : PlainStatement := ⟨d.context, none⟩

variable (b : Backend)

def route (sql : String) : Action PlainStatement RouteResult :=
  Action.onRouter (·.routeText sql [])

/-- Routes a text and keeps the key that was generated. -/
def routeKeepingKey (sql : String) : Action PlainStatement RouteResult := do
  let r ← route sql
  Action.modifyStatement ({ · with generatedKey := r.generatedKey })
  return r

def query (sql : String) : Action PlainStatement QueryResult := do
  let r ← route sql
  runQuery b (← Action.statement).context r

def update (sql : String) (keys : GeneratedKeys) : Action PlainStatement Nat := do
  let r ← routeKeepingKey sql
  runUpdate b (← Action.statement).context r keys

def execute (sql : String) : Action PlainStatement Bool := do
  let r ← routeKeepingKey sql
  runExecute b (← Action.statement).context r

end PlainStatement

/-! ## Prepared statements -/

structure PreparedStatement where
  sql : String
  parsed : Sql.Statement
  parameters : List Value
  context : Context
  /-- The key of the last row that an update inserted, if one was generated. -/
  generatedKey : Option Value
  /-- The routes of the batch. -/
  batch : List RouteResult
  deriving Inhabited

namespace PreparedStatement

/-- Reads a statement. -/
def of (d : Database) (sql : String) : Outcome PreparedStatement :=
  match Sql.parse d.router.dialect sql with
  | .ok parsed => .ok ⟨sql, parsed, [], d.context, none, []⟩
  | .error e => .error e.toFailure

/-- Binds a parameter; those before it that have not been bound are null. -/
def setParameter (p : PreparedStatement) (index : Nat) (v : Value) : PreparedStatement :=
  let filled := p.parameters ++ List.replicate (index + 1 - p.parameters.length) .null
  { p with parameters := filled.set index v }

variable (b : Backend)

/-- Routes the statement with its parameters, of which none may be missing. -/
def route : Action PreparedStatement RouteResult := do
  let p ← Action.statement
  if p.parameters.length < p.parsed.parameterCount then throw (.missingParameter p.parameters.length)
  Action.onRouter (·.route p.parsed p.sql p.parameters)

/-- Routes the statement and keeps the key that was generated. -/
def routeKeepingKey : Action PreparedStatement RouteResult := do
  let r ← route
  Action.modifyStatement ({ · with generatedKey := r.generatedKey })
  return r

def query : Action PreparedStatement QueryResult := do
  let r ← route
  runQuery b (← Action.statement).context r

def update (keys : GeneratedKeys) : Action PreparedStatement Nat := do
  let r ← routeKeepingKey
  runUpdate b (← Action.statement).context r keys

def execute : Action PreparedStatement Bool := do
  let r ← routeKeepingKey
  runExecute b (← Action.statement).context r

/-- Routes the statement as the next entry of its batch, and unbinds the parameters. -/
def addBatch : Action PreparedStatement Unit := do
  let r ← route
  Action.modifyStatement fun p => { p with batch := p.batch ++ [r], parameters := [] }

/-- Binds the groups of a batch to connections of the session, in their order. -/
def bindGroups (kind : Sql.StatementKind) (groups : List Execution.BatchGroup) :
    Action PreparedStatement (List StatementUnit) :=
  groups.mapM fun g => do
    let connection ← Action.onSession (Session.getConnection b g.dataSource kind)
    return ⟨g.dataSource, g.sql, g.parameterSets, g.batchIndexes, connection⟩

/-- Runs the batch, which is empty afterwards, and gives the number of rows that each entry affected. -/
def executeBatch : Action PreparedStatement (List Nat) := do
  let p ← Action.statement
  Action.modifyStatement ({ · with batch := [] })
  if p.batch.isEmpty then return []
  let units ← bindGroups b p.parsed.kind (Execution.groupBatch (p.batch.map (·.units)))
  Action.onEngine (Execution.batch b p.context units p.batch.length)

end PreparedStatement

end SqlSharding.Client
