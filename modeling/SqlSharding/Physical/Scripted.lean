import SqlSharding.Physical.Backend
import SqlSharding.Text.Pieces

/-!
# Scripted data sources

Data sources without a database behind them. Each answers in the same way until its script is changed: with some number
of rows, or with the failure that is scripted for the call.
-/

namespace SqlSharding.Physical

/-- A call that fails: a call of this name, if its statement contains a text. -/
structure ScriptedFault where
  call : String
  contained : String
  /-- The failure; without it the data source refuses the call. -/
  failure : Option Failure
  deriving Inhabited

structure ScriptedSource where
  name : String
  /-- The number of rows that a statement returns or affects. -/
  rows : Nat
  /-- The counts that a batch returns, if they are not the number of rows for each parameter set. -/
  counts : Option (List Nat)
  /-- The calls that fail; the first one that fits counts. -/
  faults : List ScriptedFault
  deriving Inhabited

/-- The name of a call in a script. -/
def Control.scriptName : Control → String
  | .set (.autoCommit _) => "set_auto_commit"
  | .set (.readOnly _) => "set_read_only"
  | .set (.isolation _) => "set_isolation"
  | .commit => "commit"
  | .rollback => "rollback"
  | .close => "close"

/-- The name of a connection in results. -/
def Handle.label (h : Handle) : String := h.dataSource ++ "#" ++ toString h.number

/-- Whether a text occurs inside another one. -/
def occursIn (part : List Char) : List Char → Bool
  | [] => part.isEmpty
  | c :: cs => part.isPrefixOf (c :: cs) || occursIn part cs

namespace ScriptedSource

/-- Fails if the script says so. -/
def check (s : ScriptedSource) (call sql : String) : Outcome Unit :=
  match s.faults.find? fun f => f.call = call && occursIn f.contained.toList sql.toList with
  | some f => .error (f.failure.getD (.physical s.name (call ++ " refused")))
  | none => .ok ()

/-- The rows of a query: the connection, and the number of the row. -/
def resultSet (s : ScriptedSource) (h : Handle) : ResultSet :=
  ⟨["origin", "row"], (List.range s.rows).map fun i => [.text h.label, .integer (Int64.ofNat i)]⟩

end ScriptedSource

/-- Whether a statement is a query by its first letters. -/
def looksLikeQuery (sql : String) : Bool :=
  "SELECT".toList.isPrefixOf (Text.upper (String.ofList (Text.trim sql.toList))).toList

abbrev Script := List ScriptedSource

namespace Script

/-- The data source of a name; one that is not scripted returns one row and never fails. -/
def source (script : Script) (name : String) : ScriptedSource :=
  (script.find? fun s => s.name = name).getD ⟨name, 1, none, []⟩

/-- The data sources as a backend. -/
def backend (script : Script) : Backend where
  connect _ name := (script.source name).check "connect" ""
  control _ h c := (script.source h.dataSource).check c.scriptName ""
  query _ h sql _ := do
    let s := script.source h.dataSource
    s.check "query" sql
    return s.resultSet h
  update _ h sql _ _ := do
    let s := script.source h.dataSource
    s.check "update" sql
    return s.rows
  execute _ h sql _ := do
    (script.source h.dataSource).check "execute" sql
    return looksLikeQuery sql
  batch _ h sql sets := do
    let s := script.source h.dataSource
    s.check "batch" sql
    return s.counts.getD (sets.map fun _ => s.rows)
  now _ := 0
  chance _ := 0

end Script

end SqlSharding.Physical
