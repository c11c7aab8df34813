import SqlSharding.Value

/-!
# Calls on data sources

What can be asked of a physical data source: to open a connection, and on an open connection to change a setting, to end
a transaction, to close, or to run a statement.
-/

namespace SqlSharding.Physical

/-- The isolation of transactions. -/
inductive Isolation where
  | readUncommitted
  | readCommitted
  | repeatableRead
  | serializable
  deriving DecidableEq, Inhabited, Repr

namespace Isolation

/-- The isolation as it is shown. -/
def display : Isolation → String
  | readUncommitted => "READ UNCOMMITTED"
  | readCommitted => "READ COMMITTED"
  | repeatableRead => "REPEATABLE READ"
  | serializable => "SERIALIZABLE"

/-- The name of an isolation in requests. -/
def name : Isolation → String
  | readUncommitted => "read_uncommitted"
  | readCommitted => "read_committed"
  | repeatableRead => "repeatable_read"
  | serializable => "serializable"

def all : List Isolation := [readUncommitted, readCommitted, repeatableRead, serializable]

def ofName? (s : String) : Option Isolation := all.find? fun level => level.name = s

end Isolation

/-- A setting of a connection. -/
inductive Setting where
  | autoCommit (on : Bool)
  | readOnly (on : Bool)
  | isolation (level : Isolation)
  deriving DecidableEq, Inhabited, Repr

/-- A call on a connection that runs no statement. -/
inductive Control where
  | set (setting : Setting)
  | commit
  | rollback
  | close
  deriving DecidableEq, Inhabited, Repr

/-- The name under which a call on several connections reports its failures. -/
def Control.name : Control → String
  | set (.autoCommit _) => "set_auto_commit"
  | set (.readOnly _) => "set_read_only"
  | set (.isolation _) => "set_transaction_isolation"
  | commit => "commit"
  | rollback => "rollback"
  | close => "close"

/-- The generated keys that an update makes available. -/
inductive GeneratedKeys where
  | none
  /-- Those that the data source reports by itself. -/
  | reported
  | columnIndexes (indexes : List Nat)
  | columnNames (names : List String)
  deriving DecidableEq, Inhabited, Repr

/-- A call on a connection that runs a statement. -/
inductive StatementCall where
  | query (sql : String) (parameters : List Value)
  | update (sql : String) (parameters : List Value) (keys : GeneratedKeys)
  | execute (sql : String) (parameters : List Value)
  | batch (sql : String) (parameterSets : List (List Value))
  deriving DecidableEq, Inhabited, Repr

/-- An open connection: its data source, and its number among the connections that were opened there. -/
structure Handle where
  dataSource : String
  number : Nat
  deriving DecidableEq, Inhabited, Repr

inductive Call where
  | connect (dataSource : String)
  | control (connection : Handle) (control : Control)
  | statement (connection : Handle) (statement : StatementCall)
  deriving DecidableEq, Inhabited, Repr

/-- Whether a call runs a statement. -/
def Call.isStatement : Call → Bool
  | statement .. => true
  | _ => false

end SqlSharding.Physical
