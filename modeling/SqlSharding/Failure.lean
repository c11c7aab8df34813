/-!
# Failures

Every way in which a statement can fail, from reading it to closing its connections. A failure is its cause; the
wording, the category and the advice are functions of it.
-/

namespace SqlSharding

/-- The stage of a statement's life that a failure belongs to. -/
inductive Failure.Category where
  | parse
  | routing
  | execution
  | connectionAggregate
  | shutdown
  | usage
  | internal
  deriving DecidableEq, Repr

/-- The causes of failure. -/
inductive Failure where
  /-- A statement cannot be read; the place is a byte offset, a line and a column. -/
  | malformedSql (offset line column : Nat) (message : String)
  /-- A table has no rule and there is no default data source. -/
  | noShardingRule (table : String)
  | noDataSource (name : String)
  /-- An algorithm found no target for a value. -/
  | noMatchingShard (logicName value : String)
  | illFormedExpression (expression detail : String)
  /-- An algorithm was given a kind of condition that it cannot evaluate. -/
  | unsupportedCondition (algorithm condition : String)
  /-- A placeholder has no bound value. -/
  | missingParameter (index : Nat)
  | invalidRewrite (detail : String)
  /-- A physical connection or statement failed. -/
  | physical (dataSource message : String)
  /-- Some of the physical connections failed in an operation on all of them. -/
  | aggregate (operation : String) (failures : List Failure)
  | connectionClosed
  /-- Work was dropped before it began. -/
  | cancelled
  | executorShutdown
  | shutdownTimeout (graceMs : Nat)
  | unsupported (operation : String)
  | configuration (message : String)
  | internal (message : String)
  deriving Inhabited, Repr

namespace Failure

mutual

/-- The wording of a failure. -/
def message : Failure → String
  | malformedSql offset line column message => s!"SQL error at {line}:{column} (offset {offset}): {message}"
  | noShardingRule table => s!"no sharding rule configured for table '{table}'"
  | noDataSource name => s!"no data source named '{name}'"
  | noMatchingShard logicName value => s!"no shard of '{logicName}' matches value {value}"
  | illFormedExpression expression detail => s!"ill-formed sharding expression '{expression}': {detail}"
  | unsupportedCondition algorithm condition =>
    s!"sharding algorithm '{algorithm}' cannot evaluate {condition} conditions"
  | missingParameter index => s!"no value bound for parameter {index}"
  | invalidRewrite detail => s!"invalid rewrite: {detail}"
  | physical dataSource message => s!"data source '{dataSource}' failed: {message}"
  | aggregate operation failures =>
    s!"{operation} failed on {failures.length} connection(s): " ++ "; ".intercalate (messages failures)
  | connectionClosed => "connection is closed"
  | cancelled => "execution cancelled by engine shutdown"
  | executorShutdown => "execution engine is shut down"
  | shutdownTimeout graceMs => s!"execution engine did not terminate within {graceMs} ms"
  | unsupported operation => s!"unsupported operation: {operation}"
  | configuration message => s!"configuration error: {message}"
  | internal message => s!"internal error: {message}"

/-- The wordings of several failures. -/
def messages : List Failure → List String
  | [] => []
  | failure :: rest => failure.message :: messages rest

end

def category : Failure → Category
  | malformedSql .. => .parse
  | noShardingRule _ | noDataSource _ | noMatchingShard .. | illFormedExpression .. | unsupportedCondition ..
  | missingParameter _ | invalidRewrite _ => .routing
  | physical .. | connectionClosed | cancelled => .execution
  | aggregate .. => .connectionAggregate
  | executorShutdown | shutdownTimeout _ => .shutdown
  | unsupported _ | configuration _ => .usage
  | internal _ => .internal

/-- The name of a category. -/
def Category.name : Category → String
  | parse => "parse"
  | routing => "routing"
  | execution => "execution"
  | connectionAggregate => "connection-aggregate"
  | shutdown => "shutdown"
  | usage => "usage"
  | internal => "internal"

/-- A statement that cannot be read or routed is refused before any data source is touched. -/
def isBeforeExecution (f : Failure) : Bool := f.category = .parse || f.category = .routing

/-- A fatal failure is reported even when the caller tolerates failing units. -/
def isFatal : Failure → Bool
  | shutdownTimeout _ | internal _ => true
  | _ => false

/-- The code of a cause. -/
def code : Failure → String
  | malformedSql .. => "Parse"
  | noShardingRule _ => "NoShardingRule"
  | noDataSource _ => "NoDataSource"
  | noMatchingShard .. => "NoMatchingShard"
  | illFormedExpression .. => "IllFormedExpression"
  | unsupportedCondition .. => "UnsupportedCondition"
  | missingParameter _ => "MissingParameter"
  | invalidRewrite _ => "Rewrite"
  | physical .. => "Physical"
  | aggregate .. => "Aggregate"
  | connectionClosed => "ConnectionClosed"
  | cancelled => "Cancelled"
  | executorShutdown => "ExecutorShutdown"
  | shutdownTimeout _ => "ShutdownTimeout"
  | unsupported _ => "Unsupported"
  | configuration _ => "Config"
  | internal _ => "Internal"

/-- Advice on the failures that a change of configuration or statement can mend. -/
def suggestion? : Failure → Option String
  | noShardingRule _ => some "Add a table rule or configure a default data source"
  | noDataSource _ => some "Check the data-source names in the sharding rule"
  | unsupportedCondition .. => some "Use an equality or IN predicate on the sharding column"
  | shutdownTimeout _ => some "Increase shutdown_grace_ms or cancel long-running statements"
  | _ => none

/-- A failure as one of a data source: a failure that names none is put under this one. -/
def tagged (dataSource : String) : Failure → Failure
  | physical source message => physical source message
  | f => physical dataSource f.message

/-- Several failures of one operation as its outcome: success if there are none. -/
def collapse (operation : String) (failures : List Failure) : Except Failure Unit :=
  if failures.isEmpty then .ok () else .error (.aggregate operation failures)

end Failure

/-- An outcome that may be a failure. -/
abbrev Outcome := Except Failure

end SqlSharding
