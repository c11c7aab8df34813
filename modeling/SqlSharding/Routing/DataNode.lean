import SqlSharding.Failure
import SqlSharding.Text.Pieces

/-!
# Data nodes

A data node is a physical table in a data source. It is written as the two names with a point between them.
-/

namespace SqlSharding.Routing

structure DataNode where
  dataSource : String
  table : String
  deriving DecidableEq, Inhabited, Repr

namespace DataNode

/-- Reads a data node. The name of the data source ends at the first point. -/
def ofText (text : String) : Outcome DataNode :=
  match Text.cut? ['.'] (Text.trim text.toList) with
  | none => .error (.configuration s!"data node '{text}' must be written as data_source.table")
  | some (dataSource, table) =>
    if dataSource.isEmpty || table.isEmpty then .error (.configuration s!"data node '{text}' has an empty part")
    else .ok ⟨String.ofList dataSource, String.ofList table⟩

end DataNode

end SqlSharding.Routing
