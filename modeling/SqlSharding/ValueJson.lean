import SqlSharding.Json.Decode
import SqlSharding.Value

/-!
# Values in JSON

A value is written under the name of its type; null is its bare name. Reading also takes the name of null with a
null under it.
-/

namespace SqlSharding.Value

def ofJson? : Json → Option Value
  | .string "Null" => some null
  | .object [("Null", .null)] => some null
  | .object [("Integer", j)] => j.toInt64?.map integer
  | .object [("Float", j)] => j.toFloat?.map float
  | .object [("Text", j)] => j.toString?.map text
  | .object [("Blob", j)] => (j.toList? fun b => (b.toNatBelow? 256).map UInt8.ofNat).map blob
  | _ => none

def toJson : Value → Json
  | null => .string "Null"
  | integer i => .object [("Integer", .ofInt i.toInt)]
  | float x => .object [("Float", .ofFloat x)]
  | text s => .object [("Text", .string s)]
  | blob bytes => .object [("Blob", .array (bytes.map fun b => .ofNat b.toNat))]

end SqlSharding.Value
