import SqlSharding.Named
import SqlSharding.Text.Pieces
import SqlSharding.Value

/-!
# Pinned columns

A statement pins a sharding column to a value, to a list of values or to all values between two bounds. Pins are
kept in the order of their column names, each column once.
-/

namespace SqlSharding.Routing

inductive Pin where
  | single (v : Value)
  | list (vs : List Value)
  | range (lower upper : Value)
  deriving DecidableEq, Inhabited, Repr

/-- The values that a pin admits one by one; a range has no such list. -/
def Pin.points? : Pin → Option (List Value)
  | single v => some [v]
  | list vs => some vs
  | range .. => none

/-- The pins of columns in lower case. -/
abbrev Pins := Named Pin

end SqlSharding.Routing
