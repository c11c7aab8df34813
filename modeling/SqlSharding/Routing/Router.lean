import SqlSharding.Routing.Route
import SqlSharding.Sql.Parse

/-!
# Routers

A router reads and routes the statements of one dialect by one rule, and takes the keys of new rows from one source.
-/

namespace SqlSharding.Routing

structure Router where
  rule : Rule
  dialect : Sql.Dialect
  keys : KeySource

namespace Router

/-- Routes a statement that was read from the given text. A statement that leaves out a key column takes the next key,
even if it cannot be routed after all. -/
def route (r : Router) (s : Sql.Statement) (sql : String) (parameters : List Value) : Outcome RouteResult × Router :=
  if (keyColumn? r.rule s).isSome then
    let (key, keys) := r.keys.draw
    (Routing.route r.rule s sql parameters key, { r with keys })
  else (Routing.route r.rule s sql parameters .null, r)

/-- Reads and routes a text. -/
def routeText (r : Router) (sql : String) (parameters : List Value) : Outcome RouteResult × Router :=
  match Sql.parse r.dialect sql with
  | .error e => (.error e.toFailure, r)
  | .ok s => r.route s sql parameters

end Router

end SqlSharding.Routing
