import SqlSharding.Failure
import SqlSharding.Numeric.Integers
import SqlSharding.Routing.Pin

/-!
# Sharding algorithms

An algorithm chooses, among the available targets, those that can hold rows with the pinned values. Targets are data
sources or physical tables. The chosen targets keep the order of the available ones.
-/

namespace SqlSharding.Routing

/-- The integers from `lower` to `upper` belong to a target. -/
structure RangeEntry where
  lower : Int64
  upper : Int64
  target : String
  deriving DecidableEq, Inhabited, Repr

/-- A function from one value for each column to the name of a target. -/
abbrev Expression := Named Value → Outcome String

inductive Algorithm where
  /-- The target whose name ends with the remainder of the value by the number of shards, which by default is the
  number of available targets. -/
  | modulo (shardCount : Option Nat)
  | ranges (entries : List RangeEntry)
  /-- The target under the text of the value. -/
  | lookup (entries : Named String)
  | expression (name : String) (evaluate : Expression)

namespace Algorithm

def name : Algorithm → String
  | modulo _ => "modulo"
  | ranges _ => "range"
  | lookup _ => "lookup"
  | expression .. => "expression"

/-- The available targets that were chosen. -/
def inAvailableOrder (available chosen : List String) : List String := available.filter (· ∈ chosen)

/-- The integer of a value, without which no target matches. -/
def integerOf (logicName : String) (v : Value) : Outcome Int64 :=
  v.toShardingInteger?.elim (.error (.noMatchingShard logicName v.display)) .ok

/-- The first available target that ends with a remainder. -/
def remainderTarget (logicName : String) (available : List String) (remainder : Int) : Outcome String :=
  (available.find? fun t => s!"_{remainder}".toList.isSuffixOf t.toList).elim
    (.error (.noMatchingShard logicName s!"remainder {remainder}")) .ok

/-- The targets of the remainders by `n` of integers in a row; the first remainder without a target ends the search. -/
def remainderTargets (logicName : String) (available : List String) (n : Nat) : Int → Nat → Outcome (List String)
  | _, 0 => .ok []
  | first, count + 1 => do
    let target ← remainderTarget logicName available (first % n)
    return target :: (← remainderTargets logicName available n (first + 1) count)

/-- The pin of the first column. -/
def firstPin (a : Algorithm) (pins : Pins) : Outcome Pin :=
  match pins with
  | (_, pin) :: _ => .ok pin
  | [] => .error (.internal s!"{a.name} algorithm called without values")

/-- The values of a pin, for an algorithm that cannot evaluate ranges. -/
def pointsOf (a : Algorithm) (pin : Pin) : Outcome (List Value) :=
  pin.points?.elim (.error (.unsupportedCondition a.name "BETWEEN")) .ok

/-- The targets of values by their remainders. A range of at least `n` integers admits every remainder. -/
def resolveModulo (logicName : String) (available : List String) (n : Nat) : Pin → Outcome (List String)
  | .range lower upper => do
    let lo ← integerOf logicName lower
    let hi ← integerOf logicName upper
    if hi < lo then return []
    else if (n : Int) - 1 ≤ hi.toInt - lo.toInt then return available
    else
      let count := (hi.toInt - lo.toInt).toNat + 1
      return inAvailableOrder available (← remainderTargets logicName available n lo.toInt count)
  | pin => do
    let chosen ← (pin.points?.getD []).mapM fun v => do
      remainderTarget logicName available ((← integerOf logicName v).toInt % n)
    return inAvailableOrder available chosen

/-- The target of the first range that holds an integer. -/
def rangeTarget (logicName : String) (entries : List RangeEntry) (key : Int64) : Outcome String :=
  match entries.find? fun e => e.lower ≤ key && key ≤ e.upper with
  | some e => .ok e.target
  | none => .error (.noMatchingShard logicName (toString key.toInt))

/-- The targets of values by the ranges that hold them. -/
def resolveRanges (logicName : String) (available : List String) (entries : List RangeEntry) :
    Pin → Outcome (List String)
  | .range lower upper => do
    let lo ← integerOf logicName lower
    let hi ← integerOf logicName upper
    let met := entries.filter fun e => e.lower ≤ hi && lo ≤ e.upper
    return inAvailableOrder available (met.map (·.target))
  | pin => do
    let chosen ← (pin.points?.getD []).mapM fun v => do
      rangeTarget logicName entries (← integerOf logicName v)
    return inAvailableOrder available chosen

/-- The target under the text of a value. -/
def lookupTarget (logicName : String) (entries : Named String) (v : Value) : Outcome String :=
  (entries.get? v.toText).elim (.error (.noMatchingShard logicName v.toText)) .ok

/-- Every way to give each column one of its values, the last column varying fastest. -/
def combinations (a : Algorithm) (pins : Pins) : Outcome (List (Named Value)) :=
  pins.foldlM (fun keys (column, pin) => do
    let points ← a.pointsOf pin
    return keys.flatMap fun key => points.map fun v => Named.insert column v key) [[]]

/-- The target that an expression gives for a key; it has to be available. -/
def expressionTarget (name : String) (evaluate : Expression) (available : List String) (key : Named Value) :
    Outcome String := do
  let target ← evaluate key
  let names := ", ".intercalate available
  if target ∈ available then return target
  else throw (.illFormedExpression name s!"produced '{target}', expected one of [{names}]")

/-- The targets that can hold rows with the pinned values. -/
def resolve (a : Algorithm) (logicName : String) (available : List String) (pins : Pins) : Outcome (List String) :=
  match a with
  | modulo shardCount => do
    let n := shardCount.getD available.length
    if n = 0 then throw (.configuration s!"modulo algorithm for '{logicName}' has no shards")
    resolveModulo logicName available n (← a.firstPin pins)
  | ranges entries => do resolveRanges logicName available entries (← a.firstPin pins)
  | lookup entries => do
    let points ← a.pointsOf (← a.firstPin pins)
    return inAvailableOrder available (← points.mapM (lookupTarget logicName entries))
  | expression name evaluate => do
    let keys ← a.combinations pins
    return inAvailableOrder available (← keys.mapM (expressionTarget name evaluate available))

end Algorithm

/-- The sharding columns, in lower case, with the algorithm that reads their values. -/
structure Strategy where
  columns : List String
  algorithm : Algorithm

namespace Strategy

def of (columns : List String) (a : Algorithm) : Strategy := ⟨columns.map Text.lower, a⟩

/-- The pins of the strategy's own columns. -/
def ownPins (s : Strategy) (pins : Pins) : Pins :=
  Named.ofList (s.columns.filterMap fun c => (pins.get? c).map (c, ·))

/-- Whether every sharding column is pinned. -/
def isPinned (s : Strategy) (pins : Pins) : Bool :=
  !s.columns.isEmpty && s.columns.all fun c => (pins.get? c).isSome

/-- The targets that can hold rows with the pinned values: all of them unless every sharding column is pinned. -/
def shard (s : Strategy) (logicName : String) (available : List String) (pins : Pins) : Outcome (List String) :=
  if s.isPinned pins then s.algorithm.resolve logicName available (s.ownPins pins) else .ok available

end Strategy

end SqlSharding.Routing
