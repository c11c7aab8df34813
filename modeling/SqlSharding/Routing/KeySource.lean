import SqlSharding.Value

/-!
# Generated keys

Keys for rows that are inserted without one. A timed key holds the milliseconds since the key epoch, the number of the
worker and a number within the millisecond. When the clock stands still or steps back, keys go on from the last
millisecond, and a full millisecond borrows the next one, so keys of one worker always increase.
-/

namespace SqlSharding.Routing

/-- The state of a worker that makes timed keys. -/
structure KeySequence where
  worker : Nat
  lastMs : Nat
  number : Nat
  deriving DecidableEq, Inhabited, Repr

namespace KeySequence

/-- The start of the year of the keys, 2016-11-01, in milliseconds of the clock. -/
def epochMs : Nat := 1477958400000

/-- A key has twelve bits for the number within a millisecond. -/
def numbersPerMs : Nat := 4096

/-- A key has ten bits for the worker. -/
def workers : Nat := 1024

/-- A worker before its first key; only the lowest ten bits of its number count. -/
def ofWorker (worker : Nat) : KeySequence := ⟨worker % workers, 0, 0⟩

/-- The worker after one more key, given the milliseconds of the clock. -/
def advance (s : KeySequence) (clockMs : Nat) : KeySequence :=
  let now := max (clockMs - epochMs) s.lastMs
  if now = s.lastMs then
    let number := (s.number + 1) % numbersPerMs
    { s with lastMs := if number = 0 then now + 1 else now, number }
  else { s with lastMs := now, number := 0 }

/-- The 64 bits of the key that a worker has made last; higher bits are lost. -/
def raw (s : KeySequence) : Nat :=
  (s.lastMs * (workers * numbersPerMs)) % nat64Bound + s.worker * numbersPerMs + s.number

/-- The key that a worker has made last; one that is no 64-bit integer is the greatest such integer. -/
def key (s : KeySequence) : Value := .integer (clampInt64 s.raw)

/-- The worker after each of some keys, given the milliseconds of the clock for each of them. -/
def states (s : KeySequence) : List Nat → List KeySequence
  | [] => []
  | clockMs :: later => s.advance clockMs :: (s.advance clockMs).states later

end KeySequence

/-- Where keys come from: a list that is handed out in turn and started over, or a worker with a fixed clock. -/
inductive KeySource where
  | listed (keys : List Value) (position : Nat)
  | timed (sequence : KeySequence) (clockMs : Nat)
  deriving DecidableEq, Inhabited, Repr

namespace KeySource

/-- The next key, and the source after it. -/
def draw : KeySource → Value × KeySource
  | listed keys position => ((keys[position % keys.length]?).getD .null, listed keys (position + 1))
  | timed s clockMs =>
    let next := s.advance clockMs
    (next.key, timed next clockMs)

end KeySource

end SqlSharding.Routing
