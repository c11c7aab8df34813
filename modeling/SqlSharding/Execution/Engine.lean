import SqlSharding.Execution.Observer
import SqlSharding.Execution.Pool
import SqlSharding.Physical.Backend

/-!
# The execution engine

A routed statement is a list of units. The first one runs on the caller, the others are jobs of a worker pool, and the
answer of a call lists the units' values in their own order, whatever the order in which they end. A failure of one unit
does not stop the others. It becomes the answer if the caller does not tolerate failing units or if it is fatal;
otherwise the unit has no value.
-/

namespace SqlSharding.Execution

open Physical (Backend Exchange Handle Traffic)

/-- What the units of a call know about their caller. -/
structure Context where
  /-- Whether a failing unit fails the call. -/
  failFast : Bool
  values : Named String
  deriving DecidableEq, Inhabited, Repr

/-- A context without values. -/
def Context.of (failFast : Bool) : Context := ⟨failFast, []⟩

/-- Adds a value. -/
def Context.withValue (c : Context) (name value : String) : Context :=
  { c with values := Named.insert name value c.values }

/-- A statement on a physical connection, with the parameter sets to run it with. -/
structure StatementUnit where
  dataSource : String
  sql : String
  parameterSets : List (List Value)
  /-- The batch entries that the parameter sets come from, if the unit is part of a batch. -/
  batchIndexes : List Nat
  connection : Handle
  deriving DecidableEq, Inhabited, Repr

/-- The first parameter set, or none at all. -/
def StatementUnit.parameters (u : StatementUnit) : List Value := u.parameterSets.head?.getD []

/-- What becomes of the job of a unit. -/
inductive Fate where
  | runs
  /-- A shutdown drops it before it begins. -/
  | dropped
  /-- It breaks off without an outcome. -/
  | breaksOff
  deriving DecidableEq, Inhabited, Repr

/-! ## Answers -/

/-- The outcomes of the units in their own order, from the outcomes in the order in which they arrive. A unit whose
outcome never arrives was cancelled. -/
def arrange (count : Nat) (arrivals : List (Nat × Outcome α)) : List (Outcome α) :=
  let slots := arrivals.foldl (fun slots (i, outcome) => slots.set i (some outcome)) (List.replicate count none)
  slots.map fun slot => slot.getD (.error .cancelled)

/-- The failure of a unit that becomes the answer of the call. -/
def decisive? (failFast : Bool) : Outcome α → Option Failure
  | .ok _ => none
  | .error f => if failFast || f.isFatal then some f else none

/-- The value of a unit, if it did not fail. -/
def valueOf : Outcome α → Option α
  | .ok a => some a
  | .error _ => none

/-- The answer of a call: the first decisive failure, or else the value of each unit that has one. -/
def answer (failFast : Bool) (outcomes : List (Outcome α)) : Outcome (List (Option α)) :=
  match outcomes.findSome? (decisive? failFast) with
  | some f => .error f
  | none => .ok (outcomes.map valueOf)

/-! ## Engines -/

structure Engine where
  /-- The jobs of a call are the positions of its units. -/
  pool : Pool Nat
  graceMs : Nat
  observers : List Observer
  /-- The number of the next event. -/
  nextEvent : Nat
  deriving Inhabited, Repr

namespace Engine

def new (workers graceMs : Nat) (observers : List Observer) : Engine := ⟨.ofSize workers, graceMs, observers, 1⟩

def isShutDown (e : Engine) : Bool := !e.pool.isAccepting

/-- Shuts the pool down. -/
def shutdown (e : Engine) : Outcome Unit × Engine :=
  let pool := e.pool.stop
  (pool.stopped e.graceMs, { e with pool })

/-- Tells the observers an event. -/
def notify (e : Engine) (event : Event) : Engine := { e with observers := e.observers.map (·.observe event) }

/-- An engine together with the calls that it makes. -/
structure State where
  engine : Engine
  traffic : Traffic
  deriving Inhabited

/-- An action of an engine: it can fail, and what it did up to the failure stays done. -/
abbrev Action := EStateM Failure State

/-- Makes calls and gives their outcome. -/
def Action.attempt (x : Exchange α) : Action (Outcome α) := fun s =>
  match x s.traffic with
  | .ok a t => .ok (.ok a) { s with traffic := t }
  | .error f t => .ok (.error f) { s with traffic := t }

/-- Tells the observers some events. -/
def Action.notify (events : List Event) : Action Unit := fun s =>
  .ok () { s with engine := events.foldl Engine.notify s.engine }

/-- Takes numbers for some events. -/
def Action.number (count : Nat) : Action Nat := fun s =>
  .ok s.engine.nextEvent { s with engine := { s.engine with nextEvent := s.engine.nextEvent + count } }

/-- What the clock shows. -/
def Action.now (b : Backend) : Action Nat := fun s => .ok (b.now s.traffic) s

/-- Fails if an outcome is a failure. -/
def Action.demand : Outcome α → Action α
  | .ok a => fun s => .ok a s
  | .error f => fun s => .error f s

/-- What a call does with each unit. -/
abbrev Work (α : Type) := Context → StatementUnit → Exchange α

variable (b : Backend)

/-- The events before a unit: one for each parameter set, and one without parameters if there is none. -/
def eventsBefore (u : StatementUnit) (first now : Nat) : List Event :=
  let sets := if u.parameterSets.isEmpty then [[]] else u.parameterSets
  sets.zipIdx.map fun (parameters, i) => .before (first + i) u.dataSource u.sql parameters now

/-- The event after a unit that belongs to one before it. -/
def eventAfter (outcome : Outcome α) (now : Nat) (e : Event) : Event :=
  match outcome with
  | .ok _ => e.succeeded now
  | .error f => e.failed f.message now

/-- Tells the observers that a unit begins, and gives the events. -/
def announce (u : StatementUnit) : Action (List Event) := do
  let first ← Action.number (max 1 u.parameterSets.length)
  let events := eventsBefore u first (← Action.now b)
  Action.notify events
  return events

/-- Runs a unit between its events. A unit that breaks off has no outcome and no event after it. -/
def runUnit (context : Context) (work : Work α) (fate : Fate) (u : StatementUnit) : Action (Option (Outcome α)) :=
  match fate with
  | .dropped => return none
  | .breaksOff => do
    let _ ← announce b u
    return none
  | .runs => do
    let events ← announce b u
    let outcome ← Action.attempt (work context u)
    let now ← Action.now b
    Action.notify (events.map (eventAfter outcome now))
    return some outcome

/-- Runs units that are numbered and gives the outcomes of those that have one. -/
def runUnits (context : Context) (work : Work α) (fates : Nat → Fate) :
    List (StatementUnit × Nat) → Action (List (Nat × Outcome α))
  | [] => return []
  | (u, i) :: rest => do
    let outcome ← runUnit b context work (fates i) u
    let later ← runUnits context work fates rest
    return (outcome.map (i, ·)).toList ++ later

/-- Acts on the pool. -/
def onPool (f : Pool Nat → Outcome (Pool Nat)) : Action Unit := fun s =>
  match f s.engine.pool with
  | .ok pool => .ok () { s with engine := { s.engine with pool } }
  | .error f => .error f s

/-- Submits the jobs of a call: all its units but the first one. After a shutdown they are not accepted. -/
def submitJobs (count : Nat) : Action Unit := onPool fun pool => ((List.range count).drop 1).foldlM Pool.submit pool

/-- The workers take all jobs and end them. -/
def finishJobs : Action Unit := onPool fun pool => .ok (pool.settle fun _ => true).finishRunning

/-- Runs a call: the first unit on the caller, the others as jobs with the given fates. -/
def call (context : Context) (units : List StatementUnit) (work : Work α) (fates : Nat → Fate) :
    Action (List (Option α)) := do
  submitJobs units.length
  let arrivals ← runUnits b context work fates units.zipIdx
  finishJobs
  Action.demand (answer context.failFast (arrange units.length arrivals))

/-- Runs a call of which every job runs. -/
def execute (context : Context) (units : List StatementUnit) (work : Work α) : Action (List (Option α)) :=
  call b context units work fun _ => .runs

/-! ## Shutdowns during a call -/

/-- Shuts the engine down at a moment when the workers have taken all jobs that they can while some jobs are held up.
Gives the outcome of the shutdown and the jobs that it dropped. -/
def interrupt (isHeldUp : Nat → Bool) : Action (Outcome Unit × List Nat) := fun s =>
  let pool := s.engine.pool.settle fun job => !isHeldUp job
  let (outcome, engine) := { s.engine with pool }.shutdown
  .ok (outcome, pool.queue) { s with engine }

/-- Runs a call that is interrupted by a shutdown while some jobs are held up, and gives the outcomes of the shutdown
and of the call. -/
def interruptedCall (context : Context) (units : List StatementUnit) (work : Work α) (isHeldUp : Nat → Bool) :
    Action (Outcome Unit × Outcome (List (Option α))) := do
  submitJobs units.length
  let (outcome, dropped) ← interrupt isHeldUp
  let arrivals ← runUnits b context work (fun i => if i ∈ dropped then .dropped else .runs) units.zipIdx
  finishJobs
  return (outcome, answer context.failFast (arrange units.length arrivals))

/-- Submits the jobs of the units from a position on. -/
def submitFrom (first count : Nat) : Action Unit := onPool fun pool => ((List.range count).drop first).foldlM Pool.submit pool

/-- Runs a call that a shutdown overtakes when some of its units were submitted and the workers have taken all jobs that they
can while some jobs are held up. If there is a further unit then the call is refused, and the jobs that are held up stay
with their workers. -/
def overtakenCall (context : Context) (units : List StatementUnit) (work : Work α) (accepted : Nat) (isHeldUp : Nat → Bool) :
    Action (List (Option α)) := do
  submitJobs accepted
  let (_, dropped) ← interrupt isHeldUp
  let fates (job : Nat) : Fate := if job ∈ dropped then .dropped else if isHeldUp job then .breaksOff else .runs
  let arrivals ← runUnits b context work fates ((units.zipIdx.take accepted).drop 1)
  submitFrom accepted units.length
  let first ← runUnits b context work (fun _ => .runs) (units.zipIdx.take 1)
  finishJobs
  Action.demand (answer context.failFast (arrange units.length (first ++ arrivals)))

end Engine

end SqlSharding.Execution
