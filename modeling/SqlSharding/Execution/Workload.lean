import SqlSharding.Execution.Pool

/-!
# Workloads

Jobs of which it is known how they end, and what a pool has made of each of them. The workers never rest: after each
step they have taken and ended all jobs that they can.
-/

namespace SqlSharding.Execution

/-- How a job ends. -/
inductive JobKind where
  | returns
  | panics
  /-- It returns when it is released. -/
  | waits
  deriving DecidableEq, Inhabited, Repr

inductive JobState where
  | queued
  | running
  | done
  | panicked
  /-- It was not accepted, or discarded before a worker took it. -/
  | dropped
  deriving DecidableEq, Inhabited, Repr

def JobState.name : JobState → String
  | queued => "queued"
  | running => "running"
  | done => "done"
  | panicked => "panicked"
  | dropped => "dropped"

/-- Jobs are numbered in the order in which they were submitted. -/
structure Workload where
  pool : Pool Nat
  kinds : List JobKind
  /-- The jobs that a worker has taken. -/
  started : List Nat
  /-- Whether waiting jobs were released; from then on no job waits. -/
  isReleased : Bool
  deriving Inhabited, Repr

namespace Workload

def ofPool (pool : Pool Nat) : Workload := ⟨pool, [], [], false⟩

def ends (w : Workload) (job : Nat) : Bool := w.isReleased || w.kinds[job]? ≠ some .waits

/-- Lets the workers take and end all jobs that they can. -/
def settle (w : Workload) : Workload :=
  let pool := w.pool.settle w.ends
  { w with pool, started := w.started ++ w.pool.queue.filter fun job => job ∉ pool.queue }

/-- Submits a job. It is part of the workload even if it is not accepted. -/
def submit (w : Workload) (kind : JobKind) : Outcome Unit × Workload :=
  let longer := { w with kinds := w.kinds ++ [kind] }
  match w.pool.submit w.kinds.length with
  | .ok pool => (.ok (), { longer with pool }.settle)
  | .error f => (.error f, longer)

/-- Releases the waiting jobs. -/
def release (w : Workload) : Workload := { w with pool := w.pool.finishRunning, isReleased := true }.settle

/-- Shuts the pool down, with some time for running jobs. -/
def shutdown (w : Workload) (graceMs : Nat) : Outcome Unit × Workload :=
  let pool := w.pool.stop
  (pool.stopped graceMs, { w with pool })

def stateOf (w : Workload) (job : Nat) : JobState :=
  if job ∈ w.pool.queue then .queued
  else if job ∈ w.pool.running then .running
  else if job ∉ w.started then .dropped
  else if w.kinds[job]? = some .panics then .panicked
  else .done

/-- The states of all jobs. -/
def states (w : Workload) : List JobState := (List.range w.kinds.length).map w.stateOf

end Workload

end SqlSharding.Execution
