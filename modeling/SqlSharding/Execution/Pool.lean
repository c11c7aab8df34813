import SqlSharding.Failure

/-!
# Worker pools

A pool has a fixed number of workers, which take jobs from a queue in the order in which they were submitted. A shutdown
ends admission and drops the jobs that no worker has taken; it succeeds if no job is left running.
-/

namespace SqlSharding.Execution

structure Pool (Job : Type) where
  size : Nat
  isAccepting : Bool
  /-- The jobs that wait for a worker, the oldest one first. -/
  queue : List Job
  /-- The jobs that a worker has taken and not ended. -/
  running : List Job
  deriving DecidableEq, Inhabited, Repr

namespace Pool

variable {Job : Type}

/-- A pool with some number of workers, but at least one. -/
def ofSize (size : Nat) : Pool Job := ⟨max size 1, true, [], []⟩

/-- Adds a job to the queue, as long as there was no shutdown. -/
def submit (p : Pool Job) (job : Job) : Outcome (Pool Job) :=
  if p.isAccepting then .ok { p with queue := p.queue ++ [job] } else .error .executorShutdown

/-- A free worker takes the oldest job. -/
def take? (p : Pool Job) : Option (Job × Pool Job) :=
  match p.queue with
  | [] => none
  | job :: rest =>
    if p.running.length < p.size then some (job, { p with queue := rest, running := p.running ++ [job] }) else none

/-- A job ends, whether normally or not. -/
def finish [DecidableEq Job] (p : Pool Job) (job : Job) : Pool Job := { p with running := p.running.erase job }

/-- All jobs that were taken end. -/
def finishRunning (p : Pool Job) : Pool Job := { p with running := [] }

/-- Ends admission; the jobs in the queue are dropped. -/
def stop (p : Pool Job) : Pool Job := { p with isAccepting := false, queue := [] }

/-- The outcome of a shutdown when its grace period is over. -/
def stopped (p : Pool Job) (graceMs : Nat) : Outcome Unit :=
  if p.running.isEmpty then .ok () else .error (.shutdownTimeout graceMs)

theorem length_queue_of_take? {p taken : Pool Job} {job : Job} (took : p.take? = some (job, taken)) :
    taken.queue.length + 1 = p.queue.length := by
  unfold take? at took
  split at took
  · cases took
  · rename_i oldest rest queue
    split at took
    · cases took
      simp [queue]
    · cases took

/-- Lets the workers take and end jobs until all of them are held up by jobs that do not end or there is no job left. -/
def settle [DecidableEq Job] (ends : Job → Bool) (p : Pool Job) : Pool Job :=
  match _took : p.take? with
  | none => p
  | some (job, taken) => settle ends (if ends job then taken.finish job else taken)
termination_by p.queue.length
decreasing_by
  have shorter := length_queue_of_take? _took
  split <;> exact Nat.lt_of_succ_le (Nat.le_of_eq shorter)

end Pool

end SqlSharding.Execution
