import SqlSharding.Execution.Event
import SqlSharding.Execution.Ring
import SqlSharding.Named

/-!
# Observers

Observers are told every event. They keep the last events, or count them, and never act on a statement.
-/

namespace SqlSharding.Execution

/-- The number of events of each status, and of the failures of each data source. -/
structure Metrics where
  started : Nat
  succeeded : Nat
  failed : Nat
  failures : Named Nat
  deriving DecidableEq, Inhabited, Repr

namespace Metrics

def zero : Metrics := ⟨0, 0, 0, []⟩

/-- Counts an event. -/
def record (m : Metrics) (e : Event) : Metrics :=
  match e.status with
  | .before => { m with started := m.started + 1 }
  | .success => { m with succeeded := m.succeeded + 1 }
  | .failure =>
    { m with
      failed := m.failed + 1
      failures := Named.insert e.dataSource ((Named.get? m.failures e.dataSource).getD 0 + 1) m.failures }

/-- The statements that were started and have not ended; never less than none. -/
def inFlight (m : Metrics) : Nat := m.started - (m.succeeded + m.failed)

/-- The data sources with the most failures, those with equally many by name. -/
def topFailing (m : Metrics) (n : Nat) : List (String × Nat) :=
  (m.failures.mergeSort fun a b => b.2 ≤ a.2).take n

end Metrics

/-- Counts events and keeps the last ones. -/
structure Monitor where
  metrics : Metrics
  log : Ring Event
  deriving Inhabited, Repr

namespace Monitor

/-- A monitor that keeps as many events as its capacity says. -/
def ofCapacity (capacity : Nat) : Monitor := ⟨.zero, .empty capacity⟩

def record (m : Monitor) (e : Event) : Monitor := ⟨m.metrics.record e, m.log.push e⟩

/-- The monitor before its first event. -/
def reset (m : Monitor) : Monitor := ⟨.zero, m.log.clear⟩

end Monitor

inductive Observer where
  /-- Keeps nothing. -/
  | silent
  | log (events : Ring Event)
  | monitor (m : Monitor)
  deriving Inhabited, Repr

namespace Observer

/-- The observer after an event. -/
def observe (e : Event) : Observer → Observer
  | silent => silent
  | log events => log (events.push e)
  | monitor m => monitor (m.record e)

/-- Forgets the events of a log. -/
def clearLog : Observer → Observer
  | log events => log events.clear
  | o => o

/-- Brings a monitor back to where it was before its first event. -/
def resetMonitor : Observer → Observer
  | monitor m => monitor m.reset
  | o => o

/-- The events of the first log among some observers. -/
def firstLog (observers : List Observer) : Ring Event :=
  (observers.findSome? fun
    | log events => some events
    | _ => none).getD (.empty 0)

/-- The first monitor among some observers. -/
def firstMonitor (observers : List Observer) : Monitor :=
  (observers.findSome? fun
    | monitor m => some m
    | _ => none).getD (.ofCapacity 0)

end Observer

end SqlSharding.Execution
