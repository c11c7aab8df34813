import SqlSharding.Execution.Observer
import SqlSharding.Proofs.Assignments
import SqlSharding.Proofs.RegisteredSources

/-!
# Counters of events

A monitor counts the events that it is told, by their status, and failures also by their data source. So the counters of all
data sources together are the number of failures.
-/

namespace SqlSharding

namespace Named

/-- All entries of a table of numbers together. -/
def total (xs : Named Nat) : Nat := (xs.map (·.2)).sum

theorem total_cons (entry : String × Nat) (xs : Named Nat) : total (entry :: xs) = entry.2 + total xs := by
  rw [total, List.map_cons, List.sum_cons]
  rfl

/-- An entry takes the place of the one before it, if there was one. -/
theorem total_insert {xs : Named Nat} (ordered : Ordered xs) (name : String) (n : Nat) :
    total (insert name n xs) + (get? xs name).getD 0 = total xs + n := by
  induction xs with
  | nil => exact Nat.add_comm n 0
  | cons entry rest ih =>
    obtain ⟨other, m⟩ := entry
    obtain ⟨first, inner⟩ := List.pairwise_cons.mp ordered
    by_cases same : name = other
    · subst same
      rw [insert, if_pos rfl, get?_cons, if_pos rfl, total_cons, total_cons, Option.getD_some]
      omega
    · by_cases before : name < other
      · have absent : get? rest name = none := get?_eq_none fun x member => before.trans (first x member)
        rw [insert, if_neg same, if_pos before, get?_cons, if_neg (Ne.symm same), absent, total_cons, Option.getD_none]
        omega
      · have inRest := ih inner
        rw [insert, if_neg same, if_neg before, get?_cons, if_neg (Ne.symm same), total_cons, total_cons]
        omega

end Named

namespace Execution

/-- What a monitor counts of some events. -/
structure Counts (m : Metrics) (events : List Event) : Prop where
  started : m.started = events.countP (·.status = .before)
  succeeded : m.succeeded = events.countP (·.status = .success)
  failed : m.failed = events.countP (·.status = .failure)
  ordered : Named.Ordered m.failures
  bySource : ∀ source, (Named.get? m.failures source).getD 0 = events.countP fun e => e.status = .failure && e.dataSource = source
  total : Named.total m.failures = m.failed

theorem Counts.zero : Counts .zero [] := ⟨rfl, rfl, rfl, List.Pairwise.nil, fun _ => rfl, rfl⟩

/-- Each event is counted once. -/
theorem Counts.record {m : Metrics} {events : List Event} (counts : Counts m events) (e : Event) :
    Counts (m.record e) (events ++ [e]) := by
  obtain ⟨started, succeeded, failed, ordered, bySource, total⟩ := counts
  cases status : e.status with
  | before | success =>
    constructor <;> simp_all [Metrics.record]
  | failure =>
    have counted := Named.total_insert ordered e.dataSource ((Named.get? m.failures e.dataSource).getD 0 + 1)
    constructor
    · simpa [Metrics.record, status] using started
    · simpa [Metrics.record, status] using succeeded
    · simpa [Metrics.record, status] using failed
    · simpa [Metrics.record, status] using ordered.insert _ _
    · intro source
      by_cases here : e.dataSource = source
      · simp [Metrics.record, status, Named.get?_insert, here, bySource]
      · simp [Metrics.record, status, Named.get?_insert, here, bySource]
    · simp only [Metrics.record, status]
      omega

end Execution

end SqlSharding
