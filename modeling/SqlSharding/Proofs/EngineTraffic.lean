import SqlSharding.Execution.Statements
import SqlSharding.Proofs.Endings

/-!
# What an engine leaves untouched

An action of an engine keeps whatever its parts keep: the events that it tells, the numbers that it takes, the pool and the work
of the units. So it only adds calls to those that were made before (`OnlyAdds`).
-/

namespace SqlSharding.Execution

open Physical (Backend Exchange Traffic Call GeneratedKeys)

variable {α : Type} {b : Backend} {context : Context} {work : Engine.Work α} {units : List StatementUnit}

namespace Engine

variable {I : State → Prop} {fates : Nat → Fate}

/-- A call keeps a property of the engine that telling events, taking numbers and the work of its units keep. -/
structure KeptByUnits (I : State → Prop) (context : Context) (work : Work α) : Prop where
  notify : ∀ events, Preserves I (Action.notify events)
  number : ∀ count, Preserves I (Action.number count)
  attempt : ∀ u, Preserves I (Action.attempt (work context u))

theorem KeptByUnits.runUnits (kept : KeptByUnits I context work) (numbered : List (StatementUnit × Nat)) :
    Preserves I (Engine.runUnits b context work fates numbered) := by
  have looks : Preserves I (Action.now b) := fun _ holds => holds
  have announces (u : StatementUnit) : Preserves I (Engine.announce b u) :=
    (kept.number _).bind fun _ => looks.bind fun _ => (kept.notify _).bind fun _ => .pure
  induction numbered with
  | nil => exact .pure
  | cons unit rest ih =>
    obtain ⟨u, i⟩ := unit
    refine Preserves.bind ?_ fun _ => ih.bind fun _ => .pure
    cases fate : fates i with
    | dropped => exact .pure
    | breaksOff => exact (announces u).bind fun _ => .pure
    | runs => exact (announces u).bind fun _ => (kept.attempt u).bind fun _ => looks.bind fun _ => (kept.notify _).bind fun _ => .pure

end Engine

/-! ## Traffic -/

/-- An action makes further calls, and those before stay. -/
def OnlyAdds (x : Engine.Action α) : Prop := ∀ t : Traffic, Preserves (fun s => t <+: s.traffic) x

theorem make_adds (t : Traffic) (call : Call) (answer : Traffic → Outcome α) : Preserves (t <+: ·) (Exchange.make call answer) := by
  intro s before
  rw [Exchange.make]
  cases answer s with
  | ok _ | error _ => exact before.trans (List.prefix_append s _)

theorem execute_onlyAdds (works : ∀ t u, Preserves (t <+: ·) (work context u)) : OnlyAdds (Engine.execute b context units work) := by
  intro t
  have onPool (f : Pool Nat → Outcome (Pool Nat)) : Preserves (fun s => t <+: s.traffic) (Engine.onPool f) := by
    intro s before
    rw [Engine.onPool]
    cases f s.engine.pool <;> exact before
  have kept : Engine.KeptByUnits (fun s => t <+: s.traffic) context work := {
    notify := fun _ _ before => before
    number := fun _ _ before => before
    attempt := by
      intro u s before
      have atEnd := works t u s.traffic before
      rw [Engine.Action.attempt]
      cases run : work context u s.traffic with
      | ok _ _ | error _ _ =>
        rw [run] at atEnd
        exact atEnd }
  refine (onPool _).bind fun _ => (kept.runUnits _).bind fun arrivals => (onPool _).bind fun _ => ?_
  cases answer context.failFast (arrange units.length arrivals) with
  | ok _ | error _ => exact fun _ => id

theorem query_onlyAdds : OnlyAdds (query b context units) :=
  fun t => (execute_onlyAdds (fun t _ => make_adds t _ _) t).bind fun _ => .pure

theorem update_onlyAdds (keys : GeneratedKeys) : OnlyAdds (update b context units keys) :=
  fun t => (execute_onlyAdds (fun t _ => make_adds t _ _) t).bind fun _ => .pure

theorem executeStatement_onlyAdds : OnlyAdds (execute b context units) :=
  fun t => (execute_onlyAdds (fun t _ => make_adds t _ _) t).bind fun _ => .pure

theorem batch_onlyAdds (entries : Nat) : OnlyAdds (batch b context units entries) :=
  fun t => (execute_onlyAdds (fun t _ => make_adds t _ _) t).bind fun _ => .pure

end SqlSharding.Execution
