import SqlSharding.Proofs.Answers
import SqlSharding.Execution.Statements

/-!
# Calls that the units of a statement make

The work of a unit is one call. An engine that accepts the jobs of a statement does the work of each unit once, also after
another one failed; one that is shut down refuses them and does the work of none (`Carries`).
-/

namespace SqlSharding

namespace Physical

/-- From one moment to a later one these calls were made, one after the other, whether or not they failed. -/
def Made (t : Traffic) (calls : List Call) (t' : Traffic) : Prop := ∃ entries, t' = t ++ entries ∧ entries.map (·.call) = calls

theorem Made.refl (t : Traffic) : Made t [] t := ⟨[], (List.append_nil t).symm, rfl⟩

theorem Made.trans {t t' t'' : Traffic} {calls calls' : List Call} (first : Made t calls t') (second : Made t' calls' t'') :
    Made t (calls ++ calls') t'' := by
  obtain ⟨entries, rfl, rfl⟩ := first
  obtain ⟨entries', rfl, rfl⟩ := second
  exact ⟨entries ++ entries', List.append_assoc .., List.map_append⟩

/-- An exchange is one call. -/
def MakesOne {α : Type} (x : Exchange α) (call : Call) : Prop :=
  ∀ t, Ends (· = t) x (fun _ t' => Made t [call] t') fun _ t' => Made t [call] t'

theorem make_makesOne {α : Type} (call : Call) (answer : Traffic → Outcome α) : MakesOne (Exchange.make call answer) call := by
  rintro t t rfl
  rw [Exchange.make]
  cases answer t with
  | ok _ | error _ => exact ⟨_, rfl, rfl⟩

end Physical

namespace Execution

open Physical (Backend Call Traffic Made MakesOne make_makesOne GeneratedKeys)
open Engine (Action Work)

variable {α β : Type} {b : Backend} {context : Context} {work : Work α}

namespace Engine

/-- What tells events and takes numbers makes no calls. -/
theorem announce_quiet (u : StatementUnit) (P : Traffic → Prop) :
    Ends (fun s => P s.traffic) (announce b u) (fun _ s => P s.traffic) fun _ _ => False := fun _ holds => holds

theorem runUnit_makes {u : StatementUnit} {call : Call} (makes : MakesOne (work context u) call) (t : Traffic) (calls : List Call) :
    Ends (fun s => Made t calls s.traffic) (runUnit b context work .runs u) (fun _ s => Made t (calls ++ [call]) s.traffic)
      fun _ _ => False := by
  refine (announce_quiet u (Made t calls)).bind fun events => ?_
  have attempts : Ends (fun s : State => Made t calls s.traffic) (Action.attempt (work context u))
      (fun _ s => Made t (calls ++ [call]) s.traffic) fun _ _ => False := by
    intro s before
    have atEnd := makes s.traffic s.traffic rfl
    rw [Action.attempt]
    cases run : work context u s.traffic with
    | ok _ t' | error _ t' =>
      rw [run] at atEnd
      exact before.trans atEnd
  exact attempts.bind fun outcome => fun s after => after

/-- Every unit makes its call, whatever comes of the others. -/
theorem runUnits_makes {callOf : StatementUnit → Call} (makes : ∀ u, MakesOne (work context u) (callOf u))
    (numbered : List (StatementUnit × Nat)) (t : Traffic) (calls : List Call) :
    Ends (fun s => Made t calls s.traffic) (runUnits b context work (fun _ => .runs) numbered)
      (fun _ s => Made t (calls ++ numbered.map fun unit => callOf unit.1) s.traffic) fun _ _ => False := by
  induction numbered generalizing calls with
  | nil =>
    rw [List.map_nil, List.append_nil]
    exact Ends.pure fun _ => id
  | cons unit rest ih =>
    obtain ⟨u, i⟩ := unit
    refine (runUnit_makes (makes u) t calls).bind fun outcome => (ih _).bind fun later => Ends.pure fun s after => ?_
    rwa [List.append_assoc] at after

end Engine

/-- An action of an engine refuses to make several calls after a shutdown, and otherwise makes each call once. -/
structure Carries (x : Action α) (calls : List Call) : Prop where
  refuses : ∀ s, 2 ≤ calls.length → s.engine.isShutDown = true → x s = .error .executorShutdown s
  makes : ∀ s, calls.length ≤ 1 ∨ s.engine.isShutDown = false →
    Ends (· = s) x (fun _ t => Made s.traffic calls t.traffic) fun _ t => Made s.traffic calls t.traffic

theorem Carries.map {x : Action α} {calls : List Call} (carries : Carries x calls) (f : α → β) :
    Carries (do return f (← x)) calls where
  refuses s several isShutDown := by
    simp only [bind, EStateM.bind, carries.refuses s several isShutDown]
  makes s accepted := (carries.makes s accepted).bind fun _ => Ends.pure fun _ => id

namespace Engine

/-- The jobs of a call are accepted, unless there are some after a shutdown. -/
theorem submitJobs_quiet {s : State} {count : Nat} (accepted : count ≤ 1 ∨ s.engine.isShutDown = false) :
    Ends (· = s) (submitJobs count) (fun _ t => t.traffic = s.traffic) fun _ _ => False := by
  rintro s rfl
  rw [submitJobs, onPool]
  rcases accepted with few | running
  · have none : (List.range count).drop 1 = [] := List.drop_eq_nil_iff.mpr (by rw [List.length_range]; exact few)
    rw [none]
    rfl
  · have isAccepting : s.engine.pool.isAccepting = true := by simpa [isShutDown] using running
    rw [Pool.foldlM_submit isAccepting]

theorem execute_carries {callOf : StatementUnit → Call} (makes : ∀ u, MakesOne (work context u) (callOf u))
    (units : List StatementUnit) : Carries (execute b context units work) (units.map callOf) where
  refuses s several isShutDown := by
    rw [List.length_map] at several
    have stopped : s.engine.pool.isAccepting = false := by simpa [Engine.isShutDown] using isShutDown
    have jobs : (List.range units.length).drop 1 = 1 :: List.range' 2 (units.length - 2) := by
      obtain ⟨n, length⟩ := Nat.exists_eq_add_of_le' several
      rw [length, List.range_eq_range', List.range'_succ, List.drop_one, List.tail_cons, List.range'_succ]
      rfl
    have refused : submitJobs units.length s = .error .executorShutdown s := by
      rw [submitJobs, onPool, jobs, Pool.foldlM_submit_of_stopped stopped]
    simp only [execute, call, bind, EStateM.bind, refused]
  makes s accepted := by
    rw [List.length_map] at accepted
    refine ((submitJobs_quiet accepted).failing fun _ _ => False.elim).bind fun _ => ?_
    have each : (units.zipIdx.map fun unit => callOf unit.1) = units.map callOf := by
      calc units.zipIdx.map (fun unit => callOf unit.1)
        _ = (units.zipIdx.map Prod.fst).map callOf := List.map_map.symm
        _ = units.map callOf := by rw [List.zipIdx_map_fst]
    have runs : Ends (fun t : State => t.traffic = s.traffic) (runUnits b context work (fun _ => .runs) units.zipIdx)
        (fun _ t => Made s.traffic (units.map callOf) t.traffic) fun _ _ => False := by
      intro t same
      rw [← each]
      exact runUnits_makes makes units.zipIdx s.traffic [] t (same ▸ Made.refl t.traffic)
    have finishes : Ends (fun t : State => Made s.traffic (units.map callOf) t.traffic) finishJobs
        (fun _ t => Made s.traffic (units.map callOf) t.traffic) fun _ t => Made s.traffic (units.map callOf) t.traffic :=
      fun _ made => made
    refine (runs.failing fun _ _ => False.elim).bind fun arrivals => finishes.bind fun _ => ?_
    cases answer context.failFast (arrange units.length arrivals) with
    | ok results => exact fun t made => made
    | error f => exact fun t made => made

end Engine

/-! ## Statements -/

section

variable (context : Context) (units : List StatementUnit)

theorem query_carries :
    Carries (query b context units) (units.map fun u => .statement u.connection (.query u.sql u.parameters)) :=
  (Engine.execute_carries (fun _ => make_makesOne _ _) units).map _

theorem update_carries (keys : GeneratedKeys) :
    Carries (update b context units keys) (units.map fun u => .statement u.connection (.update u.sql u.parameters keys)) :=
  (Engine.execute_carries (fun _ => make_makesOne _ _) units).map _

theorem execute_carries :
    Carries (execute b context units) (units.map fun u => .statement u.connection (.execute u.sql u.parameters)) :=
  (Engine.execute_carries (fun _ => make_makesOne _ _) units).map _

theorem batch_carries (entries : Nat) :
    Carries (batch b context units entries) (units.map fun u => .statement u.connection (.batch u.sql u.parameterSets)) :=
  (Engine.execute_carries (fun _ => make_makesOne _ _) units).map _

end

end Execution

end SqlSharding
