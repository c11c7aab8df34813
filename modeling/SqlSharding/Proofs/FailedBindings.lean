import SqlSharding.Proofs.ServerSessions

/-!
# Statements that cannot be bound

The units of a statement get their connections one after the other, and nothing runs until all of them have one. If a unit
does not get one, the session has still remembered the writes of the units before it: reads go to masters from then on,
although nothing was written. Only if the session remembered one before, if the statement only reads, or if none of these
units lies in a group, do later reads go where they would have gone without it (`bind_failed`).
-/

namespace SqlSharding

open Physical (Backend Handle)
open Sources (Registry LogicalSource Role Group)

namespace Session

variable {b : Backend} {s t : State} {kind : Sql.StatementKind} {names : List String} {logical : String}

/-- What connections for statements of a kind at data sources change: the session remembers a write to a group. -/
def Connected (s t : State) (kind : Sql.StatementKind) (names : List String) : Prop :=
  s.registry.SameMembers t.registry ∧
    t.session.hasWritten = (s.session.hasWritten || kind.isWrite && names.any s.registry.hasGroup)

theorem Connected.start (s : State) (kind : Sql.StatementKind) : Connected s s kind [] := ⟨.refl _, by simp⟩

theorem getConnection_connects (name : String) :
    Ends (Connected s · kind names) (getConnection b name kind) (fun _ t => Connected s t kind (names ++ [name]))
      fun _ t => Connected s t kind names := by
  rintro t ⟨same, written⟩
  have gets := getConnection_gets (b := b) t name kind t rfl
  cases run : getConnection b name kind t with
  | ok c t' =>
    rw [run] at gets
    have gets : Gets t name kind (.ok c) t' := gets
    refine ⟨same.trans gets.sameMembers, ?_⟩
    rw [gets.hasWritten_eq, written, same.hasGroup_eq, Bool.or_assoc, ← Bool.and_or_distrib_left]
    simp
  | error f t' =>
    rw [run] at gets
    have gets : Gets t name kind (.error f) t' := gets
    exact ⟨same.trans gets.sameMembers, gets.session_of_error.symm ▸ written⟩

/-- Requests are served by the same roles if the session remembers the same. -/
theorem keyFor?_eq (same : s.registry.SameMembers t.registry) (remembers : t.session.hasWritten = s.session.hasWritten) :
    t.keyFor? logical kind = s.keyFor? logical kind := by
  have ofRested (s : State) : s.keyFor? logical kind =
      ((Named.get? s.registry logical).map LogicalSource.rested).map fun source =>
        ⟨logical, source.roleFor kind s.session.hasWritten⟩ := by
    simp [State.keyFor?, Function.comp_def, LogicalSource.roleFor_rested]
  rw [ofRested, ofRested, same logical, remembers]

/-- The roles that serve later requests, after connections for statements of a kind at data sources. -/
structure RolesAfter (s t : State) (kind : Sql.StatementKind) (names : List String) : Prop where
  /-- If the session remembers nothing new, requests are served by the same roles as before. -/
  unchanged : (s.session.hasWritten = true ∨ kind.isWrite = false ∨ ∀ name ∈ names, s.registry.hasGroup name = false) →
    ∀ logical kind', t.keyFor? logical kind' = s.keyFor? logical kind'
  /-- After a connection to write to a group all groups are served by their masters. -/
  master : kind.isWrite = true → (∃ name ∈ names, s.registry.hasGroup name = true) →
    ∀ logical kind' g, t.registry.find logical = .ok (.group g) → t.keyFor? logical kind' = some ⟨logical, some .master⟩

theorem Connected.rolesAfter (connected : Connected s t kind names) : RolesAfter s t kind names := by
  obtain ⟨same, remembers⟩ := connected
  refine ⟨fun nothing logical kind' => keyFor?_eq same ?_, fun writes oneGroup logical kind' g isGroup => ?_⟩
  · rcases nothing with written | reads | noGroup
    · rw [remembers, written, Bool.true_or]
    · rw [remembers, reads, Bool.false_and, Bool.or_false]
    · have none : names.any s.registry.hasGroup = false := by simpa using noGroup
      rw [remembers, none, Bool.and_false, Bool.or_false]
  · have one : names.any s.registry.hasGroup = true := by simpa using oneGroup
    have written : t.session.hasWritten = true := by rw [remembers, writes, one, Bool.and_true, Bool.or_true]
    rw [State.keyFor?_of_find isGroup]
    simp [LogicalSource.roleFor, Group.roleFor, written]

end Session

namespace Client

open Routing (RouteResult ExecutionUnit)
open Session (Connected RolesAfter)

variable {b : Backend} {S α β : Type} {s t : State S} {kind : Sql.StatementKind} {f : Failure}

/-- Connections are got one after the other, up to one that fails. -/
theorem connectAll_ends (s : State S) (xs : List α) (name : α → String) (make : α → Handle → β) :
    Ends (· = s)
      (xs.mapM fun a => do
        let connection ← Action.onSession (Session.getConnection b (name a) kind)
        return make a connection : Action S (List β))
      (fun _ t => Connected s.own t.own kind (xs.map name))
      fun _ t => ∃ done a rest, xs = done ++ a :: rest ∧ Connected s.own t.own kind (done.map name) := by
  have each (done : List α) (a : α) : Ends (fun t : State S => Connected s.own t.own kind (done.map name))
      (do
        let connection ← Action.onSession (Session.getConnection b (name a) kind)
        return make a connection)
      (fun _ t => Connected s.own t.own kind ((done ++ [a]).map name)) fun _ t => Connected s.own t.own kind (done.map name) := by
    rw [List.map_append]
    exact (Action.onSession_own (Session.getConnection_connects (name a))).bind fun _ => Ends.pure fun _ => id
  rintro s rfl
  have start : Connected s.own s.own kind (([] : List α).map name) := Connected.start s.own kind
  exact Ends.mapM_along each s start

/-- A statement cannot be bound. Later requests are served as after connections for the units before the one that failed. -/
theorem bind_failed {result : RouteResult} (failed : bind b result s = .error f t) :
    ∃ done u rest, result.units = done ++ u :: rest ∧
      RolesAfter s.own t.own result.kind (done.map (·.dataSource)) := by
  have ⟨done, u, rest, units, connected⟩ := (connectAll_ends s result.units (·.dataSource) _).failure rfl failed
  exact ⟨done, u, rest, units, connected.rolesAfter⟩

/-- Orders in two groups. -/
def twoGroups : Registry :=
  [("ms_0", .group ⟨"ms_0", "m_0", ["s_0"], .roundRobin, 0⟩), ("ms_1", .group ⟨"ms_1", "m_1", ["s_1"], .roundRobin, 0⟩)]

/-- An update of all orders. -/
def updateOfOrders : RouteResult :=
  ⟨.update, [⟨"ms_0", "UPDATE orders SET a = 1", []⟩, ⟨"ms_1", "UPDATE orders SET a = 1", []⟩], none, none⟩

/-- The second group refuses the update, so that nothing is written, but the first group is read at its master afterwards. -/
example :
    match bind (Session.refusingBackend "m_1") updateOfOrders ⟨.new, { ordersDatabase with registry := twoGroups }, [], ()⟩ with
    | .ok .. => False
    | .error _ t => t.own.keyFor? "ms_0" .select = some ⟨"ms_0", some .master⟩ := by
  cbv

/-- The same holds of the groups of a batch. -/
theorem bindGroups_failed {s t : State PreparedStatement} {groups : List Execution.BatchGroup}
    (failed : PreparedStatement.bindGroups b kind groups s = .error f t) :
    ∃ done g rest, groups = done ++ g :: rest ∧ RolesAfter s.own t.own kind (done.map (·.dataSource)) := by
  have ⟨done, g, rest, whole, connected⟩ := (connectAll_ends s groups (·.dataSource) _).failure rfl failed
  exact ⟨done, g, rest, whole, connected.rolesAfter⟩

end Client

end SqlSharding
