import SqlSharding.Proofs.Assignments
import SqlSharding.Proofs.KeyPlaces

/-!
# Generated keys of a route

An `INSERT` names the table that it writes first, but its values can name more tables. The column of a generated key is that of
the first table with a rule, which is the written table if this one has a rule.
-/

namespace SqlSharding

namespace Sql

variable {d : Dialect} {sql : String} {stmt : Statement}

/-- Passes an `INSERT` up to the table that it writes. -/
def Walk.insertTable : Walk Identifier := do
  discard (expectAny [.keyword .insert, .keyword .replace] .insertVerb)
  skipAll insertModifiers
  discard (eat (.keyword .into))
  tableName

theorem Walk.insertTable_tables {s u : WalkState} {x : Identifier} (run : Walk.insertTable s = .ok x u)
    (noTables : s.statement.tables = .empty) : u.statement.tables = ⟨[⟨x.name, none⟩]⟩ := by
  have inStep : (Company.keeping fun s => s.statement.tables = .empty).InStep := by
    refine Company.keeping_inStep fun s _ u run holds => ?_
    obtain ⟨next, -, -, rfl⟩ := advance_eq_ok_iff.mp run
    exact holds
  have names : Keeps (fun s => s.statement.tables = .empty) identifier := (inStep.identifier (b := false)).keeps
  obtain ⟨_, s₁, verb, run⟩ := bind_eq_ok_iff.mp run
  have kept₁ := (inStep.expectAny (b := false) _ _).keeps.discards _ _ _ verb noTables
  obtain ⟨_, s₂, modifiers, run⟩ := bind_eq_ok_iff.mp run
  have kept₂ := (inStep.skipAll (b := false) _).keeps _ _ _ modifiers kept₁
  obtain ⟨_, s₃, into, run⟩ := bind_eq_ok_iff.mp run
  have kept₃ := (inStep.discard_eat (b := false) _).keeps _ _ _ into kept₂
  obtain ⟨y, s₄, parts, run⟩ := bind_eq_ok_iff.mp run
  have kept₄ : s₄.statement.tables = .empty :=
    names.bind (fun _ => .bind (inStep.eat (b := false) _).keeps fun _ => .ite names .pure) _ _ _ parts kept₃
  obtain ⟨_, s₅, records, run⟩ := bind_eq_ok_iff.mp run
  obtain ⟨rfl, rfl⟩ := pure_eq_ok_iff.mp run
  cases records
  show s₄.statement.tables.add ⟨y.name, none⟩ = _
  rw [kept₄]
  rfl

/-- The first table of a statement stays the first one. -/
theorem Tables.head?_add {ts : Tables} {name : String} (first : ts.names.head? = some name) (t : TableRef) :
    (ts.add t).names.head? = some name := by
  show ((insert t ts.entries).map (·.name)).head? = some name
  rcases names_insert t ts.entries with same | ⟨added, -⟩
  · rw [same]
    exact first
  · rw [added, List.head?_append]
    exact Option.or_eq_some_iff.mpr (.inl first)

/-- Walks over the rest of a statement keep its first table. -/
theorem Walk.keptByRecords_of_first (name : String) :
    KeptByRecords (fun s => s.statement.tables.names.head? = some name) fun _ => True :=
  keptByRecords_of_tables (P := fun _ ts => ts.names.head? = some name) fun _ _ t first => Tables.head?_add first t

/-- The first table of an `INSERT` is the one that it writes. -/
theorem Walk.insertTable_of_insertStatement {s u : WalkState} (run : Walk.insertStatement s = .ok () u)
    (noTables : s.statement.tables = .empty) :
    ∃ x t, Walk.insertTable s = .ok x t ∧ u.statement.tables.names.head? = some x.name := by
  obtain ⟨_, s₁, verb, run⟩ := bind_eq_ok_iff.mp run
  obtain ⟨_, s₂, modifiers, run⟩ := bind_eq_ok_iff.mp run
  obtain ⟨_, s₃, into, run⟩ := bind_eq_ok_iff.mp run
  obtain ⟨_, s₄, names, run⟩ := bind_eq_ok_iff.mp run
  obtain ⟨x, names, -⟩ := map_eq_ok_iff.mp names
  have written : insertTable s = .ok x s₄ := bind_eq_ok_iff.mpr ⟨_, s₁, verb, bind_eq_ok_iff.mpr ⟨_, s₂, modifiers,
    bind_eq_ok_iff.mpr ⟨_, s₃, into, names⟩⟩⟩
  have first : s₄.statement.tables.names.head? = some x.name := by
    rw [insertTable_tables written noTables]
    rfl
  have settled := (keptByRecords_of_first x.name).settled
  obtain ⟨columnsEnd?, s₅, lists, run⟩ := bind_eq_ok_iff.mp run
  have keys := Company.keeping_keyPoints (I := fun s => s.statement.tables.names.head? = some x.name) fun _ _ _ => .records fun _ => id
  have first₅ := (settled.insertColumns keys.toPlaces (b := false)).keeps _ _ _ lists first
  obtain ⟨e', same⟩ := keys.total? columnsEnd?
  have rest := settled.insertRest (b := false) keys same
  exact ⟨x, s₄, written, rest.keeps _ _ _ run first₅⟩

theorem insertTable_of_parse (parsed : parse d sql = .ok stmt) (isInsert : stmt.kind = .insert) :
    ∃ c x t, Cursor.ofText d sql = .ok c ∧ Walk.insertTable ⟨c, .ofKind .insert⟩ = .ok x t ∧
      stmt.tables.names.head? = some x.name := by
  obtain ⟨kind, p, ts, n, s, reads, -, run, rfl⟩ := parse_eq_ok_iff.mp parsed
  obtain rfl : kind = .insert := (kind_of_wholeStatement run).symm.trans isInsert
  obtain ⟨_, s₁, body, run⟩ := Walk.bind_eq_ok_iff.mp run
  obtain ⟨x, t, written, first⟩ := Walk.insertTable_of_insertStatement body rfl
  have settled := (Walk.keptByRecords_of_first x.name).settled
  refine ⟨_, x, t, Cursor.ofText_of_reads reads, written, ?_⟩
  refine Walk.Keeps.bind (settled.discard_eat (b := false) _).keeps (fun _ => ?_) _ _ _ run first
  refine .bind (settled.isAtEnd (b := false)).keeps fun ended => .ite ?_ .pure
  exact fun _ _ _ run => nomatch run

end Sql

namespace Routing

open Sql (Statement Dialect)

variable {r : Rule} {s : Statement} {sql : String} {parameters : List Value} {key : Value} {result : RouteResult} {d : Dialect}

/-- The key column of a statement whose first table has a rule is that of this rule. -/
theorem keyColumn?_of_first {name : String} {t : TableRule} (first : s.tables.names.head? = some name)
    (found : r.find? name = some t) :
    keyColumn? r s = if s.kind = .insert ∧ s.generatedKeyPoint?.isSome then
      t.generatedKeyColumn.filter fun column => !s.hasInsertColumn column else none := by
  obtain ⟨names, isNames⟩ := List.head?_eq_some_iff.mp first
  rw [keyColumn?, ruledTables, isNames, List.filterMap_cons_some found]
  simp

/-- A statement takes a key if it has a key column. -/
theorem generatedKey_eq (routed : route r s sql parameters key = .ok result) :
    result.generatedKey = (keyColumn? r s).map fun _ => key := by
  rw [route] at routed
  cases ruled : ruledTables r s with
  | nil =>
    have noKey : keyColumn? r s = none := by simp [keyColumn?, ruled]
    rw [ruled] at routed
    dsimp only [routeToDefault] at routed
    rw [noKey]
    split at routed
    · cases routed
      rfl
    · cases routed
  | cons primary others =>
    rw [ruled] at routed
    dsimp only at routed
    split at routed
    · cases routed
    obtain ⟨_, -, routed⟩ := bind_eq_ok_iff.mp routed
    obtain ⟨_, -, routed⟩ := bind_eq_ok_iff.mp routed
    obtain ⟨_, -, routed⟩ := bind_eq_ok_iff.mp routed
    obtain ⟨_, -, routed⟩ := bind_eq_ok_iff.mp routed
    obtain ⟨_, -, routed⟩ := bind_eq_ok_iff.mp routed
    obtain rfl := pure_eq_ok_iff.mp routed
    exact Option.map_map ..

/-- An `INSERT` into a table with a rule takes a key if this rule names a key column that the `INSERT` leaves out. -/
theorem generatedKey_of_route (parsed : Sql.parse d sql = .ok s) (isInsert : s.kind = .insert)
    (routed : route r s sql parameters key = .ok result) :
    ∃ c x u, Sql.Cursor.ofText d sql = .ok c ∧ Sql.Walk.insertTable ⟨c, .ofKind .insert⟩ = .ok x u ∧
      ∀ t, r.find? x.name = some t → result.generatedKey = if s.generatedKeyPoint?.isSome then
        (t.generatedKeyColumn.filter fun column => !s.hasInsertColumn column).map fun _ => key else none := by
  obtain ⟨c, x, u, begins, written, first⟩ := Sql.insertTable_of_parse parsed isInsert
  refine ⟨c, x, u, begins, written, fun t found => ?_⟩
  rw [generatedKey_eq routed, keyColumn?_of_first first found]
  split <;> simp_all

/-- Without such a rule the key column can be that of a table that is only read. -/
example : ∃ s, Sql.parse .mysql "INSERT INTO log (a) VALUES ((SELECT b FROM o))" = .ok s ∧
    keyColumn? (.ofTables [⟨"o", [⟨"ds", "o_0"⟩], none, none, some "k"⟩] none) s = some "k" := by
  have drafted : Sql.draft? .mysql "INSERT INTO log (a) VALUES ((SELECT b FROM o))" = some (⟨.insert,
      ⟨[⟨"log", none⟩, ⟨"o", none⟩]⟩, .empty,
      [.table ⟨12, 15⟩ "log" none, .table ⟨43, 44⟩ "o" none, .generatedKey 18 45 0], 0, none, ["a"], 1, []⟩, 0) := by
    decide +kernel
  exact ⟨_, Sql.parse_of_draft drafted, by cbv⟩

end Routing

end SqlSharding
