import SqlSharding.Proofs.Queries
import SqlSharding.Sql.Parse

/-!
# Statements in company

In a company that is steady and treats rows, names and targets alike, the walks over whole statements follow each other.
The place of a generated key is recorded once, in an `INSERT`; that step is asked for where it is taken.
-/

namespace SqlSharding.Sql

/-- Passes the targets of a DELETE with the tables after them, and records the targets. -/
def Walk.targetsEnd : Walk Unit := do
  let targets ← deleteTargets
  if ← eat (.keyword .from) then tableReferences
  record (targets.foldl addTarget)

/-- Passes the rows of an INSERT, or what stands in their place, and what follows them. -/
def Walk.insertEnd (columnsEnd? : Option Nat) : Walk Unit := do
  insertSource columnsEnd?
  if ← eat (.keyword .on) then
    discard (expect (.keyword .duplicate))
    discard (expect (.keyword .key))
    discard (expect (.keyword .update))
    assignments false

/-- Passes what follows the columns of an INSERT. -/
def Walk.insertRest (columnsEnd? : Option Nat) : Walk Unit := do
  if ← eat (.keyword .output) then expression TokenKind.endsInsertOutput
  insertEnd columnsEnd?

/-- Passes what follows the tables of a DELETE. -/
def Walk.deleteEnd : Walk Unit := do
  if ← eat (.keyword .output) then expression TokenKind.endsClause
  if ← eat (.keyword .using) then tableReferences
  whereClause
  orderAndLimit

/-- Passes what follows the first words of a DELETE. -/
def Walk.deleteSources : Walk Unit := do
  if ← eat (.keyword .from) then tableReferences
  else
    let targets ← deleteTargets
    if ← eat (.keyword .from) then tableReferences
    record (targets.foldl addTarget)
  deleteEnd

/-- The facts about the parts of statements from which the walks over whole statements follow. -/
structure Company.Settled (C : Company) (Records : Bool → Prop) : Prop extends C.Steady Records where
  readsName : C.Follows true (discard Walk.tableName) (discard Walk.tableName) (fun _ => false) Eq
  recordColumn : ∀ {x x'}, C.Columns x x' →
    C.Follows false (Walk.record fun s => { s with insertColumns := s.insertColumns ++ [x.name] })
      (Walk.record fun s => { s with insertColumns := s.insertColumns ++ [x'.name] }) (fun _ => false) Eq
  countRow : C.Follows false (Walk.record fun s => { s with insertRows := s.insertRows + 1 })
    (Walk.record fun s => { s with insertRows := s.insertRows + 1 }) (fun _ => false) Eq
  singleRow : C.Follows false (Walk.record fun s => { s with insertRows := 1 })
    (Walk.record fun s => { s with insertRows := 1 }) (fun _ => false) Eq
  insertRows : ∀ {s s'}, C.Beside s s' → s.statement.insertRows = s'.statement.insertRows
  recordRow : ∀ {values values'}, List.Forall₂ (Option.Rel C.Operands) values values' →
    C.Follows false
      (Walk.record fun s => (Walk.rowConditions s.insertColumns values).foldl Statement.addCondition s)
      (Walk.record fun s => (Walk.rowConditions s.insertColumns values').foldl Statement.addCondition s)
      (fun _ => false) Eq
  readsTargets : C.Follows true Walk.targetsEnd Walk.targetsEnd (fun _ => false) Eq

namespace TokenKind

theorem respects_endsAssignment : Respects endsAssignment := by
  rintro _ _ (_ | _ | _ | _) <;> rfl

theorem respects_endsInsertOutput : Respects endsInsertOutput := by
  rintro _ _ (_ | _ | _ | _) <;> rfl

end TokenKind

namespace Company.Steady

variable {C : Company} {Records : Bool → Prop} {b : Bool} (steady : C.Steady Records)

include steady

/-! ## The readers at full depth -/

omit steady in
theorem atDepth (abreast : C.Abreast) {m m' : Nat → Walk Unit}
    (each : ∀ depth, C.Follows b (m depth) (m' depth) (fun _ => false) Eq) :
    C.Follows b (do m (← Walk.depth)) (do m' (← Walk.depth)) (fun _ => false) Eq := by
  have same : C.Follows b Walk.depth Walk.depth (fun _ => b) Eq := by
    refine abreast.cursor.bind (fun c => ⟨c, .same _, rfl, rfl, rfl⟩) fun c c' alike => .pure ?_
    rw [alike.remaining]
  exact same.seq each

theorem expression {ends : TokenKind → Bool} (respects : TokenKind.Respects ends) :
    C.Follows b (Walk.expression ends) (Walk.expression ends) (fun _ => false) Eq :=
  atDepth steady.toAbreast fun depth => ((Nested.all steady depth).expression respects).anywhere

theorem tableReferences : C.Follows true Walk.tableReferences Walk.tableReferences (fun _ => false) Eq :=
  atDepth steady.toAbreast fun depth => (Nested.all steady depth).tableReferences

theorem query {r : Bool} (records : Records r) : C.Follows b (Walk.query r) (Walk.query r) (fun _ => false) Eq :=
  atDepth steady.toAbreast fun depth => ((Nested.all steady depth).query records).anywhere

theorem whereClause : C.Follows b Walk.whereClause Walk.whereClause (fun _ => false) Eq := by
  refine (steady.eat _).seq fun isWhere => .branch (fun _ => ?_) fun _ => .pure rfl
  exact atDepth steady.toAbreast fun depth => (Nested.all steady depth).conditions.anywhere

/-! ## Assignments -/

theorem namedColumn : C.Follows b Walk.namedColumn Walk.namedColumn (fun _ => true) C.Columns := by
  refine steady.readsColumn.anywhere.bind steady.column_total fun x x' same => ?_
  cases same with
  | none => exact Abreast.failExpected
  | some both => exact .pure both

theorem assignedValue {x x' : Column} (column : C.Columns x x') :
    C.Follows b (Walk.assignedValue x) (Walk.assignedValue x') (fun _ => false) Eq := by
  refine steady.readsValue.anywhere.bind steady.operand_total fun v v' same => ?_
  cases same with
  | none => exact .pure rfl
  | some both =>
    refine steady.kind.bind (fun k => ⟨k, .same k⟩) fun k k' alike => ?_
    simp only [alike.endOfInput_iff, alike.symbol_iff, TokenKind.respects_endsAssignment alike]
    exact .branch (fun _ => steady.recordCondition ⟨column, rfl, .cons both .nil⟩) fun _ => .pure rfl

theorem assignments (areConditions : Bool) :
    C.Follows b (Walk.assignments areConditions) (Walk.assignments areConditions) (fun _ => false) Eq := by
  refine (steady.repeatWhile (b := false) ?_).anywhere
  refine steady.namedColumn.bind steady.columns_total fun x x' column => ?_
  refine (steady.expect _).discard.seq fun _ => .perhaps (fun _ => steady.assignedValue column) ?_
  exact (steady.expression TokenKind.respects_endsAssignment).seq fun _ => (steady.eat (b := false) _).weaken

theorem setClause : C.Follows b Walk.setClause Walk.setClause (fun _ => false) Eq :=
  (steady.expect _).discard.seq fun _ => steady.assignments false

end Company.Steady

namespace Company

/-- Two rows with values beside each other and with related ends. -/
structure SameRow (C : Company) (Ends : Nat → Nat → Prop) (row row' : Walk.ValuesRow) : Prop where
  values : List.Forall₂ (Option.Rel C.Operands) row.values row'.values
  valuesEnd : Ends row.valuesEnd row'.valuesEnd
  parameterIndex : row.parameterIndex = row'.parameterIndex

/-- The facts from which it follows that places at which both walks stand are related. -/
structure Places (C : Company) (Ends : Nat → Nat → Prop) : Prop where
  total : ∀ n, ∃ n', Ends n n'
  here : ∀ {s s'}, C.Beside s s' → Ends s.cursor.current.span.start s'.cursor.current.span.start

theorem Places.any (C : Company) : C.Places fun _ _ => True := ⟨fun n => ⟨n, trivial⟩, fun _ => trivial⟩

/-- Recording the place of a generated key keeps the company, too. -/
structure KeyPoints (C : Company) (Ends : Nat → Nat → Prop) : Prop extends C.Places Ends where
  records : ∀ {columnsEnd columnsEnd' valuesEnd valuesEnd'} n, Ends columnsEnd columnsEnd' → Ends valuesEnd valuesEnd' →
    C.Follows false (Walk.record (·.addPoint (.generatedKey columnsEnd valuesEnd n)))
      (Walk.record (·.addPoint (.generatedKey columnsEnd' valuesEnd' n))) (fun _ => false) Eq

namespace Places

variable {C : Company} {Ends : Nat → Nat → Prop} (places : C.Places Ends)

include places

theorem total? (e : Option Nat) : ∃ e', Option.Rel Ends e e' := by
  cases e with
  | none => exact ⟨none, .none⟩
  | some n =>
    obtain ⟨n', same⟩ := places.total n
    exact ⟨some n', .some same⟩

theorem cursor_total (c : Cursor) : ∃ c' : Cursor,
    Ends c.current.span.start c'.current.span.start ∧ c.parameterIndex = c'.parameterIndex := by
  obtain ⟨n, same⟩ := places.total c.current.span.start
  exact ⟨{ c with current := { c.current with span := ⟨n, n⟩ } }, same, rfl⟩

/-- The cursor as far as its place and the number of placeholders before it go. -/
theorem cursor {b : Bool} (abreast : C.Abreast) : C.Follows b Walk.cursor Walk.cursor (fun _ => b) fun c c' =>
    Ends c.current.span.start c'.current.span.start ∧ c.parameterIndex = c'.parameterIndex :=
  .look (by rintro s a t ⟨⟩; rfl) fun s s' a pair run => by
    cases run
    exact ⟨_, rfl, places.here pair, (abreast.alike pair).parameterIndex⟩

end Places

namespace Settled

variable {C : Company} {Records : Bool → Prop} {Ends : Nat → Nat → Prop} {b : Bool} (settled : C.Settled Records)
  (places : C.Places Ends) (keys : C.KeyPoints Ends)

include settled

theorem orderAndLimit (records : Records true) : C.Follows b Walk.orderAndLimit Walk.orderAndLimit (fun _ => false) Eq := by
  have limited : C.Follows false (do if ← Walk.check (.keyword .limit) then Walk.limitClause true)
      (do if ← Walk.check (.keyword .limit) then Walk.limitClause true) (fun _ => false) Eq :=
    (settled.check _).seq fun _ => .branch (fun _ => (settled.readsLimit true records).forget) fun _ =>
      .pure rfl
  refine (settled.eat _).seq fun isOrder => .branch (fun _ => ?_) fun _ => limited.anywhere
  refine (settled.expect _).discard.seq fun _ => ?_
  exact (settled.expression TokenKind.respects_endsClause).seq fun _ => limited

/-! ## INSERT -/

include places in
theorem insertColumns : C.Follows b Walk.insertColumns Walk.insertColumns (fun _ => false) (Option.Rel Ends) := by
  refine (settled.check _).seq fun isList => .branch (fun _ => .pure .none) fun _ => ?_
  refine settled.peek.bind (fun k => ⟨k, .same k⟩) fun k k' alike => ?_
  refine .ite (alike.keyword_iff _) (fun _ => .pure .none) fun _ => ?_
  refine settled.advance.discard.seq fun _ => ?_
  refine (settled.repeatWhile (b := false) (l := false) ?_).anywhere.seq fun _ => ?_
  · refine settled.namedColumn.bind settled.columns_total fun x x' column => ?_
    exact (settled.recordColumn column).anywhere.seq fun _ => (settled.eat (b := false) _).weaken
  · refine (places.cursor settled.toAbreast).bind places.cursor_total fun c c' same => ?_
    exact (settled.expect _).discard.seq fun _ => .pure (.some same.1)

theorem row_total (vs : List (Option Operand)) : ∃ vs', List.Forall₂ (Option.Rel C.Operands) vs vs' := by
  induction vs with
  | nil => exact ⟨[], .nil⟩
  | cons v vs ih =>
    obtain ⟨v', same⟩ := settled.operand_total v
    obtain ⟨vs', rest⟩ := ih
    exact ⟨v' :: vs', .cons same rest⟩

theorem rowValues : C.Follows b Walk.rowValues Walk.rowValues (fun _ => false)
    (List.Forall₂ (Option.Rel C.Operands)) := by
  refine (settled.repeatFrom (b := false) settled.row_total ?_ .nil).anywhere
  intro vs vs' same
  refine settled.readsValue.bind settled.operand_total fun v v' value => (settled.checkAny _).seq fun ends => ?_
  have isSome_eq : v.isSome = v'.isSome := by cases value <;> rfl
  rw [isSome_eq]
  refine .perhaps (x := false) (fun _ => settled.expression TokenKind.respects_isComma) ?_
  refine (settled.eat _).seq fun isComma => .pure ⟨rfl, List.rel_append same (.cons ?_ .nil)⟩
  split
  · exact value
  · exact .none

section places

include places

theorem valuesRow : C.Follows b Walk.valuesRow Walk.valuesRow (fun _ => true)
    (SameRow C Ends) := by
  refine (settled.expect _).discard.seq fun _ => ?_
  refine settled.rowValues.bind settled.row_total fun vs vs' values => ?_
  refine (places.cursor settled.toAbreast).bind places.cursor_total fun c c' same => ?_
  exact (settled.expect _).discard.seq fun _ => .pure ⟨values, same.1, same.2⟩

theorem sameRow_total (row : Walk.ValuesRow) : ∃ row', SameRow C Ends row row' := by
  obtain ⟨vs', same⟩ := settled.row_total row.values
  obtain ⟨n, ends⟩ := places.total row.valuesEnd
  exact ⟨⟨vs', n, row.parameterIndex⟩, same, ends, rfl⟩

theorem sameRow_total? (row : Option Walk.ValuesRow) : ∃ row', Option.Rel (SameRow C Ends) row row' := by
  cases row with
  | none => exact ⟨none, .none⟩
  | some row =>
    obtain ⟨row', same⟩ := settled.sameRow_total places row
    exact ⟨some row', .some same⟩

/-- Rows beside rows, with one of them in both walks or in none. -/
theorem firstRow : C.Follows b
    (Walk.repeatFrom none fun (first? : Option Walk.ValuesRow) => do
      let row ← Walk.valuesRow
      Walk.record fun s => { s with insertRows := s.insertRows + 1 }
      return (← Walk.eat (.symbol .comma), first?.or (some row)))
    (Walk.repeatFrom none fun (first? : Option Walk.ValuesRow) => do
      let row ← Walk.valuesRow
      Walk.record fun s => { s with insertRows := s.insertRows + 1 }
      return (← Walk.eat (.symbol .comma), first?.or (some row)))
    (fun _ => false) (Option.Rel (SameRow C Ends)) := by
  refine (settled.repeatFrom (b := false) (settled.sameRow_total? places) (fun first first' same => ?_) .none).anywhere
  refine (settled.valuesRow places).bind (settled.sameRow_total places) fun row row' both => ?_
  refine settled.countRow.anywhere.seq fun _ => (settled.eat _).seq fun isComma => .pure ⟨rfl, ?_⟩
  cases same with
  | none => exact .some both
  | some earlier => exact .some earlier

end places

section keys

include keys

theorem valuesRows {e e' : Option Nat} (same : Option.Rel Ends e e') :
    C.Follows b (Walk.valuesRows e) (Walk.valuesRows e') (fun _ => false) Eq := by
  refine (settled.firstRow keys.toPlaces).bind (settled.sameRow_total? keys.toPlaces) fun first first' rows => ?_
  have agree : C.Follows false Walk.statement Walk.statement (fun _ => false)
      fun s s' => s.insertRows = s'.insertRows := by
    intro s _ t run
    cases run
    exact ⟨id, fun s' pair => .inr ⟨_, _, rfl, settled.insertRows pair, pair⟩⟩
  refine agree.bind (fun s => ⟨s, rfl⟩) fun s s' count => ?_
  rw [count]
  refine .branch (fun _ => ?_) fun _ => .pure rfl
  cases rows with
  | none => exact .pure rfl
  | @some row row' both =>
    refine (settled.recordRow both.values).seq fun _ => ?_
    cases same with
    | none => exact .pure rfl
    | some columnsEnd =>
      dsimp only
      rw [← both.parameterIndex]
      exact keys.records row.parameterIndex columnsEnd both.valuesEnd

theorem insertSource {e e' : Option Nat} (same : Option.Rel Ends e e') :
    C.Follows b (Walk.insertSource e) (Walk.insertSource e') (fun _ => false) Eq := by
  refine (settled.eatAny _).seq fun isValues => .branch (fun _ => settled.valuesRows keys same) fun _ => ?_
  refine (settled.eat _).seq fun isSet => .branch (fun _ => ?_) fun _ => ?_
  · exact (settled.assignments true).seq fun _ => settled.singleRow
  refine (settled.eat _).seq fun isDefault => .branch (fun _ => ?_) fun _ => ?_
  · exact (settled.expect _).discard.seq fun _ => settled.singleRow.anywhere
  exact (settled.checkAny _).seq fun isQuery => .branch (fun _ => settled.query settled.records_false) fun _ =>
    Abreast.failExpected

theorem insertEnd {e e' : Option Nat} (same : Option.Rel Ends e e') :
    C.Follows b (Walk.insertEnd e) (Walk.insertEnd e') (fun _ => false) Eq := by
  refine (settled.insertSource keys same).seq fun _ => (settled.eat _).seq fun isOn => ?_
  refine .branch (fun _ => ?_) fun _ => .pure rfl
  refine (settled.expect _).discard.seq fun _ => (settled.expect _).discard.seq fun _ => ?_
  exact (settled.expect _).discard.seq fun _ => settled.assignments false

theorem insertRest {e e' : Option Nat} (same : Option.Rel Ends e e') :
    C.Follows b (Walk.insertRest e) (Walk.insertRest e') (fun _ => false) Eq := by
  refine (settled.eat _).seq fun isOutput => .branch (fun _ => ?_) fun _ => (settled.insertEnd keys same).anywhere
  exact (settled.expression TokenKind.respects_endsInsertOutput).seq fun _ => settled.insertEnd keys same

theorem insertStatement :
    C.Follows b Walk.insertStatement Walk.insertStatement (fun _ => false) Eq := by
  refine (settled.expectAny _ _).discard.seq fun _ => (settled.skipAll _).seq fun _ => ?_
  refine (settled.discard_eat _).seq fun _ => settled.readsName.seq fun _ => ?_
  exact (settled.insertColumns keys.toPlaces).bind keys.total? fun e e' same => settled.insertRest keys same

end keys

/-! ## UPDATE and DELETE -/

theorem updateStatement (records : Records true) :
    C.Follows b Walk.updateStatement Walk.updateStatement (fun _ => false) Eq := by
  refine (settled.expect _).discard.seq fun _ => (settled.skipAll _).seq fun _ => (settled.check _).seq fun isTop => ?_
  refine .perhaps (fun _ => (settled.readsTop false).anywhere) (settled.tableReferences.seq fun _ => ?_)
  refine settled.setClause.seq fun _ => (settled.eat _).seq fun isOutput => ?_
  refine .perhaps (x := false) (fun _ => settled.expression TokenKind.respects_endsClause) ?_
  refine (settled.eat _).seq fun isFrom => .perhaps (x := false) (fun h => ?_) ?_
  · rw [h]
    exact settled.tableReferences
  · exact settled.whereClause.seq fun _ => settled.orderAndLimit records

theorem deleteStatement (records : Records true) :
    C.Follows b Walk.deleteStatement Walk.deleteStatement (fun _ => false) Eq := by
  have ending : C.Follows false Walk.deleteEnd Walk.deleteEnd (fun _ => false) Eq := by
    refine (settled.eat _).seq fun isOutput => ?_
    refine .perhaps (x := false) (fun _ => settled.expression TokenKind.respects_endsClause) ?_
    refine (settled.eat _).seq fun isUsing => .perhaps (x := false) (fun h => ?_) ?_
    · rw [h]
      exact settled.tableReferences
    · exact settled.whereClause.seq fun _ => settled.orderAndLimit records
  refine (settled.expect _).discard.seq fun _ => (settled.skipAll _).seq fun _ => (settled.check _).seq fun isTop => ?_
  have sources : C.Follows true Walk.deleteSources Walk.deleteSources (fun _ => false) Eq := by
    refine (settled.eat _).seq fun isFrom => .branch (fun h => ?_) fun _ => ?_
    · rw [h]
      exact settled.tableReferences.seq fun _ => ending
    · have regroup : (do
          let targets ← Walk.deleteTargets
          if ← Walk.eat (.keyword .from) then Walk.tableReferences
          Walk.record (targets.foldl Walk.addTarget)
          Walk.deleteEnd) = Walk.targetsEnd >>= fun _ => Walk.deleteEnd := by
        rw [Walk.targetsEnd, bind_assoc]
        congr 1
        funext targets
        rw [bind_assoc]
        congr 1
        funext isFrom
        cases isFrom with
        | true => exact (bind_assoc ..).symm
        | false => rfl
      have follows := settled.readsTargets.seq fun _ => ending
      rw [← regroup] at follows
      exact follows.weaken
  exact .branch (fun _ => (settled.readsTop false).anywhere.seq fun _ => sources) fun _ => sources.weaken

/-! ## Changes of the schema -/

theorem atStatementEnd : C.Follows b Walk.atStatementEnd Walk.atStatementEnd (fun _ => b) Eq :=
  settled.isAtEnd.seq fun _ => .branch (fun _ => .pure rfl) fun _ => settled.check _

theorem skipRest : C.Follows b Walk.skipRest Walk.skipRest (fun _ => b) Eq := settled.skipUntil settled.atStatementEnd

theorem createTable : C.Follows b Walk.createTable Walk.createTable (fun _ => false) Eq := by
  refine settled.cursor.bind (fun c => ⟨c, .same _, rfl, rfl, rfl⟩) fun c c' alike => ?_
  rw [alike.dialect]
  refine (settled.expect _).discard.seq fun _ => (settled.skipAll _).seq fun _ => ?_
  refine (settled.expect _).discard.seq fun _ => (settled.skipAll _).seq fun _ => ?_
  exact settled.readsName.seq fun _ => settled.skipRest

theorem dropTable : C.Follows b Walk.dropTable Walk.dropTable (fun _ => false) Eq := by
  refine (settled.expect _).discard.seq fun _ => (settled.discard_eat _).seq fun _ => ?_
  have names : C.Follows true (do
      discard Walk.tableName
      Walk.repeatWhile do
        if ← Walk.eat (.symbol .comma) then
          discard Walk.tableName
          return true
        else return false
      Walk.skipRest) (do
      discard Walk.tableName
      Walk.repeatWhile do
        if ← Walk.eat (.symbol .comma) then
          discard Walk.tableName
          return true
        else return false
      Walk.skipRest) (fun _ => false) Eq := by
    refine settled.readsName.seq fun _ => ?_
    refine (settled.repeatWhile (b := false) (l := false) ?_).seq fun _ => settled.skipRest
    refine (settled.eat _).seq fun isComma => .branch (fun h => ?_) fun _ => .pure rfl
    rw [h]
    exact settled.readsName.seq fun _ => .pure rfl
  refine (settled.expect _).discard.seq fun _ => (settled.eat _).seq fun isIf => .branch (fun _ => ?_) fun _ => ?_
  · exact (settled.expect _).discard.seq fun _ => names
  · exact names.weaken

theorem truncateTable : C.Follows b Walk.truncateTable Walk.truncateTable (fun _ => false) Eq := by
  refine (settled.expect _).discard.seq fun _ => ?_
  refine (settled.discard_eat _).seq fun _ => ?_
  exact settled.readsName.seq fun _ => settled.skipRest

theorem alterTable : C.Follows b Walk.alterTable Walk.alterTable (fun _ => false) Eq := by
  refine (settled.expect _).discard.seq fun _ => (settled.expect _).discard.seq fun _ => ?_
  refine settled.readsName.seq fun _ => settled.repeatWhile ?_
  refine settled.atStatementEnd.seq fun ended => .branch (fun _ => .pure rfl) fun _ => ?_
  refine (settled.eat _).seq fun refers => .branch (fun h => ?_) fun _ => ?_
  · rw [h]
    exact settled.readsName.seq fun _ => .pure rfl
  · exact settled.advance.discard.seq fun _ => .pure rfl

theorem definitionStatement : C.Follows b Walk.definitionStatement Walk.definitionStatement (fun _ => false) Eq := by
  refine (settled.check _).seq fun isCreate => .branch (fun _ => settled.createTable) fun _ => ?_
  refine (settled.check _).seq fun isDrop => .branch (fun _ => settled.dropTable) fun _ => ?_
  exact (settled.check _).seq fun isTruncate => .branch (fun _ => settled.truncateTable) fun _ => settled.alterTable

/-! ## Whole statements -/

include keys

theorem statementOf (records : Records true) (kind : StatementKind) :
    C.Follows b (Walk.statementOf kind) (Walk.statementOf kind) (fun _ => false) Eq := by
  cases kind with
  | select => exact settled.query records
  | insert => exact settled.insertStatement keys
  | update => exact settled.updateStatement records
  | delete => exact settled.deleteStatement records
  | definition => exact settled.definitionStatement

theorem wholeStatement (records : Records true) (kind : StatementKind) :
    C.Follows b (Walk.wholeStatement kind) (Walk.wholeStatement kind) (fun _ => false) Eq := by
  refine (settled.statementOf keys records kind).seq fun _ => (settled.discard_eat _).seq fun _ => ?_
  exact settled.isAtEnd.seq fun ended => .branch (fun _ => Abreast.failExpected) fun _ => .pure rfl

end Settled

end Company

end SqlSharding.Sql
