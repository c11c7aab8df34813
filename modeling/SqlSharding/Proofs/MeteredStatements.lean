import SqlSharding.Proofs.MeteredReaders

/-!
# Metered statements

The walk over a whole statement with its meter, and the outcome of reading a text beside what the meter says of it.
-/

namespace SqlSharding.Sql.Metered

open Walk (addTarget advance assignedValue atStatementEnd bound check checkAny cursor depth eat eatAny expect expectAny
  failExpected insertModifiers isAtEnd limitClause peek qualifiedName record rowConditions statement tableName value?)

/-! ## The nested readers at full depth -/

def expression (ends : TokenKind → Bool) : Metered Unit := do expressionWithin (← depth) ends

def tableReferences : Metered Unit := do tableReferencesWithin (← depth)

def conditions : Metered Unit := do conditionsWithin (← depth)

def query (isRecorded : Bool) : Metered Unit := do queryWithin (← depth) isRecorded

def whereClause : Metered Unit := optional (.keyword .where) conditions

section walk

theorem walk_expression (ends : TokenKind → Bool) : (expression ends).walk = Walk.expression ends :=
  walk_seq rfl fun depth => (Plain.all depth).expression ends

theorem walk_tableReferences : tableReferences.walk = Walk.tableReferences :=
  walk_seq rfl fun depth => (Plain.all depth).tableReferences

theorem walk_query (isRecorded : Bool) : (query isRecorded).walk = Walk.query isRecorded :=
  walk_seq rfl fun depth => (Plain.all depth).query isRecorded

theorem walk_whereClause : whereClause.walk = Walk.whereClause :=
  walk_optional (walk_seq rfl fun depth => (Plain.all depth).conditions)

end walk

/-! ## Statements that change rows -/

def namedColumn : Metered Column := do
  match ← column with
  | some column => return column
  | none => failExpected .columnName

def assignments (areConditions : Bool) : Metered Unit := repeatWhile do
  let column ← namedColumn
  discard (expect (.symbol .eq))
  if areConditions then assignedValue column
  expression TokenKind.endsAssignment
  eat (.symbol .comma)

def setClause : Metered Unit := do
  discard (expect (.keyword .set))
  assignments false

/-- Passes the names of the columns of an INSERT. -/
def columnNames : Metered Unit := repeatWhile do
  let column ← namedColumn
  record fun s => { s with insertColumns := s.insertColumns ++ [column.name] }
  eat (.symbol .comma)

def insertColumns : Metered (Option Nat) := do
  if !(← check (.symbol .leftParen)) then return none
  else if (← peek) = .keyword .select then return none
  else
    discard advance
    columnNames
    let columnsEnd := (← cursor).current.span.start
    discard (expect (.symbol .rightParen))
    return some columnsEnd

def rowValues : Metered (List (Option Operand)) := repeatFrom [] fun values => do
  let value? ← value?
  let isPlain := value?.isSome && (← checkAny [.symbol .comma, .symbol .rightParen])
  if !isPlain then expression TokenKind.isComma
  return (← eat (.symbol .comma), values ++ [if isPlain then value? else none])

def valuesRow : Metered Walk.ValuesRow := do
  discard (expect (.symbol .leftParen))
  let values ← rowValues
  let c ← cursor
  discard (expect (.symbol .rightParen))
  return ⟨values, c.current.span.start, c.parameterIndex⟩

/-- Records what a single row of values says. -/
def recordRow (columnsEnd? : Option Nat) (first? : Option Walk.ValuesRow) : Walk Unit := do
  let s ← statement
  if s.insertRows = 1 then
    match first? with
    | none => pure ()
    | some row =>
      record fun s => (rowConditions s.insertColumns row.values).foldl Statement.addCondition s
      match columnsEnd? with
      | none => pure ()
      | some columnsEnd => record (·.addPoint (.generatedKey columnsEnd row.valuesEnd row.parameterIndex))

/-- Passes and counts rows of values. The result is the first one. -/
def firstRow : Metered (Option Walk.ValuesRow) := repeatFrom none fun (first? : Option Walk.ValuesRow) => do
  let row ← valuesRow
  record fun s => { s with insertRows := s.insertRows + 1 }
  return (← eat (.symbol .comma), first?.or (some row))

def valuesRows (columnsEnd? : Option Nat) : Metered Unit := do
  let first? ← firstRow
  recordRow columnsEnd? first?

def insertSource (columnsEnd? : Option Nat) : Metered Unit := do
  if ← eatAny [.keyword .values, .keyword .value] then valuesRows columnsEnd?
  else if ← eat (.keyword .set) then
    assignments true
    record fun s => { s with insertRows := 1 }
  else if ← eat (.keyword .default) then
    discard (expect (.keyword .values))
    record fun s => { s with insertRows := 1 }
  else if ← checkAny [.keyword .select, .symbol .leftParen] then query false
  else failExpected .insertSource

/-- Passes what follows `ON` after the rows of an INSERT. -/
def duplicateKeyUpdate : Metered Unit := do
  discard (expect (.keyword .duplicate))
  discard (expect (.keyword .key))
  discard (expect (.keyword .update))
  assignments false

def insertStatement : Metered Unit := do
  discard (expectAny [.keyword .insert, .keyword .replace] .insertVerb)
  skipAll insertModifiers
  discard (eat (.keyword .into))
  discard tableName
  let columnsEnd? ← insertColumns
  optional (.keyword .output) (expression TokenKind.endsInsertOutput)
  insertSource columnsEnd?
  optional (.keyword .on) duplicateKeyUpdate

def orderAndLimit : Metered Unit := do
  optional (.keyword .order) (listAfterBy (expression TokenKind.endsClause))
  if ← check (.keyword .limit) then limitClause true

def updateStatement : Metered Unit := do
  discard (expect (.keyword .update))
  skipAll [.keyword .lowPriority, .keyword .ignore]
  topClauseIfAny false
  tableReferences
  setClause
  optional (.keyword .output) (expression TokenKind.endsClause)
  optional (.keyword .from) tableReferences
  whereClause
  orderAndLimit

def deleteTargets : Metered (List Identifier) := do
  let first ← qualifiedName
  repeatFrom [first] fun targets => do
    if ← eat (.symbol .comma) then
      let target ← qualifiedName
      return (true, targets ++ [target])
    else return (false, targets)

/-- Passes what follows the tables of a DELETE. -/
def deleteEnd : Metered Unit := do
  optional (.keyword .output) (expression TokenKind.endsClause)
  optional (.keyword .using) tableReferences
  whereClause
  orderAndLimit

/-- Passes what follows the first words of a DELETE. -/
def deleteSources : Metered Unit := do
  if ← eat (.keyword .from) then tableReferences
  else
    let targets ← deleteTargets
    optional (.keyword .from) tableReferences
    record (targets.foldl addTarget)
  deleteEnd

def deleteStatement : Metered Unit := do
  discard (expect (.keyword .delete))
  skipAll [.keyword .lowPriority, .keyword .quick, .keyword .ignore]
  topClauseIfAny false
  deleteSources

section walk

theorem walk_namedColumn : namedColumn.walk = Walk.namedColumn :=
  walk_seq walk_column fun | some _ | none => rfl

theorem walk_assignments (areConditions : Bool) : (assignments areConditions).walk = Walk.assignments areConditions := by
  rw [assignments, walk_repeatWhile, Walk.assignments]
  refine congrArg Walk.repeatWhile (walk_seq walk_namedColumn fun x => walk_seq rfl fun _ => ?_)
  exact walk_perhaps rfl (walk_seq (walk_expression _) fun _ => rfl)

theorem walk_setClause : setClause.walk = Walk.setClause := walk_seq rfl fun _ => walk_assignments false

theorem walk_insertColumns : insertColumns.walk = Walk.insertColumns := by
  refine walk_seq rfl fun _ => walk_branch rfl (walk_seq rfl fun _ => walk_branch rfl (walk_seq rfl fun _ => ?_))
  refine walk_seq ?_ fun _ => rfl
  rw [columnNames, walk_repeatWhile]
  exact congrArg Walk.repeatWhile (walk_seq walk_namedColumn fun _ => rfl)

theorem walk_valuesRow : valuesRow.walk = Walk.valuesRow := by
  have values : rowValues.walk = Walk.rowValues := by
    rw [rowValues, walk_repeatFrom, Walk.rowValues]
    refine congrArg (Walk.repeatFrom []) (funext fun _ => walk_seq rfl fun _ => walk_seq rfl fun _ => ?_)
    exact walk_perhaps (walk_expression _) rfl
  exact walk_seq rfl fun _ => walk_seq values fun _ => rfl

theorem walk_insertSource (columnsEnd? : Option Nat) : (insertSource columnsEnd?).walk = Walk.insertSource columnsEnd? := by
  have rows : (valuesRows columnsEnd?).walk = Walk.valuesRows columnsEnd? := by
    refine walk_seq ?_ fun _ => rfl
    rw [firstRow, walk_repeatFrom]
    exact congrArg (Walk.repeatFrom none) (funext fun _ => walk_seq walk_valuesRow fun _ => rfl)
  refine walk_seq rfl fun _ => walk_branch rows (walk_seq rfl fun _ => walk_branch ?_ ?_)
  · exact walk_seq (walk_assignments true) fun _ => rfl
  · exact walk_seq rfl fun _ => walk_branch rfl (walk_seq rfl fun _ => walk_branch (walk_query false) rfl)

theorem walk_insertStatement : insertStatement.walk = Walk.insertStatement := by
  have duplicates : duplicateKeyUpdate.walk = _ :=
    walk_seq rfl fun _ => walk_seq rfl fun _ => walk_seq rfl fun _ => walk_assignments false
  refine walk_seq rfl fun _ => walk_seq (walk_skipAll _) fun _ => walk_seq rfl fun _ => walk_seq rfl fun _ => ?_
  refine walk_seq walk_insertColumns fun columnsEnd? => walk_optional_seq (walk_expression _) ?_
  exact walk_seq (walk_insertSource columnsEnd?) fun _ => walk_optional duplicates

theorem walk_orderAndLimit : orderAndLimit.walk = Walk.orderAndLimit :=
  walk_optional_list (walk_expression _) (walk_seq rfl fun _ => walk_branch rfl rfl)

theorem walk_updateStatement : updateStatement.walk = Walk.updateStatement := by
  refine walk_seq rfl fun _ => walk_seq (walk_skipAll _) fun _ => walk_topClauseIfAny false ?_
  refine walk_seq walk_tableReferences fun _ => walk_seq walk_setClause fun _ => ?_
  refine walk_optional_seq (walk_expression _) (walk_optional_seq walk_tableReferences ?_)
  exact walk_seq walk_whereClause fun _ => walk_orderAndLimit

theorem walk_deleteStatement : deleteStatement.walk = Walk.deleteStatement := by
  have ending : deleteEnd.walk = Walk.deleteEnd := by
    refine walk_optional_seq (walk_expression _) (walk_optional_seq walk_tableReferences ?_)
    exact walk_seq walk_whereClause fun _ => walk_orderAndLimit
  have targets : deleteTargets.walk = Walk.deleteTargets := by
    refine walk_seq rfl fun _ => ?_
    rw [walk_repeatFrom]
    exact congrArg (Walk.repeatFrom _) (funext fun _ => walk_seq rfl fun _ => walk_branch rfl rfl)
  have sources : deleteSources.walk = Walk.deleteSources := by
    refine walk_seq rfl fun _ => walk_branch (walk_seq walk_tableReferences fun _ => ending) ?_
    exact walk_seq targets fun _ => walk_optional_seq walk_tableReferences (walk_seq rfl fun _ => ending)
  exact walk_seq rfl fun _ => walk_seq (walk_skipAll _) fun _ => walk_topClauseIfAny false sources

end walk

/-! ## Statements that change the schema -/

def skipRest : Metered Unit := repeatWhile do
  if ← atStatementEnd then return false
  else
    discard advance
    return true

def createTable : Metered Unit := do
  let d := (← cursor).dialect
  discard (expect (.keyword .create))
  skipAll d.wordsBeforeTable
  discard (expect (.keyword .table))
  skipAll d.wordsBeforeName
  discard tableName
  skipRest

def dropTable : Metered Unit := do
  discard (expect (.keyword .drop))
  discard (eat (.keyword .temporary))
  discard (expect (.keyword .table))
  if ← eat (.keyword .if) then discard (expect (.keyword .exists))
  discard tableName
  repeatWhile do
    if ← eat (.symbol .comma) then
      discard tableName
      return true
    else return false
  skipRest

def truncateTable : Metered Unit := do
  discard (expect (.keyword .truncate))
  discard (eat (.keyword .table))
  discard tableName
  skipRest

def alterTable : Metered Unit := do
  discard (expect (.keyword .alter))
  discard (expect (.keyword .table))
  discard tableName
  repeatWhile do
    if ← atStatementEnd then return false
    else if ← eat (.keyword .references) then
      discard tableName
      return true
    else
      discard advance
      return true

def definitionStatement : Metered Unit := do
  if ← check (.keyword .create) then createTable
  else if ← check (.keyword .drop) then dropTable
  else if ← check (.keyword .truncate) then truncateTable
  else alterTable

section walk

theorem walk_skipRest : skipRest.walk = Walk.skipRest := by
  rw [skipRest, walk_repeatWhile]
  exact congrArg Walk.repeatWhile (walk_seq rfl fun _ => walk_branch rfl rfl)

theorem walk_createTable : createTable.walk = Walk.createTable := by
  refine walk_seq rfl fun c => walk_seq rfl fun _ => walk_seq (walk_skipAll _) fun _ => walk_seq rfl fun _ => ?_
  exact walk_seq (walk_skipAll _) fun _ => walk_seq rfl fun _ => walk_skipRest

theorem walk_dropTable : dropTable.walk = Walk.dropTable := by
  refine walk_seq rfl fun _ => walk_seq rfl fun _ => walk_seq rfl fun _ => walk_seq rfl fun _ => walk_perhaps rfl ?_
  refine walk_seq rfl fun _ => walk_seq ?_ fun _ => walk_skipRest
  rw [walk_repeatWhile]
  exact congrArg Walk.repeatWhile (walk_seq rfl fun _ => walk_branch rfl rfl)

theorem walk_alterTable : alterTable.walk = Walk.alterTable := by
  refine walk_seq rfl fun _ => walk_seq rfl fun _ => walk_seq rfl fun _ => ?_
  rw [walk_repeatWhile]
  exact congrArg Walk.repeatWhile (walk_seq rfl fun _ => walk_branch rfl (walk_seq rfl fun _ => walk_branch rfl rfl))

theorem walk_definitionStatement : definitionStatement.walk = Walk.definitionStatement := by
  have truncates : truncateTable.walk = Walk.truncateTable :=
    walk_seq rfl fun _ => walk_seq rfl fun _ => walk_seq rfl fun _ => walk_skipRest
  refine walk_seq rfl fun _ => walk_branch walk_createTable (walk_seq rfl fun _ => walk_branch walk_dropTable ?_)
  exact walk_seq rfl fun _ => walk_branch truncates walk_alterTable

end walk

/-! ## Whole statements -/

def statementOf : StatementKind → Metered Unit
  | .select => query true
  | .insert => insertStatement
  | .update => updateStatement
  | .delete => deleteStatement
  | .definition => definitionStatement

def wholeStatement (kind : StatementKind) : Metered Unit := do
  statementOf kind
  discard (eat (.symbol .semicolon))
  if !(← isAtEnd) then failExpected .endOfStatement

theorem walk_wholeStatement (kind : StatementKind) : (wholeStatement kind).walk = Walk.wholeStatement kind := by
  have body : (statementOf kind).walk = Walk.statementOf kind := by
    cases kind with
    | select => exact walk_query true
    | insert => exact walk_insertStatement
    | update => exact walk_updateStatement
    | delete => exact walk_deleteStatement
    | definition => exact walk_definitionStatement
  exact walk_seq body fun _ => walk_seq rfl fun _ => walk_seq rfl fun _ => walk_branch rfl rfl

end SqlSharding.Sql.Metered

namespace SqlSharding.Sql

/-- The outcome of reading a text, with what the meter says of the walk over it. -/
structure Reading where
  outcome : Except SyntaxError Statement
  steps : Nat
  /-- Whether each round of a loop that goes on, and each call of a reader inside an open call of the same reader, has
  passed a token, and nothing gives up. -/
  progresses : Prop

/-- A text is read as `parse` does, with a meter beside the walk. -/
def Reading.ofText (d : Dialect) (sql : String) : Reading :=
  match Cursor.ofText d sql with
  | .error e => ⟨.error e, 0, True⟩
  | .ok c =>
    match StatementKind.ofFirst? c.kind with
    | none => ⟨.error (c.expected .statement), 0, True⟩
    | some kind =>
      let m := Metered.wholeStatement kind
      let s : WalkState := ⟨c, .ofKind kind⟩
      { outcome := match m.walk s with
          | .ok _ t => .ok (t.statement.finish t.cursor.parameterIndex)
          | .error e _ => .error e
        steps := m.steps s
        progresses := m.progresses [] s }

theorem Reading.outcome_ofText (d : Dialect) (sql : String) : (ofText d sql).outcome = parse d sql := by
  rw [ofText, parse]
  cases Cursor.ofText d sql with
  | error e => rfl
  | ok c =>
    dsimp only [Bind.bind, Except.bind]
    cases StatementKind.ofFirst? c.kind with
    | none => rfl
    | some kind =>
      dsimp only
      rw [Metered.walk_wholeStatement]
      rfl

end SqlSharding.Sql
