import SqlSharding.Sql.Query

/-!
# Statements that change rows

`INSERT`, `UPDATE` and `DELETE`. Of an `INSERT` of one row the plain values become conditions, because they say
where the row belongs, and the place of a generated key is recorded.
-/

namespace SqlSharding.Sql

namespace TokenKind

/-- What ends the value of an assignment. -/
def endsAssignment : TokenKind → Bool
  | symbol .comma => true
  | keyword k => k ∈ [.where, .from, .order, .limit, .output]
  | _ => false

/-- What ends the `OUTPUT` clause of an INSERT. -/
def endsInsertOutput : TokenKind → Bool
  | keyword k => k ∈ [.values, .select, .default]
  | _ => false

end TokenKind

namespace Walk

/-! ## Assignments -/

/-- Passes the value of an assignment if it is plain, and records it as a condition if nothing follows it. -/
def assignedValue (column : Column) : Walk Unit := do
  match ← value? with
  | none => pure ()
  | some v =>
    let k ← kind
    if k = .endOfInput || k = .symbol .semicolon || k.endsAssignment then
      record (·.addCondition ⟨column, .equal, [v]⟩)

/-- The column that is named here. -/
def namedColumn : Walk Column := do
  match ← column with
  | some column => return column
  | none => failExpected .columnName

/-- Passes assignments separated by commas. Assignments that are conditions say where a new row belongs. -/
def assignments (areConditions : Bool) : Walk Unit := repeatWhile do
  let column ← namedColumn
  discard (expect (.symbol .eq))
  if areConditions then assignedValue column
  expression TokenKind.endsAssignment
  eat (.symbol .comma)

/-- Passes `SET` and the assignments after it. -/
def setClause : Walk Unit := do
  discard (expect (.keyword .set))
  assignments false

/-! ## INSERT -/

/-- The words between `INSERT` and the table. -/
def insertModifiers : List TokenKind :=
  [.keyword .lowPriority, .keyword .delayed, .keyword .highPriority, .keyword .ignore]

/-- Passes the column list if there is one. The result is the place of its closing parenthesis. -/
def insertColumns : Walk (Option Nat) := do
  if !(← check (.symbol .leftParen)) then return none
  else if (← peek) = .keyword .select then return none
  else
    discard advance
    repeatWhile do
      let column ← namedColumn
      record fun s => { s with insertColumns := s.insertColumns ++ [column.name] }
      eat (.symbol .comma)
    let columnsEnd := (← cursor).current.span.start
    discard (expect (.symbol .rightParen))
    return some columnsEnd

/-- A row of values: the operands of the plain ones, the place of the closing parenthesis, and the placeholders
before it. -/
structure ValuesRow where
  values : List (Option Operand)
  valuesEnd : Nat
  parameterIndex : Nat

/-- Passes the values of a row up to its closing parenthesis. -/
def rowValues : Walk (List (Option Operand)) := repeatFrom [] fun values => do
  let value? ← value?
  let isPlain := value?.isSome && (← checkAny [.symbol .comma, .symbol .rightParen])
  if !isPlain then expression TokenKind.isComma
  return (← eat (.symbol .comma), values ++ [if isPlain then value? else none])

def valuesRow : Walk ValuesRow := do
  discard (expect (.symbol .leftParen))
  let values ← rowValues
  let c ← cursor
  discard (expect (.symbol .rightParen))
  return ⟨values, c.current.span.start, c.parameterIndex⟩

/-- The conditions that the values of a row put on the columns. -/
def rowConditions (columns : List String) (values : List (Option Operand)) : List Condition :=
  (columns.zip values).filterMap fun (column, value?) => value?.map fun v => ⟨⟨none, column⟩, .equal, [v]⟩

/-- Passes rows of values. Conditions and the place of a generated key are recorded for a single row only. -/
def valuesRows (columnsEnd? : Option Nat) : Walk Unit := do
  let first? ← repeatFrom none fun (first? : Option ValuesRow) => do
    let row ← valuesRow
    record fun s => { s with insertRows := s.insertRows + 1 }
    return (← eat (.symbol .comma), first?.or (some row))
  let s ← statement
  if s.insertRows = 1 then
    match first? with
    | none => pure ()
    | some row =>
      record fun s => (rowConditions s.insertColumns row.values).foldl Statement.addCondition s
      match columnsEnd? with
      | none => pure ()
      | some columnsEnd => record (·.addPoint (.generatedKey columnsEnd row.valuesEnd row.parameterIndex))

/-- Passes what follows the columns of an INSERT: rows, assignments, defaults or a query. -/
def insertSource (columnsEnd? : Option Nat) : Walk Unit := do
  let single : Walk Unit := record fun s => { s with insertRows := 1 }
  if ← eatAny [.keyword .values, .keyword .value] then valuesRows columnsEnd?
  else if ← eat (.keyword .set) then
    assignments true
    single
  else if ← eat (.keyword .default) then
    discard (expect (.keyword .values))
    single
  else if ← checkAny [.keyword .select, .symbol .leftParen] then query false
  else failExpected .insertSource

def insertStatement : Walk Unit := do
  discard (expectAny [.keyword .insert, .keyword .replace] .insertVerb)
  skipAll insertModifiers
  discard (eat (.keyword .into))
  discard tableName
  let columnsEnd? ← insertColumns
  if ← eat (.keyword .output) then expression TokenKind.endsInsertOutput
  insertSource columnsEnd?
  if ← eat (.keyword .on) then
    discard (expect (.keyword .duplicate))
    discard (expect (.keyword .key))
    discard (expect (.keyword .update))
    assignments false

/-! ## UPDATE and DELETE -/

/-- Passes an ordering and a `LIMIT`. -/
def orderAndLimit : Walk Unit := do
  if ← eat (.keyword .order) then
    discard (expect (.keyword .by))
    expression TokenKind.endsClause
  if ← check (.keyword .limit) then limitClause true

def updateStatement : Walk Unit := do
  discard (expect (.keyword .update))
  skipAll [.keyword .lowPriority, .keyword .ignore]
  if ← check (.keyword .top) then topClause false
  tableReferences
  setClause
  if ← eat (.keyword .output) then expression TokenKind.endsClause
  if ← eat (.keyword .from) then tableReferences
  whereClause
  orderAndLimit

/-- The tables named before `FROM`, separated by commas. -/
def deleteTargets : Walk (List Identifier) := do
  let first ← qualifiedName
  repeatFrom [first] fun targets => do
    if ← eat (.symbol .comma) then
      let target ← qualifiedName
      return (true, targets ++ [target])
    else return (false, targets)

/-- Records the target of a DELETE unless it is only an alias of a table. -/
def addTarget (s : Statement) (target : Identifier) : Statement :=
  if (s.tables.resolveOwner? target.name).isNone || s.tables.containsName target.name then s.addTable target none
  else s

def deleteStatement : Walk Unit := do
  discard (expect (.keyword .delete))
  skipAll [.keyword .lowPriority, .keyword .quick, .keyword .ignore]
  if ← check (.keyword .top) then topClause false
  if ← eat (.keyword .from) then tableReferences
  else
    let targets ← deleteTargets
    if ← eat (.keyword .from) then tableReferences
    record (targets.foldl addTarget)
  if ← eat (.keyword .output) then expression TokenKind.endsClause
  if ← eat (.keyword .using) then tableReferences
  whereClause
  orderAndLimit

end Walk

end SqlSharding.Sql
