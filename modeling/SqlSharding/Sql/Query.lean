import SqlSharding.Sql.Column
import SqlSharding.Sql.Pagination

/-!
# Expressions, conditions and queries

Expressions are passed token by token: placeholders are counted, qualifiers are recorded, and the tables of nested
queries become tables of the statement. Of the conditions of a `WHERE` clause the comparisons of a column with plain
values are kept.

Expressions, groups, conditions, table references and queries contain one another, so their readers share a bound on
the depth of that nesting. Every cycle among them passes a token, and a token admits at most four levels, so
`Walk.depth` never binds.
-/

namespace SqlSharding.Sql

namespace TokenKind

/-- The tokens at which every expression ends. -/
def endsEverything : TokenKind → Bool
  | endOfInput => true
  | symbol .semicolon => true
  | symbol .rightParen => true
  | _ => false

/-- The keywords that begin the next clause of a statement. -/
def endsClause : TokenKind → Bool
  | keyword k =>
    k ∈ [.from, .where, .group, .having, .order, .limit, .offset, .fetch, .union, .except, .intersect, .for, .on,
      .using, .set, .values, .output]
  | _ => false

/-- What ends a single condition. -/
def endsCondition (k : TokenKind) : Bool := k = keyword .and || k = keyword .or || k.endsClause

/-- What ends the condition of a join. -/
def endsJoinCondition (k : TokenKind) : Bool := k = symbol .comma || k.endsClause

def isComma (k : TokenKind) : Bool := k = symbol .comma

def isEndKeyword (k : TokenKind) : Bool := k = keyword .end

def endsNothing (_ : TokenKind) : Bool := false

end TokenKind

/-- The words of which a join is made. -/
def joinWords : List TokenKind :=
  [.keyword .natural, .keyword .inner, .keyword .cross, .keyword .left, .keyword .right, .keyword .full,
   .keyword .outer, .keyword .straightJoin, .keyword .join]

/-- The words between `SELECT` and what is selected. -/
def selectModifiers : List TokenKind :=
  [.keyword .all, .keyword .distinct, .keyword .highPriority, .keyword .straightJoin]

namespace Walk

/-! ## Around tables -/

/-- The alias after a table, with or without `AS`. -/
def alias? : Walk (Option String) := do
  if ← eat (.keyword .as) then return some (← identifier).name
  else if (← kind).isIdentifier then
    if ← atLock then return none else return some (← identifier).name
  else return none

/-- Passes tokens up to an opening parenthesis. -/
def skipToList : Walk Unit := repeatWhile do
  if ← check (.symbol .leftParen) then return false
  else if ← isAtEnd then failExpected .indexList
  else
    discard advance
    return true

/-- Passes index hints and table hints in parentheses. -/
def tableHints : Walk Unit := repeatWhile do
  if ← eatAny [.keyword .use, .keyword .ignore, .keyword .force] then
    discard (expectAny [.keyword .index, .keyword .key] .indexOrKey)
    skipToList
    skipParentheses
    return true
  else if ← check (.keyword .with) then
    if (← peek) = .symbol .leftParen then
      discard advance
      skipParentheses
      return true
    else return false
  else return false

/-- Whether the current token ends a condition on one column. -/
def atConditionEnd : Walk Bool := do
  let k ← kind
  if k.endsEverything || k.endsCondition then return true
  else if ← atJoin then return true
  else atLock

/-! ## Conditions on one column -/

/-- The condition after `=`. -/
def equality? (column : Column) : Walk (Option Condition) := do
  return (← value?).map fun v => ⟨column, .equal, [v]⟩

/-- The condition after `BETWEEN`. -/
def between? (column : Column) : Walk (Option Condition) := do
  match ← value? with
  | none => return none
  | some lower =>
    if ← eat (.keyword .and) then return (← value?).map fun upper => ⟨column, .between, [lower, upper]⟩
    else return none

/-- Passes a locking clause. -/
def lockingClause : Walk Unit := do
  let isLocking ← if ← check (.keyword .for) then pure true else atLock
  if isLocking then
    repeatWhile do
      if (← kind).endsEverything then return false
      else
        discard advance
        return true

/-! ## The nested readers -/

mutual

/-- Passes an expression up to a token that ends it, a join, a locking clause, or the end of what encloses it. -/
def expressionWithin : Nat → (TokenKind → Bool) → Walk Unit
  | 0, _ => failTooDeep
  | depth + 1, ends => repeatWhile do
    let k ← kind
    if k.endsEverything || ends k then return false
    else if ← atJoin then return false
    else if ← atLock then return false
    else
      if k = .symbol .leftParen then groupWithin depth
      else if k = .keyword .case then caseWithin depth
      else if k.isIdentifier then discard column
      else discard advance
      return true

/-- Passes a group in parentheses; a query in it adds its tables and conditions. -/
def groupWithin : Nat → Walk Unit
  | 0 => failTooDeep
  | depth + 1 => do
    discard (expect (.symbol .leftParen))
    if ← check (.keyword .select) then queryWithin depth false
    else
      repeatWhile do
        expressionWithin depth TokenKind.endsNothing
        if ← atJoin then
          discard advance
          return true
        else return false
    discard (expect (.symbol .rightParen))

/-- Passes a `CASE` expression. In it the words that begin clauses have no such meaning. -/
def caseWithin : Nat → Walk Unit
  | 0 => failTooDeep
  | depth + 1 => do
    let opening ← advance
    repeatWhile do
      expressionWithin depth TokenKind.isEndKeyword
      let k ← kind
      if k = .keyword .end then
        discard advance
        return false
      else if k.endsEverything then failAt opening .caseWithoutEnd
      else
        discard advance
        return true

/-- The condition after `IN`. It is usable when every item of the list is a plain value. -/
def membershipWithin : Nat → Column → Walk (Option Condition)
  | 0, _ => failTooDeep
  | depth + 1, column => do
    if !(← check (.symbol .leftParen)) then return none
    else if (← peek) = .keyword .select then
      groupWithin depth
      return none
    else
      discard advance
      let values? ← repeatFrom (some []) fun values? => do
        let value? ← value?
        let isPlain := value?.isSome && (← checkAny [.symbol .comma, .symbol .rightParen])
        if !isPlain then expressionWithin depth TokenKind.isComma
        let values? := if isPlain then values?.bind fun values => value?.map fun v => values ++ [v] else none
        return (← eat (.symbol .comma), values?)
      discard (expect (.symbol .rightParen))
      return values?.map fun values => ⟨column, .isIn, values⟩

/-- Passes one condition and records it if it compares a column with plain values and nothing follows it. A negated
condition records nothing. -/
def conditionWithin : Nat → Walk Unit
  | 0 => failTooDeep
  | depth + 1 => do
    let k ← kind
    if k = .keyword .not then
      let before := (← statement).conditions
      discard advance
      conditionWithin depth
      record fun s => { s with conditions := before }
    else if k = .symbol .leftParen then
      if (← peek) = .keyword .select then groupWithin depth
      else
        discard advance
        conditionsWithin depth
        discard (expect (.symbol .rightParen))
      expressionWithin depth TokenKind.endsCondition
    else if k.isIdentifier then
      match ← column with
      | none => expressionWithin depth TokenKind.endsCondition
      | some column =>
        let condition? ← do
          if ← eatAny [.symbol .eq, .symbol .eqEq] then equality? column
          else if ← eat (.keyword .in) then membershipWithin depth column
          else if ← eat (.keyword .between) then between? column
          else pure none
        match condition? with
        | some condition => if ← atConditionEnd then record (·.addCondition condition)
        | none => pure ()
        expressionWithin depth TokenKind.endsCondition
    else expressionWithin depth TokenKind.endsCondition

/-- Passes conditions joined by `AND` and `OR`. An `OR` makes the conditions of the statement unusable. -/
def conditionsWithin : Nat → Walk Unit
  | 0 => failTooDeep
  | depth + 1 => repeatWhile do
    conditionWithin depth
    if ← eat (.keyword .and) then return true
    else if ← eat (.keyword .or) then
      record fun s => { s with conditions := s.conditions.markUnusable }
      return true
    else return false

/-- Passes a table with its alias and hints, a query in its place, or joined tables in parentheses. -/
def tableFactorWithin : Nat → Walk Unit
  | 0 => failTooDeep
  | depth + 1 => do
    if ← check (.symbol .leftParen) then
      if (← peek) = .keyword .select then
        groupWithin depth
        discard alias?
      else
        discard advance
        tableReferencesWithin depth
        discard (expect (.symbol .rightParen))
    else
      let name ← qualifiedName
      let aliasName ← alias?
      record (·.addTable name aliasName)
      tableHints

/-- Passes tables separated by commas and joins. -/
def tableReferencesWithin : Nat → Walk Unit
  | 0 => failTooDeep
  | depth + 1 => do
    tableFactorWithin depth
    repeatWhile do
      if ← eat (.symbol .comma) then
        tableFactorWithin depth
        return true
      else if ← atJoin then
        skipAll joinWords
        tableFactorWithin depth
        if ← eat (.keyword .on) then expressionWithin depth TokenKind.endsJoinCondition
        else if ← eat (.keyword .using) then skipParentheses
        return true
      else return false

/-- Passes a `SELECT` up to its ordering. -/
def selectWithin : Nat → Bool → Walk Unit
  | 0, _ => failTooDeep
  | depth + 1, isRecorded => do
    discard (expect (.keyword .select))
    skipAll selectModifiers
    if ← check (.keyword .top) then topClause isRecorded
    expressionWithin depth TokenKind.endsClause
    if ← eat (.keyword .from) then tableReferencesWithin depth
    if ← eat (.keyword .where) then conditionsWithin depth
    if ← eat (.keyword .group) then
      discard (expect (.keyword .by))
      expressionWithin depth TokenKind.endsClause
    if ← eat (.keyword .having) then expressionWithin depth TokenKind.endsClause

/-- Passes a query: selects joined by set operations, then ordering, pagination and locking. The pagination of a
select on the right of a set operation is not recorded. -/
def queryWithin : Nat → Bool → Walk Unit
  | 0, _ => failTooDeep
  | depth + 1, isRecorded => do
    if ← eat (.symbol .leftParen) then
      queryWithin depth isRecorded
      discard (expect (.symbol .rightParen))
    else selectWithin depth isRecorded
    if ← eatAny [.keyword .union, .keyword .except, .keyword .intersect] then
      discard (eatAny [.keyword .all, .keyword .distinct])
      queryWithin depth false
    else
      if ← eat (.keyword .order) then
        discard (expect (.keyword .by))
        expressionWithin depth TokenKind.endsClause
      pagination isRecorded
      lockingClause

end

/-! ## The readers at full depth -/

/-- A depth that the nesting of the text that is left cannot exceed. -/
def depth : Walk Nat := do return 4 * (← cursor).remaining + 4

def expression (ends : TokenKind → Bool) : Walk Unit := do expressionWithin (← depth) ends

def group : Walk Unit := do groupWithin (← depth)

def conditions : Walk Unit := do conditionsWithin (← depth)

/-- Passes a `WHERE` clause if there is one. -/
def whereClause : Walk Unit := do
  if ← eat (.keyword .where) then conditions

def tableFactor : Walk Unit := do tableFactorWithin (← depth)

def tableReferences : Walk Unit := do tableReferencesWithin (← depth)

def query (isRecorded : Bool) : Walk Unit := do queryWithin (← depth) isRecorded

end Walk

end SqlSharding.Sql
