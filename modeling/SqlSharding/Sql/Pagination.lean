import SqlSharding.Sql.Walk

/-!
# Pagination clauses

Three ways to ask for some of the rows, `LIMIT`, `OFFSET … FETCH` and `TOP`, all read into a row count and an
offset. Literal bounds are recorded as places to rewrite.
-/

namespace SqlSharding.Sql

/-- A bound with the place where it stands. -/
structure PlacedBound where
  bound : Bound
  span : Span

namespace Statement

/-- Records a bound as a place to rewrite if it is a literal. -/
def addBoundPoint (point : Span → Int64 → RewritePoint) (s : Statement) : Option PlacedBound → Statement
  | some ⟨.literal n, span⟩ => s.addPoint (point span n)
  | _ => s

/-- Records the pagination of a statement. Only a SELECT may be widened. -/
def paginate (rowCount offset : Option PlacedBound) (rewritable : Bool) (s : Statement) : Statement :=
  let s := (s.addBoundPoint .offset offset).addBoundPoint .rowCount rowCount
  { s with limit := some ⟨rowCount.map (·.bound), offset.map (·.bound), rewritable && s.kind = .select⟩ }

end Statement

namespace Walk

/-- A non-negative integer or a placeholder. -/
def bound : Walk PlacedBound := do
  let c ← cursor
  match c.kind with
  | .integer n =>
    if 0 ≤ n then
      discard advance
      return ⟨.literal n, c.current.span⟩
    else failExpected .paginationBound
  | .symbol .question =>
    discard advance
    return ⟨.placeholder c.parameterIndex, c.current.span⟩
  | _ => failExpected .paginationBound

/-- The row count and the offset of a `LIMIT`, whose first bound has been read. -/
def limitBounds (first : PlacedBound) : Walk (PlacedBound × Option PlacedBound) := do
  if ← eat (.symbol .comma) then return (← bound, some first)
  else if ← eat (.keyword .offset) then return (first, some (← bound))
  else return (first, none)

/-- `LIMIT n`, `LIMIT o, n` or `LIMIT n OFFSET o`. -/
def limitClause (isRecorded : Bool) : Walk Unit := do
  discard (expect (.keyword .limit))
  let (rowCount, offset) ← limitBounds (← bound)
  if isRecorded then record (·.paginate (some rowCount) offset true)

/-- `OFFSET o ROWS`, `FETCH NEXT n ROWS ONLY`, or both. -/
def offsetFetchClause (isRecorded : Bool) : Walk Unit := do
  let offset ←
    if ← eat (.keyword .offset) then
      let b ← bound
      discard (eatAny [.keyword .row, .keyword .rows])
      pure (some b)
    else pure none
  let rowCount ←
    if ← eat (.keyword .fetch) then
      discard (expectAny [.keyword .first, .keyword .next] .firstOrNext)
      let b ← bound
      discard (expectAny [.keyword .row, .keyword .rows] .rowOrRows)
      discard (expect (.keyword .only))
      pure (some b)
    else pure none
  if offset.isNone && rowCount.isNone then failExpected .offsetOrFetch
  if isRecorded then record (·.paginate rowCount offset true)

/-- The row count in parentheses after `TOP`; an expression that is more than a bound is passed and gives none. -/
def topGroup : Walk (Option PlacedBound) := do
  let next ← peek
  if next.sameShape (.integer 0) || next = .symbol .question then
    discard advance
    let b ← bound
    if ← eat (.symbol .rightParen) then return some b
    else
      closeParentheses 1 (failExpected (.token (.symbol .rightParen)))
      return none
  else
    skipParentheses
    return none

/-- `TOP n` or `TOP (n)`, with `PERCENT` and `WITH TIES`. A percentage cannot be widened. -/
def topClause (isRecorded : Bool) : Walk Unit := do
  discard (expect (.keyword .top))
  let rowCount ← if ← check (.symbol .leftParen) then topGroup else some <$> bound
  let percent := (← kind).isWord "PERCENT"
  if percent then discard advance
  if ← check (.keyword .with) then
    if (← peek).isWord "TIES" then
      discard advance
      discard advance
  if isRecorded then
    match rowCount with
    | some b => record (·.paginate (some b) none (!percent))
    | none => pure ()

/-- The pagination after the clauses of a SELECT, if there is one. -/
def pagination (isRecorded : Bool) : Walk Unit := do
  if ← check (.keyword .limit) then limitClause isRecorded
  else if ← checkAny [.keyword .offset, .keyword .fetch] then
    if (← cursor).dialect ≠ .mysql then offsetFetchClause isRecorded

end Walk

end SqlSharding.Sql
