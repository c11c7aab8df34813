import SqlSharding.Proofs.MeteredWalks
import SqlSharding.Proofs.Paging
import SqlSharding.Proofs.Statements

/-!
# Metered readers

The readers of statements with meters. Each loop of a reader is metered as a loop, each call among the readers that contain
one another as a call, and what has neither counts as one step. Without their meters the readers are the plain ones.
-/

namespace SqlSharding.Sql.Metered

open Walk (advance alias? assignedValue atConditionEnd atJoin atLock atStatementEnd between? bound check checkAny cursor eat
  eatAny equality? expect expectAny failAt failExpected identifier isAtEnd kind limitClause pagination peek qualifiedName record
  statement tableName value?)

/-! ## Runs of tokens -/

def skipAll (ks : List TokenKind) : Metered Unit := repeatWhile (eatAny ks)

def closeParentheses (depth : Nat) (atEnd : Walk Unit) : Metered Unit := discard <| repeatFrom depth fun depth => do
  if ← isAtEnd then
    atEnd
    return (false, depth)
  else
    let after := Walk.depthAfter depth (← kind)
    discard advance
    return (after ≠ 0, after)

def skipParentheses : Metered Unit := do
  if ← check (.symbol .leftParen) then
    let opening := (← cursor).current
    closeParentheses 0 (failAt opening .unbalancedParentheses)

def nameParts (first : Identifier) : Metered (List Identifier × Bool) :=
  repeatFrom ([first], false) fun (parts, _) => do
    if ← eat (.symbol .dot) then
      let k ← kind
      if k.isIdentifier then
        let part ← identifier
        return (true, parts ++ [part], false)
      else if k = .symbol .star then
        discard advance
        return (false, parts, true)
      else failExpected .identifier
    else return (false, parts, false)

/-- Records the qualifier of a dotted name, whose column it is. -/
def columnEnd : List Identifier × Bool → Walk (Option Column)
  | (parts, true) => do
    match parts.getLast? with
    | some owner => record (·.addQualifier owner)
    | none => pure ()
    return none
  | (parts, false) =>
    match parts.reverse with
    | [] => return none
    | [last] => return some ⟨none, last.name⟩
    | last :: owner :: _ => do
      record (·.addQualifier owner)
      return some ⟨some owner.name, last.name⟩

def column : Metered (Option Column) := do
  let first ← identifier
  let name ← nameParts first
  columnEnd name

def topGroup : Metered (Option PlacedBound) := do
  let next ← peek
  if next.sameShape (.integer 0) || next = .symbol .question then
    discard advance
    let b ← bound
    if ← eat (.symbol .rightParen) then return some b
    else
      closeParentheses 1 (failExpected (.token (.symbol .rightParen)))
      return none
  else
    skipParentheses
    return none

def topClause (isRecorded : Bool) : Metered Unit := do
  discard (expect (.keyword .top))
  if ← check (.symbol .leftParen) then
    let rowCount ← topGroup
    Walk.topEnd isRecorded rowCount
  else
    let rowCount ← bound
    Walk.topEnd isRecorded (some rowCount)

def topClauseIfAny (isRecorded : Bool) : Metered Unit := do
  if ← check (.keyword .top) then topClause isRecorded

def skipToList : Metered Unit := repeatWhile do
  if ← check (.symbol .leftParen) then return false
  else if ← isAtEnd then failExpected .indexList
  else
    discard advance
    return true

def tableHints : Metered Unit := repeatWhile do
  if ← eatAny [.keyword .use, .keyword .ignore, .keyword .force] then
    discard (expectAny [.keyword .index, .keyword .key] .indexOrKey)
    skipToList
    skipParentheses
    return true
  else if ← check (.keyword .with) then
    if (← peek) = .symbol .leftParen then
      discard advance
      skipParentheses
      return true
    else return false
  else return false

/-- Passes the words of a locking clause. -/
def lockingWords : Metered Unit := repeatWhile do
  if (← kind).endsEverything then return false
  else
    discard advance
    return true

def lockingClause : Metered Unit := do
  if ← check (.keyword .for) then lockingWords
  else if ← atLock then lockingWords

section walk

theorem walk_skipAll (ks : List TokenKind) : (skipAll ks).walk = Walk.skipAll ks := by
  simp only [skipAll, Walk.skipAll, walk_repeatWhile, walk_lift]

theorem walk_closeParentheses (depth : Nat) (atEnd : Walk Unit) :
    (closeParentheses depth atEnd).walk = Walk.closeParentheses depth atEnd := by
  simp only [closeParentheses, Walk.closeParentheses, walk_discard, walk_repeatFrom, walk_bind, walk_ite, walk_lift, walk_pure]

theorem walk_skipParentheses : skipParentheses.walk = Walk.skipParentheses := by
  simp only [skipParentheses, Walk.skipParentheses, walk_bind, walk_ite, walk_lift, walk_pure, walk_closeParentheses]

theorem walk_column : column.walk = Walk.column := by
  have parts (first : Identifier) : (nameParts first).walk = Walk.nameParts first := by
    simp only [nameParts, Walk.nameParts, walk_repeatFrom, walk_bind, walk_ite, walk_lift, walk_pure, walk_discard]
  exact walk_seq rfl fun first => walk_seq (parts first) fun | (_, true) | (_, false) => rfl

theorem walk_topClause (isRecorded : Bool) : (topClause isRecorded).walk = Walk.topClause isRecorded := by
  have group : topGroup.walk = Walk.topGroup := by
    simp only [topGroup, Walk.topGroup, walk_bind, walk_ite, walk_lift, walk_pure, walk_discard, walk_closeParentheses,
      walk_skipParentheses]
  rw [Walk.topClause_eq]
  refine walk_seq rfl fun _ => walk_seq rfl fun _ => walk_branch (walk_seq group fun _ => rfl) ?_
  exact (bind_map_left some bound (Walk.topEnd isRecorded)).symm

theorem walk_topClauseIfAny {m : Metered Unit} {w : Walk Unit} (isRecorded : Bool) (next : m.walk = w) :
    (topClauseIfAny isRecorded >>= fun _ => m).walk =
      Walk.check (.keyword .top) >>= fun found => if found = true then Walk.topClause isRecorded >>= fun _ => w else w := by
  rw [topClauseIfAny, walk_bind, walk_bind, bind_assoc]
  refine congrArg (Walk.check _ >>= ·) (funext fun found => ?_)
  rw [walk_ite, Walk.ite_bind, walk_topClause, next]
  exact if_congr Iff.rfl rfl (pure_bind () fun _ => w)

theorem walk_tableHints : tableHints.walk = Walk.tableHints := by
  have toList : skipToList.walk = Walk.skipToList := by
    simp only [skipToList, Walk.skipToList, walk_repeatWhile, walk_bind, walk_ite, walk_lift, walk_pure, walk_discard]
  simp only [tableHints, Walk.tableHints, walk_repeatWhile, walk_bind, walk_ite, walk_lift, walk_pure, walk_discard, toList,
    walk_skipParentheses]

theorem walk_lockingClause : lockingClause.walk = Walk.lockingClause := by
  simp only [lockingClause, lockingWords, Walk.lockingClause, walk_repeatWhile, walk_bind, walk_ite, walk_lift, walk_pure,
    walk_discard, pure_bind, if_true]

end walk

/-! ## The nested readers -/

/-- Passes the items of a group, which join words separate. -/
def groupItems (item : Metered Unit) : Metered Unit := repeatWhile do
  item
  if ← atJoin then
    discard advance
    return true
  else return false

/-- Passes the parts of a `CASE` expression up to its end. -/
def caseParts (opening : Token) (part : Metered Unit) : Metered Unit := repeatWhile do
  part
  let k ← kind
  if k = .keyword .end then
    discard advance
    return false
  else if k.endsEverything then failAt opening .caseWithoutEnd
  else
    discard advance
    return true

/-- Passes the items of a list after `IN`. They are known if all of them are plain values. -/
def listItems (item : Metered Unit) : Metered (Option (List Operand)) := repeatFrom (some []) fun values? => do
  let value? ← value?
  let isPlain := value?.isSome && (← checkAny [.symbol .comma, .symbol .rightParen])
  if !isPlain then item
  let values? := if isPlain then values?.bind fun values => value?.map fun v => values ++ [v] else none
  return (← eat (.symbol .comma), values?)

/-- Passes the tables after the first one. -/
def joinedTables (table condition : Metered Unit) : Metered Unit := repeatWhile do
  if ← eat (.symbol .comma) then
    table
    return true
  else if ← atJoin then
    skipAll joinWords
    table
    if ← eat (.keyword .on) then condition
    else if ← eat (.keyword .using) then skipParentheses
    return true
  else return false

/-- Records a condition that nothing follows, and passes what may follow it. -/
def conditionEnd (rest : Metered Unit) : Option Condition → Metered Unit
  | none => rest
  | some condition => do
    if ← atConditionEnd then record (·.addCondition condition)
    rest

/-- Passes what follows the column at the beginning of a condition. -/
def comparison (membership : Column → Metered (Option Condition)) (rest : Metered Unit) (column : Column) :
    Metered Unit := do
  if ← eatAny [.symbol .eq, .symbol .eqEq] then
    let condition? ← equality? column
    conditionEnd rest condition?
  else if ← eat (.keyword .in) then
    let condition? ← membership column
    conditionEnd rest condition?
  else if ← eat (.keyword .between) then
    let condition? ← between? column
    conditionEnd rest condition?
  else rest

/-- Passes an expression after `BY`. -/
def listAfterBy (list : Metered Unit) : Metered Unit := do
  discard (expect (.keyword .by))
  list

/-- Passes what follows the first select of a query. -/
def queryEnd (query : Bool → Metered Unit) (list : Metered Unit) (isRecorded : Bool) : Metered Unit := do
  if ← eatAny [.keyword .union, .keyword .except, .keyword .intersect] then
    discard (eatAny [.keyword .all, .keyword .distinct])
    query false
  else
    optional (.keyword .order) (listAfterBy list)
    pagination isRecorded
    lockingClause

mutual

def expressionWithin : Nat → (TokenKind → Bool) → Metered Unit
  | 0, _ => giveUp
  | depth + 1, ends => call .expression <| repeatWhile do
    let k ← kind
    if k.endsEverything || ends k then return false
    else if ← atJoin then return false
    else if ← atLock then return false
    else
      if k = .symbol .leftParen then groupWithin depth
      else if k = .keyword .case then caseWithin depth
      else if k.isIdentifier then discard column
      else discard advance
      return true

def groupWithin : Nat → Metered Unit
  | 0 => giveUp
  | depth + 1 => call .group do
    discard (expect (.symbol .leftParen))
    if ← check (.keyword .select) then queryWithin depth false
    else groupItems (expressionWithin depth TokenKind.endsNothing)
    discard (expect (.symbol .rightParen))

def caseWithin : Nat → Metered Unit
  | 0 => giveUp
  | depth + 1 => call .cases do
    let opening ← advance
    caseParts opening (expressionWithin depth TokenKind.isEndKeyword)

def membershipWithin : Nat → Column → Metered (Option Condition)
  | 0, _ => giveUp
  | depth + 1, column => call .membership do
    if !(← check (.symbol .leftParen)) then return none
    else if (← peek) = .keyword .select then
      groupWithin depth
      return none
    else
      discard advance
      let values? ← listItems (expressionWithin depth TokenKind.isComma)
      discard (expect (.symbol .rightParen))
      return values?.map fun values => ⟨column, .isIn, values⟩

def conditionWithin : Nat → Metered Unit
  | 0 => giveUp
  | depth + 1 => call .condition do
    let k ← kind
    if k = .keyword .not then
      let before := (← statement).conditions
      discard advance
      conditionWithin depth
      record fun s => { s with conditions := before }
    else if k = .symbol .leftParen then
      if (← peek) = .keyword .select then groupWithin depth
      else
        discard advance
        conditionsWithin depth
        discard (expect (.symbol .rightParen))
      expressionWithin depth TokenKind.endsCondition
    else if k.isIdentifier then
      match ← column with
      | none => expressionWithin depth TokenKind.endsCondition
      | some x => comparison (membershipWithin depth) (expressionWithin depth TokenKind.endsCondition) x
    else expressionWithin depth TokenKind.endsCondition

def conditionsWithin : Nat → Metered Unit
  | 0 => giveUp
  | depth + 1 => call .conditions <| repeatWhile do
    conditionWithin depth
    if ← eat (.keyword .and) then return true
    else if ← eat (.keyword .or) then
      record fun s => { s with conditions := s.conditions.markUnusable }
      return true
    else return false

def tableFactorWithin : Nat → Metered Unit
  | 0 => giveUp
  | depth + 1 => call .tableFactor do
    if ← check (.symbol .leftParen) then
      if (← peek) = .keyword .select then
        groupWithin depth
        discard alias?
      else
        discard advance
        tableReferencesWithin depth
        discard (expect (.symbol .rightParen))
    else
      let name ← qualifiedName
      let aliasName ← alias?
      record (·.addTable name aliasName)
      tableHints

def tableReferencesWithin : Nat → Metered Unit
  | 0 => giveUp
  | depth + 1 => call .tableReferences do
    tableFactorWithin depth
    joinedTables (tableFactorWithin depth) (expressionWithin depth TokenKind.endsJoinCondition)

def selectWithin : Nat → Bool → Metered Unit
  | 0, _ => giveUp
  | depth + 1, isRecorded => call .select do
    discard (expect (.keyword .select))
    skipAll selectModifiers
    topClauseIfAny isRecorded
    expressionWithin depth TokenKind.endsClause
    optional (.keyword .from) (tableReferencesWithin depth)
    optional (.keyword .where) (conditionsWithin depth)
    optional (.keyword .group) (listAfterBy (expressionWithin depth TokenKind.endsClause))
    optional (.keyword .having) (expressionWithin depth TokenKind.endsClause)

def queryWithin : Nat → Bool → Metered Unit
  | 0, _ => giveUp
  | depth + 1, isRecorded => call .query do
    if ← eat (.symbol .leftParen) then
      queryWithin depth isRecorded
      discard (expect (.symbol .rightParen))
    else selectWithin depth isRecorded
    queryEnd (queryWithin depth) (expressionWithin depth TokenKind.endsClause) isRecorded

end

/-- An ordering or a grouping before more steps. -/
theorem walk_optional_list {k : TokenKind} {m : Metered Unit} {w : Walk Unit} {f : Unit → Metered Unit} {g : Unit → Walk Unit}
    (list : m.walk = w) (next : (f ()).walk = g ()) :
    (optional k (listAfterBy m) >>= f).walk = Walk.eat k >>= fun found =>
      if found = true then discard (Walk.expect (.keyword .by)) >>= fun _ => w >>= g else g () := by
  have byList : (listAfterBy m).walk = discard (Walk.expect (.keyword .by)) >>= fun _ => w := walk_seq rfl fun _ => list
  rw [walk_optional_seq byList next]
  simp only [bind_assoc]

/-- With the given depth left, the nested readers without their meters are the plain ones. -/
structure Plain (depth : Nat) : Prop where
  expression : ∀ ends, (expressionWithin depth ends).walk = Walk.expressionWithin depth ends
  group : (groupWithin depth).walk = Walk.groupWithin depth
  cases : (caseWithin depth).walk = Walk.caseWithin depth
  membership : ∀ column, (membershipWithin depth column).walk = Walk.membershipWithin depth column
  condition : (conditionWithin depth).walk = Walk.conditionWithin depth
  conditions : (conditionsWithin depth).walk = Walk.conditionsWithin depth
  tableFactor : (tableFactorWithin depth).walk = Walk.tableFactorWithin depth
  tableReferences : (tableReferencesWithin depth).walk = Walk.tableReferencesWithin depth
  select : ∀ isRecorded, (selectWithin depth isRecorded).walk = Walk.selectWithin depth isRecorded
  query : ∀ isRecorded, (queryWithin depth isRecorded).walk = Walk.queryWithin depth isRecorded

namespace Plain

theorem zero : Plain 0 where
  expression _ := rfl
  group := rfl
  cases := rfl
  membership _ := rfl
  condition := rfl
  conditions := rfl
  tableFactor := rfl
  tableReferences := rfl
  select _ := rfl
  query _ := rfl

variable {depth : Nat} (plain : Plain depth)

include plain

theorem expression_succ (ends : TokenKind → Bool) :
    (expressionWithin (depth + 1) ends).walk = Walk.expressionWithin (depth + 1) ends := by
  simp only [expressionWithin, Walk.expressionWithin, walk_call, walk_repeatWhile, walk_bind, walk_ite, walk_lift, walk_pure,
    walk_discard, walk_column, plain.group, plain.cases]

theorem group_succ : (groupWithin (depth + 1)).walk = Walk.groupWithin (depth + 1) := by
  simp only [groupWithin, groupItems, Walk.groupWithin, walk_call, walk_repeatWhile, walk_bind, walk_ite, walk_lift, walk_pure,
    walk_discard, plain.query, plain.expression]

theorem cases_succ : (caseWithin (depth + 1)).walk = Walk.caseWithin (depth + 1) := by
  simp only [caseWithin, caseParts, Walk.caseWithin, walk_call, walk_repeatWhile, walk_bind, walk_ite, walk_lift, walk_pure,
    walk_discard, plain.expression]

theorem membership_succ (x : Column) : (membershipWithin (depth + 1) x).walk = Walk.membershipWithin (depth + 1) x := by
  simp only [membershipWithin, listItems, Walk.membershipWithin, walk_call, walk_repeatFrom, walk_bind, walk_ite, walk_lift,
    walk_pure, walk_discard, plain.group, plain.expression]

theorem conditionEnd_walk (condition? : Option Condition) :
    (conditionEnd (expressionWithin depth TokenKind.endsCondition) condition?).walk = Walk.conditionEnd depth condition? := by
  have rest := plain.expression TokenKind.endsCondition
  cases condition? with
  | none => exact rest
  | some condition => simp only [conditionEnd, Walk.conditionEnd, walk_bind, walk_ite, walk_lift, rest]

theorem comparison_walk (x : Column) :
    (comparison (membershipWithin depth) (expressionWithin depth TokenKind.endsCondition) x).walk =
      Walk.comparison depth x := by
  refine walk_seq rfl fun _ => walk_branch (walk_seq rfl plain.conditionEnd_walk) ?_
  refine walk_seq rfl fun _ => walk_branch (walk_seq (plain.membership x) plain.conditionEnd_walk) ?_
  exact walk_seq rfl fun _ => walk_branch (walk_seq rfl plain.conditionEnd_walk) (plain.conditionEnd_walk none)

theorem condition_succ : (conditionWithin (depth + 1)).walk = Walk.conditionWithin (depth + 1) := by
  have rest := plain.expression TokenKind.endsCondition
  rw [conditionWithin, Walk.conditionWithin, walk_call]
  refine walk_seq rfl fun k => walk_branch ?_ (walk_branch ?_ (walk_branch ?_ rest))
  · exact walk_seq rfl fun _ => walk_seq rfl fun _ => walk_seq plain.condition fun _ => rfl
  · refine walk_seq rfl fun _ => walk_branch (walk_seq plain.group fun _ => rest) ?_
    exact walk_seq rfl fun _ => walk_seq plain.conditions fun _ => walk_seq rfl fun _ => rest
  · refine walk_seq walk_column fun x => ?_
    cases x with
    | none => exact rest
    | some x => exact plain.comparison_walk x

theorem conditions_succ : (conditionsWithin (depth + 1)).walk = Walk.conditionsWithin (depth + 1) := by
  simp only [conditionsWithin, Walk.conditionsWithin, walk_call, walk_repeatWhile, walk_bind, walk_ite, walk_lift, walk_pure,
    plain.condition]

theorem tableFactor_succ : (tableFactorWithin (depth + 1)).walk = Walk.tableFactorWithin (depth + 1) := by
  simp only [tableFactorWithin, Walk.tableFactorWithin, walk_call, walk_bind, walk_ite, walk_lift, walk_discard, plain.group,
    plain.tableReferences, walk_tableHints]

theorem tableReferences_succ : (tableReferencesWithin (depth + 1)).walk = Walk.tableReferencesWithin (depth + 1) := by
  simp only [tableReferencesWithin, joinedTables, Walk.tableReferencesWithin, walk_call, walk_repeatWhile, walk_bind,
    walk_ite, walk_lift, walk_pure, plain.tableFactor, plain.expression, walk_skipAll, walk_skipParentheses]

theorem select_succ (isRecorded : Bool) :
    (selectWithin (depth + 1) isRecorded).walk = Walk.selectWithin (depth + 1) isRecorded := by
  have clause := plain.expression TokenKind.endsClause
  rw [selectWithin, Walk.selectWithin_succ, walk_call]
  refine walk_seq rfl fun _ => walk_seq (walk_skipAll _) fun _ => walk_topClauseIfAny isRecorded (walk_seq clause fun _ => ?_)
  refine walk_optional_seq plain.tableReferences (walk_optional_seq plain.conditions ?_)
  exact walk_optional_list clause (walk_optional clause)

theorem query_succ (isRecorded : Bool) : (queryWithin (depth + 1) isRecorded).walk = Walk.queryWithin (depth + 1) isRecorded := by
  have ending : (queryEnd (queryWithin depth) (expressionWithin depth TokenKind.endsClause) isRecorded).walk =
      Walk.queryEnd depth isRecorded := by
    refine walk_seq rfl fun _ => walk_branch (walk_seq rfl fun _ => plain.query false) ?_
    exact walk_optional_list (plain.expression _) (walk_seq rfl fun _ => walk_lockingClause)
  rw [queryWithin, Walk.queryWithin, walk_call]
  refine walk_seq rfl fun _ => walk_branch ?_ (walk_seq (plain.select isRecorded) fun _ => ending)
  exact walk_seq (plain.query isRecorded) fun _ => walk_seq rfl fun _ => ending

omit plain in
theorem all : ∀ depth, Plain depth
  | 0 => zero
  | depth + 1 =>
    have plain := all depth
    ⟨plain.expression_succ, plain.group_succ, plain.cases_succ, plain.membership_succ, plain.condition_succ,
      plain.conditions_succ, plain.tableFactor_succ, plain.tableReferences_succ, plain.select_succ, plain.query_succ⟩

end Plain

end SqlSharding.Sql.Metered
