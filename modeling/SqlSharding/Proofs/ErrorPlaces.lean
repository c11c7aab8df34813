import SqlSharding.Proofs.Endings
import SqlSharding.Proofs.Paging
import SqlSharding.Proofs.Statements
import SqlSharding.Proofs.Tiling

/-!
# Places of errors

A walk takes its errors from the tokens that it passes and from the faults ahead of it, which have places in the text. So the
line and the column of every error are those of the characters before it.
-/

namespace SqlSharding.Sql

variable {d : Dialect} {text : List Char} {α β σ : Type}

/-- The token at which a walk stands, and all that is ahead of it, have places in a text. -/
def WalkState.IsIn (text : List Char) (s : WalkState) : Prop :=
  s.cursor.current.place.IsIn text ∧ s.cursor.ahead.IsIn text

/-- A walk that does not leave a text, and has its error in the text if it fails. -/
def Walk.StaysIn (text : List Char) (m : Walk α) : Prop :=
  Ends (WalkState.IsIn text) m (fun _ => WalkState.IsIn text) fun e _ => e.place.IsIn text

/-- A walk that does not leave a text either, and finds a token of it. -/
def Walk.Finds (text : List Char) (m : Walk α) (token : α → Token) : Prop :=
  Ends (WalkState.IsIn text) m (fun a s => (token a).place.IsIn text ∧ s.IsIn text) fun e _ => e.place.IsIn text

namespace Walk.Finds

variable {m : Walk α} {f : α → Walk β} {token : α → Token}

theorem bind (first : Finds text m token) (next : ∀ a, (token a).place.IsIn text → StaysIn text (f a)) :
    StaysIn text (m >>= f) :=
  Ends.bind first fun a s found => next a found.1 s found.2

theorem staysIn (finds : Finds text m token) : StaysIn text m := Ends.after finds fun _ _ => And.right

theorem cursor : Finds text Walk.cursor (·.current) := fun _ isIn => ⟨isIn.1, isIn⟩

theorem advance : Finds text Walk.advance id := by
  rintro ⟨⟨d, t, ahead, n⟩, statement⟩ ⟨here, beyond⟩
  simp only [Walk.advance, Cursor.step]
  by_cases atEnd : Cursor.isAtEnd ⟨d, t, ahead, n⟩ = true
  · rw [if_pos atEnd]
    exact ⟨here, here, beyond⟩
  · rw [if_neg atEnd]
    cases ahead with
    | token u rest => exact ⟨here, beyond⟩
    | finished p => exact ⟨here, beyond, beyond⟩
    | fault e rest => exact beyond.1
    | stuck e => exact beyond

end Walk.Finds

namespace Walk.StaysIn

/-! ## Rules -/

section rules

variable {m n : Walk α} {f : α → Walk β}

theorem pure {a : α} : StaysIn text (Pure.pure a) := Ends.pure fun _ => id

theorem bind (first : StaysIn text m) (next : ∀ a, StaysIn text (f a)) : StaysIn text (m >>= f) := Ends.bind first next

theorem map {g : α → β} (stays : StaysIn text m) : StaysIn text (g <$> m) := Ends.map stays

theorem discard (stays : StaysIn text m) : StaysIn text (discard m) := stays.map

theorem branch {c : Prop} [Decidable c] (yes : StaysIn text m) (no : StaysIn text n) :
    StaysIn text (if c then m else n) :=
  Ends.ite yes no

/-- A step that may be left out. -/
theorem perhaps {c : Prop} [Decidable c] {m : Walk Unit} {f : Unit → Walk β} (step : StaysIn text m)
    (next : StaysIn text (f ())) : StaysIn text (if c then m >>= f else f ()) :=
  branch (step.bind fun _ => next) next

/-- A walk that only looks at the state. -/
theorem look {g : WalkState → α} (looks : ∀ s, m s = .ok (g s) s) : StaysIn text m := by
  intro s isIn
  rw [looks]
  exact isIn

theorem record {g : Statement → Statement} : StaysIn text (Walk.record g) := fun _ isIn => isIn

end rules

/-! ## Steps -/

theorem statement : StaysIn text Walk.statement := look fun _ => rfl

theorem kind : StaysIn text Walk.kind := look fun _ => rfl

theorem parameterIndex : StaysIn text Walk.parameterIndex := look fun _ => rfl

theorem check (k : TokenKind) : StaysIn text (Walk.check k) := look fun _ => rfl

theorem checkAny (ks : List TokenKind) : StaysIn text (Walk.checkAny ks) := look fun _ => rfl

theorem isAtEnd : StaysIn text Walk.isAtEnd := look fun _ => rfl

theorem cursor : StaysIn text Walk.cursor := Finds.cursor.staysIn

theorem advance : StaysIn text Walk.advance := Finds.advance.staysIn

theorem peek : StaysIn text Walk.peek := by
  rintro ⟨⟨d, t, ahead, n⟩, statement⟩ ⟨here, beyond⟩
  simp only [Walk.peek, Cursor.peek]
  by_cases atEnd : Cursor.isAtEnd ⟨d, t, ahead, n⟩ = true
  · rw [if_pos atEnd]
    exact ⟨here, beyond⟩
  · rw [if_neg atEnd]
    cases ahead with
    | token u rest => exact ⟨here, beyond⟩
    | finished p => exact ⟨here, beyond⟩
    | fault e rest => exact beyond.1
    | stuck e => exact beyond

theorem failAt {t : Token} (isIn : t.place.IsIn text) (cause : SyntaxCause) : StaysIn text (Walk.failAt t cause : Walk α) :=
  fun _ _ => isIn

theorem failExpected {what : Expectation} : StaysIn text (Walk.failExpected what : Walk α) := fun _ isIn => isIn.1

theorem failTooDeep : StaysIn text (Walk.failTooDeep : Walk α) := fun _ isIn => isIn.1

theorem eat (k : TokenKind) : StaysIn text (Walk.eat k) :=
  (check k).bind fun _ => branch (advance.discard.bind fun _ => pure) pure

theorem eatAny (ks : List TokenKind) : StaysIn text (Walk.eatAny ks) :=
  (checkAny ks).bind fun _ => branch (advance.discard.bind fun _ => pure) pure

theorem expect (k : TokenKind) : StaysIn text (Walk.expect k) := (check k).bind fun _ => branch advance failExpected

theorem expectAny (ks : List TokenKind) (what : Expectation) : StaysIn text (Walk.expectAny ks what) :=
  (checkAny ks).bind fun _ => branch advance failExpected

theorem iterate {body : σ → Walk (Bool × σ)} (round : ∀ x, StaysIn text (body x)) :
    ∀ n x, StaysIn text (Walk.iterate body n x) := by
  intro n
  induction n with
  | zero => exact fun _ => failTooDeep
  | succ n ih =>
    intro x
    rw [Walk.iterate]
    refine (round x).bind ?_
    rintro ⟨again, y⟩
    exact branch (ih y) pure

theorem repeatFrom {body : σ → Walk (Bool × σ)} {x : σ} (round : ∀ x, StaysIn text (body x)) :
    StaysIn text (Walk.repeatFrom x body) :=
  cursor.bind fun _ => iterate round _ x

theorem repeatWhile {body : Walk Bool} (round : StaysIn text body) : StaysIn text (Walk.repeatWhile body) :=
  repeatFrom fun _ => round.map

theorem skipAll (ks : List TokenKind) : StaysIn text (Walk.skipAll ks) := repeatWhile (eatAny ks)

theorem identifier : StaysIn text Walk.identifier := kind.bind fun _ => branch advance.map failExpected

theorem closeParentheses {depth : Nat} {atEnd : Walk Unit} (fails : StaysIn text atEnd) :
    StaysIn text (Walk.closeParentheses depth atEnd) := by
  refine discard (repeatFrom fun _ => isAtEnd.bind fun _ => branch ?_ ?_)
  · exact fails.bind fun _ => pure
  · exact kind.bind fun _ => advance.discard.bind fun _ => pure

theorem skipParentheses : StaysIn text Walk.skipParentheses := by
  refine (check _).bind fun _ => branch ?_ pure
  exact Finds.cursor.bind fun _ opening => closeParentheses (failAt opening _)

theorem atLock : StaysIn text Walk.atLock := kind.bind fun _ => branch (peek.bind fun _ => pure) pure

theorem atJoin : StaysIn text Walk.atJoin := by
  refine kind.bind fun k => ?_
  cases k with
  | keyword w => exact branch pure (branch (peek.bind fun _ => pure) pure)
  | _ => exact pure

/-! ## Names, values and pagination -/

theorem qualifiedName : StaysIn text Walk.qualifiedName :=
  identifier.bind fun _ => (eat _).bind fun _ => branch identifier pure

theorem tableName : StaysIn text Walk.tableName := qualifiedName.bind fun _ => record.bind fun _ => pure

theorem column : StaysIn text Walk.column := by
  have parts (first : Identifier) : StaysIn text (Walk.nameParts first) := by
    refine repeatFrom fun _ => (eat _).bind fun _ => branch (kind.bind fun _ => branch ?_ (branch ?_ failExpected)) pure
    · exact identifier.bind fun _ => pure
    · exact advance.discard.bind fun _ => pure
  refine identifier.bind fun first => (parts first).bind fun (names, star) => branch ?_ ?_
  · cases names.getLast? with
    | some _ => exact record.bind fun _ => pure
    | none => exact pure
  · match names.reverse with
    | [] | [_] => exact pure
    | _ :: _ :: _ => exact record.bind fun _ => pure

theorem value? : StaysIn text Walk.value? := by
  have passed {v : Option Operand} : StaysIn text (do Functor.discard Walk.advance; return v) :=
    advance.discard.bind fun _ => pure
  refine kind.bind fun k => ?_
  cases k with
  | integer | float | string => exact passed
  | symbol sign =>
    cases sign with
    | question => exact parameterIndex.bind fun _ => passed
    | minus =>
      refine advance.discard.bind fun _ => kind.bind fun k => ?_
      cases Walk.negated? k with
      | some _ => exact passed
      | none => exact pure
    | _ => exact pure
  | _ => exact pure

theorem bound : StaysIn text Walk.bound := by
  refine cursor.bind fun c => ?_
  cases c.kind with
  | integer => exact branch (advance.discard.bind fun _ => pure) failExpected
  | symbol sign =>
    cases sign with
    | question => exact advance.discard.bind fun _ => pure
    | _ => exact failExpected
  | _ => exact failExpected

theorem limitClause (r : Bool) : StaysIn text (Walk.limitClause r) := by
  have bounds (first : PlacedBound) : StaysIn text (Walk.limitBounds first) := by
    refine (eat _).bind fun _ => branch (bound.bind fun _ => pure) ?_
    exact (eat _).bind fun _ => branch (bound.bind fun _ => pure) pure
  refine (expect _).discard.bind fun _ => bound.bind fun first => ?_
  exact (bounds first).bind fun _ => branch record pure

theorem offsetFetchClause (r : Bool) : StaysIn text (Walk.offsetFetchClause r) := by
  have ending (offset rowCount : Option PlacedBound) : StaysIn text (Walk.offsetFetchEnd r offset rowCount) := by
    rw [Walk.offsetFetchEnd]
    exact perhaps failExpected (branch record pure)
  have fetch (offset : Option PlacedBound) : StaysIn text (Walk.fetchEnd r offset) := by
    refine (eat _).bind fun _ => branch ?_ (ending offset none)
    refine (expectAny _ _).discard.bind fun _ => bound.bind fun b => (expectAny _ _).discard.bind fun _ => ?_
    exact (expect _).discard.bind fun _ => ending offset (some b)
  refine (eat _).bind fun _ => branch ?_ (fetch none)
  exact bound.bind fun b => (eatAny _).discard.bind fun _ => fetch (some b)

theorem topClause (r : Bool) : StaysIn text (Walk.topClause r) := by
  have group : StaysIn text Walk.topGroup := by
    refine peek.bind fun _ => branch ?_ (skipParentheses.bind fun _ => pure)
    refine advance.discard.bind fun _ => bound.bind fun _ => (eat _).bind fun _ => branch pure ?_
    exact (closeParentheses failExpected).bind fun _ => pure
  have ending (rowCount : Option PlacedBound) : StaysIn text (Walk.topEnd r rowCount) := by
    refine bind (kind.bind fun _ => perhaps advance.discard pure) fun percent => bind ?_ fun _ => branch ?_ pure
    · refine (check _).bind fun _ => branch ?_ pure
      exact peek.bind fun _ => branch (advance.discard.bind fun _ => advance.discard) pure
    · cases rowCount with
      | some _ => exact record
      | none => exact pure
  rw [Walk.topClause_eq]
  refine (expect _).discard.bind fun _ => (check _).bind fun _ => branch ?_ ?_
  · exact group.bind ending
  · exact bound.map.bind ending

theorem pagination (r : Bool) : StaysIn text (Walk.pagination r) := by
  refine (check _).bind fun _ => branch (limitClause r) ?_
  refine (checkAny _).bind fun _ => branch ?_ pure
  exact cursor.bind fun _ => branch (offsetFetchClause r) pure

/-! ## Around tables and conditions -/

theorem alias? : StaysIn text Walk.alias? := by
  refine (eat _).bind fun _ => branch (identifier.bind fun _ => pure) ?_
  refine kind.bind fun _ => branch ?_ pure
  exact atLock.bind fun _ => branch pure (identifier.bind fun _ => pure)

theorem tableHints : StaysIn text Walk.tableHints := by
  have toList : StaysIn text Walk.skipToList := by
    refine repeatWhile ((check _).bind fun _ => branch pure (isAtEnd.bind fun _ => branch failExpected ?_))
    exact advance.discard.bind fun _ => pure
  refine repeatWhile ((eatAny _).bind fun _ => branch ?_ ((check _).bind fun _ => branch ?_ pure))
  · exact (expectAny _ _).discard.bind fun _ => toList.bind fun _ => skipParentheses.bind fun _ => pure
  · refine peek.bind fun _ => branch ?_ pure
    exact advance.discard.bind fun _ => skipParentheses.bind fun _ => pure

theorem atConditionEnd : StaysIn text Walk.atConditionEnd :=
  kind.bind fun _ => branch pure (atJoin.bind fun _ => branch pure atLock)

theorem equality? (x : Column) : StaysIn text (Walk.equality? x) := value?.bind fun _ => pure

theorem between? (x : Column) : StaysIn text (Walk.between? x) := by
  refine value?.bind fun lower => ?_
  cases lower with
  | none => exact pure
  | some _ => exact (eat _).bind fun _ => branch (value?.bind fun _ => pure) pure

theorem lockingClause : StaysIn text Walk.lockingClause := by
  have rest {isLocking : Bool} : StaysIn text (do
      if isLocking then
        Walk.repeatWhile do
          if (← Walk.kind).endsEverything then return false
          else
            Functor.discard Walk.advance
            return true) :=
    branch (repeatWhile (kind.bind fun _ => branch pure (advance.discard.bind fun _ => pure))) pure
  exact (check _).bind fun _ => branch (pure.bind fun _ => rest) (atLock.bind fun _ => rest)

end Walk.StaysIn

/-- With the given depth left, the walks that contain one another stay in the text. -/
structure Walk.NestedIn (text : List Char) (depth : Nat) : Prop where
  expression : ∀ ends, StaysIn text (expressionWithin depth ends)
  group : StaysIn text (groupWithin depth)
  cases : StaysIn text (caseWithin depth)
  membership : ∀ x, StaysIn text (membershipWithin depth x)
  condition : StaysIn text (conditionWithin depth)
  conditions : StaysIn text (conditionsWithin depth)
  tableFactor : StaysIn text (tableFactorWithin depth)
  tableReferences : StaysIn text (tableReferencesWithin depth)
  select : ∀ r, StaysIn text (selectWithin depth r)
  query : ∀ r, StaysIn text (queryWithin depth r)

namespace Walk.StaysIn

/-! ## The nested readers -/

section nested

variable {depth : Nat} (nested : NestedIn text depth)

include nested

theorem expressionWithin (ends : TokenKind → Bool) : StaysIn text (Walk.expressionWithin (depth + 1) ends) := by
  rw [Walk.expressionWithin]
  refine repeatWhile (kind.bind fun k => branch pure ?_)
  refine atJoin.bind fun _ => branch pure (atLock.bind fun _ => branch pure ?_)
  refine branch (nested.group.bind fun _ => pure) (branch (nested.cases.bind fun _ => pure) (branch ?_ ?_))
  · exact column.discard.bind fun _ => pure
  · exact advance.discard.bind fun _ => pure

theorem groupWithin : StaysIn text (Walk.groupWithin (depth + 1)) := by
  rw [Walk.groupWithin]
  refine (expect _).discard.bind fun _ => (check _).bind fun _ => branch ?_ ?_
  · exact (nested.query false).bind fun _ => (expect _).discard
  · refine bind (repeatWhile ?_) fun _ => (expect _).discard
    refine (nested.expression _).bind fun _ => atJoin.bind fun _ => branch ?_ pure
    exact advance.discard.bind fun _ => pure

/-- A `CASE` without its `END` is reported where it begins. -/
theorem caseWithin : StaysIn text (Walk.caseWithin (depth + 1)) := by
  rw [Walk.caseWithin]
  refine Finds.advance.bind fun _ opening => repeatWhile ?_
  refine (nested.expression _).bind fun _ => kind.bind fun _ => branch ?_ (branch (failAt opening _) ?_)
  · exact advance.discard.bind fun _ => pure
  · exact advance.discard.bind fun _ => pure

theorem membershipWithin (x : Column) : StaysIn text (Walk.membershipWithin (depth + 1) x) := by
  rw [Walk.membershipWithin]
  refine (check _).bind fun _ => branch pure (peek.bind fun _ => branch (nested.group.bind fun _ => pure) ?_)
  refine advance.discard.bind fun _ => bind (repeatFrom fun _ => ?_) fun _ => (expect _).discard.bind fun _ => pure
  refine value?.bind fun _ => (checkAny _).bind fun _ => perhaps (nested.expression _) ?_
  exact (eat _).bind fun _ => pure

theorem conditionWithin : StaysIn text (Walk.conditionWithin (depth + 1)) := by
  rw [Walk.conditionWithin]
  refine kind.bind fun _ => branch ?_ (branch ?_ (branch ?_ (nested.expression _)))
  · exact statement.bind fun _ => advance.discard.bind fun _ => nested.condition.bind fun _ => record
  · refine peek.bind fun _ => branch (nested.group.bind fun _ => nested.expression _) ?_
    refine advance.discard.bind fun _ => nested.conditions.bind fun _ => ?_
    exact (expect _).discard.bind fun _ => nested.expression _
  · refine column.bind fun x => ?_
    cases x with
    | none => exact nested.expression _
    | some x =>
      have recorded (condition? : Option Condition) : StaysIn text (Walk.conditionEnd depth condition?) := by
        cases condition? with
        | none => exact nested.expression _
        | some _ => exact atConditionEnd.bind fun _ => perhaps record (nested.expression _)
      refine (eatAny _).bind fun _ => branch ((equality? x).bind recorded) ?_
      refine (eat _).bind fun _ => branch ((nested.membership x).bind recorded) ?_
      exact (eat _).bind fun _ => branch ((between? x).bind recorded) (recorded none)

theorem conditionsWithin : StaysIn text (Walk.conditionsWithin (depth + 1)) := by
  rw [Walk.conditionsWithin]
  refine repeatWhile (nested.condition.bind fun _ => (eat _).bind fun _ => branch pure ?_)
  exact (eat _).bind fun _ => branch (record.bind fun _ => pure) pure

theorem tableFactorWithin : StaysIn text (Walk.tableFactorWithin (depth + 1)) := by
  rw [Walk.tableFactorWithin]
  refine (check _).bind fun _ => branch (peek.bind fun _ => branch ?_ ?_) ?_
  · exact nested.group.bind fun _ => alias?.discard
  · exact advance.discard.bind fun _ => nested.tableReferences.bind fun _ => (expect _).discard
  · exact qualifiedName.bind fun _ => alias?.bind fun _ => record.bind fun _ => tableHints

theorem tableReferencesWithin : StaysIn text (Walk.tableReferencesWithin (depth + 1)) := by
  rw [Walk.tableReferencesWithin]
  refine nested.tableFactor.bind fun _ => repeatWhile ((eat _).bind fun _ => branch ?_ ?_)
  · exact nested.tableFactor.bind fun _ => pure
  · refine atJoin.bind fun _ => branch ((skipAll _).bind fun _ => nested.tableFactor.bind fun _ => ?_) pure
    refine (eat _).bind fun _ => branch ((nested.expression _).bind fun _ => pure) ?_
    exact (eat _).bind fun _ => perhaps skipParentheses pure

theorem selectWithin (r : Bool) : StaysIn text (Walk.selectWithin (depth + 1) r) := by
  rw [Walk.selectWithin]
  refine (expect _).discard.bind fun _ => (skipAll _).bind fun _ => (check _).bind fun _ => perhaps (topClause r) ?_
  refine (nested.expression _).bind fun _ => (eat _).bind fun _ => perhaps nested.tableReferences ?_
  refine (eat _).bind fun _ => perhaps nested.conditions ((eat _).bind fun _ => ?_)
  have having : StaysIn text (do
      if ← Walk.eat (.keyword .having) then Walk.expressionWithin depth TokenKind.endsClause) :=
    (eat _).bind fun _ => branch (nested.expression _) pure
  exact branch ((expect _).discard.bind fun _ => (nested.expression _).bind fun _ => having) having

theorem queryWithin (r : Bool) : StaysIn text (Walk.queryWithin (depth + 1) r) := by
  rw [Walk.queryWithin]
  have ending : StaysIn text (do
      Walk.pagination r
      Walk.lockingClause) :=
    (pagination r).bind fun _ => lockingClause
  have rest : StaysIn text (do
      if ← Walk.eatAny [.keyword .union, .keyword .except, .keyword .intersect] then
        Functor.discard (Walk.eatAny [.keyword .all, .keyword .distinct])
        Walk.queryWithin depth false
      else
        if ← Walk.eat (.keyword .order) then
          Functor.discard (Walk.expect (.keyword .by))
          Walk.expressionWithin depth TokenKind.endsClause
        Walk.pagination r
        Walk.lockingClause) := by
    refine (eatAny _).bind fun _ => branch ((eatAny _).discard.bind fun _ => nested.query false) ?_
    refine (eat _).bind fun _ => branch ((expect _).discard.bind fun _ => ?_) ending
    exact (nested.expression _).bind fun _ => ending
  refine (eat _).bind fun _ => branch ?_ ((nested.select r).bind fun _ => rest)
  exact (nested.query r).bind fun _ => (expect _).discard.bind fun _ => rest

end nested

theorem nestedIn (text : List Char) : ∀ depth, NestedIn text depth
  | 0 => by
    constructor
    all_goals intros; exact failTooDeep
  | depth + 1 =>
    have nested := nestedIn text depth
    ⟨expressionWithin nested, groupWithin nested, caseWithin nested, membershipWithin nested, conditionWithin nested,
      conditionsWithin nested, tableFactorWithin nested, tableReferencesWithin nested, selectWithin nested, queryWithin nested⟩

/-! ## The readers at full depth -/

theorem atDepth {m : Nat → Walk Unit} (each : ∀ depth, StaysIn text (m depth)) :
    StaysIn text (do m (← Walk.depth)) := by
  have depth : StaysIn text Walk.depth := cursor.bind fun _ => pure
  exact depth.bind each

theorem expression (ends : TokenKind → Bool) : StaysIn text (Walk.expression ends) :=
  atDepth fun depth => (nestedIn text depth).expression ends

theorem tableReferences : StaysIn text Walk.tableReferences := atDepth fun depth => (nestedIn text depth).tableReferences

theorem query (r : Bool) : StaysIn text (Walk.query r) := atDepth fun depth => (nestedIn text depth).query r

theorem whereClause : StaysIn text Walk.whereClause :=
  (eat _).bind fun _ => branch (atDepth fun depth => (nestedIn text depth).conditions) pure

/-! ## Statements that change rows -/

theorem namedColumn : StaysIn text Walk.namedColumn := by
  refine column.bind fun x => ?_
  cases x with
  | some _ => exact pure
  | none => exact failExpected

theorem assignments (areConditions : Bool) : StaysIn text (Walk.assignments areConditions) := by
  have assigned (x : Column) : StaysIn text (Walk.assignedValue x) := by
    refine value?.bind fun v => ?_
    cases v with
    | none => exact pure
    | some _ => exact kind.bind fun _ => branch record pure
  refine repeatWhile (namedColumn.bind fun x => (expect _).discard.bind fun _ => perhaps (assigned x) ?_)
  exact (expression _).bind fun _ => eat _

theorem insertColumns : StaysIn text Walk.insertColumns := by
  refine (check _).bind fun _ => branch pure (peek.bind fun _ => branch pure ?_)
  refine advance.discard.bind fun _ => bind (repeatWhile ?_) fun _ => ?_
  · exact namedColumn.bind fun _ => record.bind fun _ => eat _
  · exact cursor.bind fun _ => (expect _).discard.bind fun _ => pure

theorem valuesRow : StaysIn text Walk.valuesRow := by
  have values : StaysIn text Walk.rowValues := by
    refine repeatFrom fun _ => value?.bind fun _ => (checkAny _).bind fun _ => perhaps (expression _) ?_
    exact (eat _).bind fun _ => pure
  refine (expect _).discard.bind fun _ => values.bind fun _ => cursor.bind fun _ => ?_
  exact (expect _).discard.bind fun _ => pure

theorem valuesRows (columnsEnd? : Option Nat) : StaysIn text (Walk.valuesRows columnsEnd?) := by
  refine bind (repeatFrom fun _ => ?_) fun first? => statement.bind fun _ => branch ?_ pure
  · exact valuesRow.bind fun _ => record.bind fun _ => (eat _).bind fun _ => pure
  · cases first? with
    | none => exact pure
    | some row =>
      refine record.bind fun _ => ?_
      cases columnsEnd? with
      | none => exact pure
      | some _ => exact record

theorem insertSource (columnsEnd? : Option Nat) : StaysIn text (Walk.insertSource columnsEnd?) := by
  refine (eatAny _).bind fun _ => branch (valuesRows columnsEnd?) ?_
  refine (eat _).bind fun _ => branch ((assignments true).bind fun _ => record) ?_
  refine (eat _).bind fun _ => branch ((expect _).discard.bind fun _ => record) ?_
  exact (checkAny _).bind fun _ => branch (query false) failExpected

theorem insertStatement : StaysIn text Walk.insertStatement := by
  refine (expectAny _ _).discard.bind fun _ => (skipAll _).bind fun _ => (eat _).discard.bind fun _ => ?_
  refine tableName.discard.bind fun _ => insertColumns.bind fun columnsEnd? => (eat _).bind fun _ => ?_
  refine perhaps (expression _) ((insertSource columnsEnd?).bind fun _ => (eat _).bind fun _ => branch ?_ pure)
  refine (expect _).discard.bind fun _ => (expect _).discard.bind fun _ => ?_
  exact (expect _).discard.bind fun _ => assignments false

theorem orderAndLimit : StaysIn text Walk.orderAndLimit := by
  have limited : StaysIn text (do if ← Walk.check (.keyword .limit) then Walk.limitClause true) :=
    (check _).bind fun _ => branch (limitClause true) pure
  refine (eat _).bind fun _ => branch ((expect _).discard.bind fun _ => ?_) limited
  exact (expression _).bind fun _ => limited

theorem updateStatement : StaysIn text Walk.updateStatement := by
  refine (expect _).discard.bind fun _ => (skipAll _).bind fun _ => (check _).bind fun _ => perhaps (topClause false) ?_
  refine tableReferences.bind fun _ => bind ((expect _).discard.bind fun _ => assignments false) fun _ => ?_
  refine (eat _).bind fun _ => perhaps (expression _) ((eat _).bind fun _ => perhaps tableReferences ?_)
  exact whereClause.bind fun _ => orderAndLimit

theorem deleteTargets : StaysIn text Walk.deleteTargets := by
  refine qualifiedName.bind fun _ => repeatFrom fun _ => (eat _).bind fun _ => branch ?_ pure
  exact qualifiedName.bind fun _ => pure

theorem deleteStatement : StaysIn text Walk.deleteStatement := by
  have ending : StaysIn text Walk.deleteEnd := by
    refine (eat _).bind fun _ => perhaps (expression _) ((eat _).bind fun _ => perhaps tableReferences ?_)
    exact whereClause.bind fun _ => orderAndLimit
  have sources : StaysIn text Walk.deleteSources := by
    refine (eat _).bind fun _ => branch (tableReferences.bind fun _ => ending) ?_
    refine deleteTargets.bind fun _ => (eat _).bind fun _ => perhaps tableReferences ?_
    exact record.bind fun _ => ending
  refine (expect _).discard.bind fun _ => (skipAll _).bind fun _ => (check _).bind fun _ => ?_
  exact branch ((topClause false).bind fun _ => sources) sources

/-! ## Statements that change the schema -/

theorem atStatementEnd : StaysIn text Walk.atStatementEnd := isAtEnd.bind fun _ => branch pure (check _)

theorem skipRest : StaysIn text Walk.skipRest :=
  repeatWhile (atStatementEnd.bind fun _ => branch pure (advance.discard.bind fun _ => pure))

theorem definitionStatement : StaysIn text Walk.definitionStatement := by
  have create : StaysIn text Walk.createTable := by
    refine cursor.bind fun _ => (expect _).discard.bind fun _ => (skipAll _).bind fun _ => ?_
    refine (expect _).discard.bind fun _ => (skipAll _).bind fun _ => ?_
    exact tableName.discard.bind fun _ => skipRest
  have drop : StaysIn text Walk.dropTable := by
    refine (expect _).discard.bind fun _ => (eat _).discard.bind fun _ => (expect _).discard.bind fun _ => ?_
    refine (eat _).bind fun _ => perhaps (expect _).discard (tableName.discard.bind fun _ => bind (repeatWhile ?_) fun _ => skipRest)
    exact (eat _).bind fun _ => branch (tableName.discard.bind fun _ => pure) pure
  have truncate : StaysIn text Walk.truncateTable := by
    refine (expect _).discard.bind fun _ => (eat _).discard.bind fun _ => ?_
    exact tableName.discard.bind fun _ => skipRest
  have alter : StaysIn text Walk.alterTable := by
    refine (expect _).discard.bind fun _ => (expect _).discard.bind fun _ => tableName.discard.bind fun _ => ?_
    refine repeatWhile (atStatementEnd.bind fun _ => branch pure ((eat _).bind fun _ => branch ?_ ?_))
    · exact tableName.discard.bind fun _ => pure
    · exact advance.discard.bind fun _ => pure
  refine (check _).bind fun _ => branch create ((check _).bind fun _ => branch drop ?_)
  exact (check _).bind fun _ => branch truncate alter

/-! ## Whole statements -/

theorem wholeStatement (kind : StatementKind) : StaysIn text (Walk.wholeStatement kind) := by
  have body : StaysIn text (Walk.statementOf kind) := by
    cases kind with
    | select => exact query true
    | insert => exact insertStatement
    | update => exact updateStatement
    | delete => exact deleteStatement
    | definition => exact definitionStatement
  exact body.bind fun _ => (eat _).discard.bind fun _ => isAtEnd.bind fun _ => branch failExpected pure

end Walk.StaysIn

/-! ## Errors of a text -/

theorem Cursor.ofText_isIn (d : Dialect) (sql : String) : match Cursor.ofText d sql with
    | .ok c => c.current.place.IsIn sql.toList ∧ c.ahead.IsIn sql.toList
    | .error e => e.place.IsIn sql.toList := by
  have isIn := TokenStream.ofText_isIn d sql
  rw [Cursor.ofText]
  cases found : TokenStream.ofText d sql with
  | token t rest =>
    rw [found] at isIn
    exact isIn
  | fault e rest =>
    rw [found] at isIn
    exact isIn.1
  | stuck e =>
    rw [found] at isIn
    exact isIn
  | finished p =>
    rw [found] at isIn
    exact ⟨isIn, isIn⟩

/-- A text that is no statement has the error in its place. -/
theorem standsAt_of_parse {sql : String} {e : SyntaxError} (failed : parse d sql = .error e) :
    StandsAt sql.toList e.span.start e.line e.column := by
  suffices e.place.IsIn sql.toList from this.standsAt
  have first := Cursor.ofText_isIn d sql
  rw [parse] at failed
  cases begins : Cursor.ofText d sql with
  | error e' =>
    rw [begins] at failed first
    cases failed
    exact first
  | ok c =>
    rw [begins] at failed first
    dsimp only [Bind.bind, Except.bind] at failed
    cases kind : StatementKind.ofFirst? c.kind with
    | none =>
      rw [kind] at failed
      cases failed
      exact first.1
    | some kind' =>
      rw [kind] at failed
      dsimp only [EStateM.run] at failed
      have ends : Walk.StaysIn sql.toList (Walk.wholeStatement kind') := .wholeStatement kind'
      cases run : Walk.wholeStatement kind' ⟨c, .ofKind kind'⟩ with
      | ok =>
        rw [run] at failed
        cases failed
      | error e' t =>
        rw [run] at failed
        cases failed
        exact Ends.failure ends (s := ⟨c, .ofKind kind'⟩) first run

/-- In a text of fewer than `2 ^ 32 - 1` characters the lines and columns of tokens and errors fit 32 bits. -/
theorem places_fit (d : Dialect) (sql : String) (short : sql.toList.length + 1 < 2 ^ 32) :
    (∀ us, tokenize d sql = .ok us → ∀ t ∈ us, t.line < 2 ^ 32 ∧ t.column < 2 ^ 32) ∧
      (∀ e, tokenize d sql = .error e → e.line < 2 ^ 32 ∧ e.column < 2 ^ 32) ∧
        ∀ e, parse d sql = .error e → e.line < 2 ^ 32 ∧ e.column < 2 ^ 32 := by
  have fits {offset line column : Nat} (stands : StandsAt sql.toList offset line column) : line < 2 ^ 32 ∧ column < 2 ^ 32 :=
    ⟨Nat.lt_of_le_of_lt stands.le_length.1 short, Nat.lt_of_le_of_lt stands.le_length.2 short⟩
  exact ⟨fun us tokens t member => fits ((tiled_of_tokenize tokens).places t member),
    fun e failed => fits (standsAt_of_tokenize failed), fun e failed => fits (standsAt_of_parse failed)⟩

/-- The tokens of a text tile it and name their places, and so does every error, of the tokenizer as of the parser. -/
theorem tiled_with_places (d : Dialect) (sql : String) :
    (∀ us, tokenize d sql = .ok us → Tiled d sql.toList us) ∧
      (∀ e, tokenize d sql = .error e → StandsAt sql.toList e.span.start e.line e.column) ∧
        ∀ e, parse d sql = .error e → StandsAt sql.toList e.span.start e.line e.column :=
  ⟨fun _ tokens => tiled_of_tokenize tokens, fun _ failed => standsAt_of_tokenize failed, fun _ failed => standsAt_of_parse failed⟩

/-- A comment in a comment and a letter of two bytes, a string without its end, and a table without its name. -/
theorem tiled_with_places_comments :
    (∃ us, tokenize .mysql "-- é\nSELECT /* a /* é */ */ 'é'" = .ok us ∧ us.length = 3 ∧
      Tiled .mysql "-- é\nSELECT /* a /* é */ */ 'é'".toList us) ∧
      (∃ e, tokenize .mysql "SELECT\n 'é" = .error e ∧ (e.span.start, e.line, e.column) = (8, 2, 2) ∧
        StandsAt "SELECT\n 'é".toList e.span.start e.line e.column) ∧
        ∃ e, parse .mysql "DELETE FROM\n /* é */ 1" = .error e ∧ (e.span.start, e.line, e.column) = (22, 2, 10) ∧
          StandsAt "DELETE FROM\n /* é */ 1".toList e.span.start e.line e.column := by
  have comments : ∃ us, tokenize .mysql "-- é\nSELECT /* a /* é */ */ 'é'" = .ok us ∧ us.length = 3 := ⟨_, by cbv, by cbv⟩
  have unterminated : ∃ e, tokenize .mysql "SELECT\n 'é" = .error e ∧ (e.span.start, e.line, e.column) = (8, 2, 2) :=
    ⟨_, by cbv, by cbv⟩
  have nameless : parse .mysql "DELETE FROM\n /* é */ 1" = .error ⟨.expected .identifier (.integer 1), ⟨22, 23⟩, 2, 10⟩ := by
    decide +kernel
  obtain ⟨us, tokens, length⟩ := comments
  obtain ⟨e, failed, at8⟩ := unterminated
  refine ⟨⟨us, tokens, length, ?_⟩, ⟨e, failed, at8, ?_⟩, ⟨_, nameless, rfl, ?_⟩⟩
  · exact (tiled_with_places _ _).1 us tokens
  · exact (tiled_with_places _ _).2.1 e failed
  · exact (tiled_with_places _ _).2.2 _ nameless

end SqlSharding.Sql
