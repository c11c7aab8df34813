import SqlSharding.Proofs.Credits

/-!
# Bounded reading

Reading a text makes progress: each round of a loop that goes on passes a token, and so does each cycle of calls among the
readers that contain one another. So the steps are bounded by the tokens, and reading ends with a statement or with an error
that is in the text.
-/

namespace SqlSharding.Sql.Metered.Pays

variable {depth rank : Nat} {calls : List OpenCall} {s : WalkState}

/-! ## Runs of tokens -/

theorem skipAll {ks : List TokenKind} (inside : ks.any TokenKind.endOfInput.sameShape = false) :
    Pays depth calls 0 (skipAll ks) s 3 fun _ => 0 :=
  repeatWhile fun _ => (step (.eatAny inside)).weaken rfl (by decide)

theorem closeParentheses {n : Nat} {atEnd : Walk Unit} (fails : ∀ t, atEnd.Passes (fun _ => 0) t) :
    Pays depth calls 0 (closeParentheses n atEnd) s 5 fun _ => 0 := by
  refine discard (repeatFrom fun _ t => look rfl rfl (branch (fun _ => ?_) fun inside => look rfl rfl ?_))
  · exact (step (fails t)).bind rfl fun _ _ => pure rfl
  · exact (step (.advance (Bool.eq_false_iff.mpr inside))).discard.bind rfl fun _ _ => endRound rfl rfl

theorem skipParentheses : Pays depth calls 0 skipParentheses s 7 fun _ => 0 := by
  refine look rfl rfl (branch (fun _ => look rfl rfl ?_) fun _ => pure rfl)
  exact closeParentheses fun t genuine => SyntaxCause.noConfusion

theorem column : Pays depth calls 0 column s 1 fun _ => 30 := by
  have parts (first : Identifier) (t : WalkState) : Pays depth calls 0 (nameParts first) t 3 fun _ => 0 := by
    refine repeatFrom fun _ t => eat rfl rfl (fun t => look rfl rfl ?_) (pure rfl)
    refine branch (fun _ => ?_) fun _ => branch (fun _ => ?_) fun _ => failExpected rfl
    · exact (step .identifier).bind rfl fun _ _ => pure rfl
    · exact (step .step).discard.bind rfl fun _ _ => pure rfl
  have ending (name : List Identifier × Bool) {t : WalkState} : (columnEnd name).Passes (fun _ => 0) t := by
    fun_cases columnEnd name with
    | case1 | case5 => exact Walk.Passes.record.bind fun _ _ => .pure rfl
    | case2 | case3 | case4 => exact .pure rfl
  refine (step .identifier).bind rfl fun first t => (parts first t).bind rfl fun name u => ?_
  exact (step (ending name)).leaving rfl rfl

theorem topClauseIfAny (isRecorded : Bool) : Pays depth calls 0 (topClauseIfAny isRecorded) s 2 fun _ => 0 := by
  have group (t : WalkState) : Pays depth calls 0 topGroup t 10 fun _ => 0 := by
    refine peek rfl fun _ => branch (fun _ => ?_) fun _ => ?_
    · refine (step .step).discard.bind rfl fun _ _ => (step .bound).bind rfl fun _ _ => ?_
      refine eat rfl rfl (fun _ => pure rfl) ?_
      exact (closeParentheses fun _ => .failExpected).bind rfl fun _ _ => pure rfl
    · exact skipParentheses.bind rfl fun _ _ => pure rfl
  refine look rfl rfl (branch (fun _ => ?_) fun _ => pure rfl)
  refine (step (.expect rfl)).discard.bind rfl fun _ t => look rfl rfl (branch (fun _ => ?_) fun _ => ?_)
  · exact (group t).bind rfl fun rowCount _ => (step (.topEnd isRecorded rowCount)).leaving rfl rfl
  · exact (step .bound).bind rfl fun b _ => (step (.topEnd isRecorded (some b))).leaving rfl rfl

theorem tableHints : Pays depth calls 0 tableHints s 6 fun _ => 0 := by
  have toList (t : WalkState) : Pays depth calls 0 skipToList t 5 fun _ => 0 := by
    refine repeatWhile fun t => look rfl rfl (branch (fun _ => pure rfl) fun _ => look rfl rfl ?_)
    refine branch (fun _ => failExpected rfl) fun inside => ?_
    exact (step (.advance (Bool.eq_false_iff.mpr inside))).discard.bind rfl fun _ _ => pure rfl
  refine repeatWhile fun t => eatAny rfl rfl (fun t => ?_) (look rfl rfl (branch (fun found => ?_) fun _ => pure rfl))
  · refine (step (.expectAny rfl)).discard.bind rfl fun _ t => (toList t).bind rfl fun _ _ => ?_
    exact skipParentheses.bind rfl fun _ _ => pure rfl
  · refine peek rfl fun _ => branch (fun _ => ?_) fun _ => pure rfl
    refine (step (.advance (Walk.Passes.isAtEnd_of_check rfl found))).discard.bind rfl fun _ _ => ?_
    exact skipParentheses.bind rfl fun _ _ => pure rfl

theorem isAtEnd_of_endsEverything (inside : ¬ s.cursor.kind.endsEverything = true) : s.cursor.isAtEnd = false :=
  decide_eq_false fun atEnd => inside (by rw [show s.cursor.kind = .endOfInput from atEnd]; rfl)

theorem isAtEnd_of_atJoin (found : Walk.atJoin s = .ok true s) : s.cursor.isAtEnd = false := by
  obtain ⟨w, isKeyword⟩ := (Walk.atJoin_stays found).2 rfl
  refine decide_eq_false fun atEnd => ?_
  rw [show s.cursor.kind = .endOfInput from atEnd] at isKeyword
  cases isKeyword

theorem lockingClause : Pays depth calls 0 lockingClause s 6 fun _ => 0 := by
  have words (t : WalkState) : Pays depth calls 0 lockingWords t 4 fun _ => 0 := by
    refine repeatWhile fun t => look rfl rfl (branch (fun _ => pure rfl) fun inside => ?_)
    exact (step (.advance (isAtEnd_of_endsEverything inside))).discard.bind rfl fun _ _ => pure rfl
  refine look rfl rfl (branch (fun _ => (words s).leaving rfl rfl) fun _ => ?_)
  exact (step .atLock).bind rfl fun _ t => branch (fun _ => words t) fun _ => pure rfl

end SqlSharding.Sql.Metered.Pays

namespace SqlSharding.Sql.Metered

/-- With the given depth left, the readers that contain one another get by with some credit each, and leave some. -/
structure Affordable (depth : Nat) : Prop where
  expression : ∀ calls ends s, Pays depth calls (Reader.rank .expression + 1) (expressionWithin depth ends) s 8 fun _ => 0
  group : ∀ calls s, Pays depth calls (Reader.rank .group + 1) (groupWithin depth) s 2 fun _ => 25
  cases : ∀ calls s, s.cursor.isAtEnd = false →
    Pays depth calls (Reader.rank .cases + 1) (caseWithin depth) s 2 fun _ => 25
  membership : ∀ calls x s, Pays depth calls (Reader.rank .membership + 1) (membershipWithin depth x) s 5 fun _ => 0
  condition : ∀ calls s, Pays depth calls (Reader.rank .condition + 1) (conditionWithin depth) s 10 fun _ => 0
  conditions : ∀ calls s, Pays depth calls (Reader.rank .conditions + 1) (conditionsWithin depth) s 16 fun _ => 0
  tableFactor : ∀ calls s, Pays depth calls (Reader.rank .tableFactor + 1) (tableFactorWithin depth) s 5 fun _ => 20
  tableReferences : ∀ calls s,
    Pays depth calls (Reader.rank .tableReferences + 1) (tableReferencesWithin depth) s 6 fun _ => 5
  select : ∀ calls r s, Pays depth calls (Reader.rank .select + 1) (selectWithin depth r) s 2 fun _ => 15
  query : ∀ calls r s, Pays depth calls (Reader.rank .query + 1) (queryWithin depth r) s 4 fun _ => 5

namespace Pays

variable {depth : Nat} {calls : List OpenCall} {s : WalkState}

section nested

variable (nested : Affordable depth)

include nested

/-- Each token at which an expression does not stop is passed, alone or as the beginning of a part. -/
theorem expressionWithin (ends : TokenKind → Bool) :
    Pays (depth + 1) calls (Reader.rank .expression + 1) (expressionWithin (depth + 1) ends) s 8 fun _ => 0 := by
  rw [Metered.expressionWithin]
  refine call (repeatWhile fun t => look rfl rfl (branch (fun _ => pure rfl) fun goesOn => ?_))
  refine atJoin rfl fun _ _ => branch (fun _ => pure rfl) fun _ => ?_
  refine sees .atLock (fun _ _ run => Walk.Passes.atLock_stays run) rfl fun _ _ => branch (fun _ => pure rfl) fun _ => ?_
  have inside : t.cursor.isAtEnd = false := isAtEnd_of_endsEverything fun ends => goesOn (by rw [ends]; rfl)
  refine branch (fun _ => ?_) fun _ => branch (fun _ => ?_) fun _ => branch (fun _ => ?_) fun _ => ?_
  · exact (nested.group _ t).bind rfl fun _ _ => pure rfl
  · exact (nested.cases _ t inside).bind rfl fun _ _ => pure rfl
  · exact column.discard.bind rfl fun _ _ => pure rfl
  · exact (step (.advance inside)).discard.bind rfl fun _ _ => pure rfl

/-- A group passes its parentheses. The loop in it goes on after a join word only. -/
theorem groupWithin :
    Pays (depth + 1) calls (Reader.rank .group + 1) (groupWithin (depth + 1)) s 2 fun _ => 25 := by
  have items {calls : List OpenCall} (t : WalkState) : Pays depth calls (Reader.rank .expression + 1)
      (groupItems (Metered.expressionWithin depth TokenKind.endsNothing)) t 12 fun _ => 0 := by
    refine repeatWhile fun t => (nested.expression _ _ t).bind rfl fun _ t => ?_
    refine atJoin rfl fun _ run => branch (fun found => ?_) fun _ => pure rfl
    exact (step (.advance (isAtEnd_of_atJoin (found ▸ run)))).discard.bind rfl fun _ _ => pure rfl
  rw [Metered.groupWithin]
  refine call ((step (.expect rfl)).discard.bind rfl fun _ t => look rfl rfl (branch (fun _ => ?_) fun _ => ?_))
  · exact (nested.query _ false t).bind rfl fun _ _ => (step (.expect rfl)).discard.leaving rfl rfl
  · exact (items t).bind rfl fun _ _ => (step (.expect rfl)).discard.leaving rfl rfl

/-- At a token that ends everything there is no end of the `CASE` expression, so the loop fails. -/
theorem caseWithin (inside : s.cursor.isAtEnd = false) :
    Pays (depth + 1) calls (Reader.rank .cases + 1) (caseWithin (depth + 1)) s 2 fun _ => 25 := by
  have parts {calls : List OpenCall} (opening : Token) (t : WalkState) : Pays depth calls (Reader.rank .expression + 1)
      (caseParts opening (Metered.expressionWithin depth TokenKind.isEndKeyword)) t 12 fun _ => 0 := by
    refine repeatWhile fun t => (nested.expression _ _ t).bind rfl fun _ t => look rfl rfl (branch (fun _ => ?_) fun _ => ?_)
    · exact (step .step).discard.bind rfl fun _ _ => pure rfl
    · refine branch (fun _ => fails (fun _ => SyntaxCause.noConfusion) Walk.failAt_fails rfl) fun inside => ?_
      exact (step (.advance (isAtEnd_of_endsEverything inside))).discard.bind rfl fun _ _ => pure rfl
  rw [Metered.caseWithin]
  exact call ((step (.advance inside)).bind rfl fun opening t => (parts opening t).leaving rfl rfl)

theorem membershipWithin (x : Column) :
    Pays (depth + 1) calls (Reader.rank .membership + 1) (membershipWithin (depth + 1) x) s 5 fun _ => 0 := by
  have items {calls : List OpenCall} (t : WalkState) : Pays depth calls (Reader.rank .expression + 1)
      (listItems (Metered.expressionWithin depth TokenKind.isComma)) t 13 fun _ => 0 := by
    refine repeatFrom fun _ t => (step .value?).bind rfl fun _ t => look rfl rfl (perhaps (nested.expression _ _ t) rfl fun t => ?_)
    exact (step (.eat rfl)).bind rfl fun again _ => by cases again <;> exact pure rfl
  rw [Metered.membershipWithin]
  refine call (look rfl rfl (branch (fun _ => pure rfl) fun found => ?_))
  refine peek rfl fun _ => branch (fun _ => ?_) fun _ => ?_
  · exact (nested.group _ _).bind rfl fun _ _ => pure rfl
  · have inside : s.cursor.isAtEnd = false := Walk.Passes.isAtEnd_of_check rfl (by simpa using found)
    refine (step (.advance inside)).discard.bind rfl fun _ t => (items t).bind rfl fun _ _ => ?_
    exact (step (.expect rfl)).discard.bind rfl fun _ _ => pure rfl

/-- What follows the column of a condition is read after the column has been passed. -/
theorem comparison (x : Column) (t : WalkState) :
    Pays depth calls 4 (comparison (Metered.membershipWithin depth) (Metered.expressionWithin depth TokenKind.endsCondition) x)
      t 12 fun _ => 0 := by
  have rest (t : WalkState) := nested.expression calls TokenKind.endsCondition t
  have ended (condition? : Option Condition) (t : WalkState) : Pays depth calls (Reader.rank .expression + 1)
      (conditionEnd (Metered.expressionWithin depth TokenKind.endsCondition) condition?) t 10 fun _ => 0 := by
    cases condition? with
    | none => exact (rest t).leaving rfl rfl
    | some condition => exact (step .atConditionEnd).bind rfl fun _ t => perhaps (step .record) rfl fun t => (rest t).leaving rfl rfl
  refine eatAny rfl rfl (fun t => (step (.equality? x)).bind rfl fun c t => (ended c t).leaving rfl rfl) ?_
  refine eat rfl rfl (fun t => (nested.membership _ x t).bind rfl fun c t => (ended c t).leaving rfl rfl) ?_
  refine eat rfl rfl (fun t => (step (.between? x)).bind rfl fun c t => (ended c t).leaving rfl rfl) ?_
  exact (rest t).leaving rfl rfl

theorem conditionWithin :
    Pays (depth + 1) calls (Reader.rank .condition + 1) (conditionWithin (depth + 1)) s 10 fun _ => 0 := by
  have rest {calls : List OpenCall} (t : WalkState) := nested.expression calls TokenKind.endsCondition t
  rw [Metered.conditionWithin]
  refine call (look rfl rfl (branch (fun isNot => ?_) fun _ => branch (fun opens => ?_) fun _ => branch (fun _ => ?_) fun _ => ?_))
  · have inside : s.cursor.isAtEnd = false := decide_eq_false (isNot ▸ TokenKind.noConfusion)
    refine look rfl rfl ((step (.advance inside)).discard.bind rfl fun _ t => (nested.condition _ t).bind rfl fun _ t => ?_)
    exact (step .record).leaving rfl rfl
  · have inside : s.cursor.isAtEnd = false := decide_eq_false (opens ▸ TokenKind.noConfusion)
    refine peek rfl fun _ => branch (fun _ => ?_) fun _ => ?_
    · exact (nested.group _ s).bind rfl fun _ t => (rest t).leaving rfl rfl
    · refine (step (.advance inside)).discard.bind rfl fun _ t => (nested.conditions _ t).bind rfl fun _ t => ?_
      exact (step (.expect rfl)).discard.bind rfl fun _ t => (rest t).leaving rfl rfl
  · refine column.bind rfl fun x t => ?_
    cases x with
    | none => exact (rest t).leaving rfl rfl
    | some x => exact (comparison nested x t).leaving rfl rfl
  · exact (rest s).leaving rfl rfl

/-- The conditions go on after `AND` and `OR` only. -/
theorem conditionsWithin :
    Pays (depth + 1) calls (Reader.rank .conditions + 1) (conditionsWithin (depth + 1)) s 16 fun _ => 0 := by
  rw [Metered.conditionsWithin]
  refine call (repeatWhile fun t => (nested.condition _ t).bind rfl fun _ t => eat rfl rfl (fun _ => pure rfl) ?_)
  exact eat rfl rfl (fun _ => (step .record).bind rfl fun _ _ => pure rfl) (pure rfl)

theorem tableFactorWithin :
    Pays (depth + 1) calls (Reader.rank .tableFactor + 1) (tableFactorWithin (depth + 1)) s 5 fun _ => 20 := by
  rw [Metered.tableFactorWithin]
  refine call (look rfl rfl (branch (fun found => ?_) fun _ => ?_))
  · refine peek rfl fun _ => branch (fun _ => ?_) fun _ => ?_
    · exact (nested.group _ s).bind rfl fun _ _ => (step .alias?).discard.leaving rfl rfl
    · refine (step (.advance (Walk.Passes.isAtEnd_of_check rfl found))).discard.bind rfl fun _ t => ?_
      exact (nested.tableReferences _ t).bind rfl fun _ _ => (step (.expect rfl)).discard.leaving rfl rfl
  · refine (step .qualifiedName).bind rfl fun _ _ => (step .alias?).bind rfl fun _ _ => ?_
    exact (step .record).bind rfl fun _ _ => tableHints.leaving rfl rfl

/-- A table passes a token, so the tables after a comma or a join word do. -/
theorem tableReferencesWithin :
    Pays (depth + 1) calls (Reader.rank .tableReferences + 1) (tableReferencesWithin (depth + 1)) s 6 fun _ => 5 := by
  have joined {calls : List OpenCall} (t : WalkState) : Pays depth calls (Reader.rank .tableFactor + 1)
      (joinedTables (Metered.tableFactorWithin depth) (Metered.expressionWithin depth TokenKind.endsJoinCondition)) t 12
      fun _ => 0 := by
    refine repeatWhile fun t => eat rfl rfl (fun t => (nested.tableFactor _ t).bind rfl fun _ _ => pure rfl) ?_
    refine atJoin rfl fun _ _ => branch (fun _ => ?_) fun _ => pure rfl
    refine (skipAll rfl).bind rfl fun _ t => (nested.tableFactor _ t).bind rfl fun _ t => ?_
    refine eat rfl rfl (fun t => (nested.expression _ _ t).bind rfl fun _ _ => pure rfl) ?_
    exact eat rfl rfl (fun t => skipParentheses.bind rfl fun _ _ => pure rfl) (pure rfl)
  rw [Metered.tableReferencesWithin]
  exact call ((nested.tableFactor _ s).bind rfl fun _ t => (joined t).leaving rfl rfl)

theorem selectWithin (r : Bool) :
    Pays (depth + 1) calls (Reader.rank .select + 1) (selectWithin (depth + 1) r) s 2 fun _ => 15 := by
  have clause {calls : List OpenCall} (t : WalkState) := nested.expression calls TokenKind.endsClause t
  rw [Metered.selectWithin]
  refine call ((step (.expect rfl)).discard.bind rfl fun _ t => (skipAll rfl).bind rfl fun _ t => ?_)
  refine (topClauseIfAny r).bind rfl fun _ t => (clause t).bind rfl fun _ t => ?_
  refine bind (optional rfl fun t => (nested.tableReferences _ t).leaving rfl rfl) rfl fun _ t => ?_
  refine bind (optional rfl fun t => (nested.conditions _ t).leaving rfl rfl) rfl fun _ t => ?_
  refine bind (optional rfl fun t => ?_) rfl fun _ t => (optional rfl fun t => (clause t).leaving rfl rfl).leaving rfl rfl
  exact (step (.expect rfl)).discard.bind rfl fun _ t => (clause t).leaving rfl rfl

theorem queryWithin (r : Bool) :
    Pays (depth + 1) calls (Reader.rank .query + 1) (queryWithin (depth + 1) r) s 4 fun _ => 5 := by
  have clause {calls : List OpenCall} (t : WalkState) := nested.expression calls TokenKind.endsClause t
  have ending {calls : List OpenCall} (t : WalkState) : Pays depth calls 4
      (queryEnd (Metered.queryWithin depth) (Metered.expressionWithin depth TokenKind.endsClause) r) t 9 fun _ => 0 := by
    refine eatAny rfl rfl (fun t => ?_) ?_
    · exact bind (step (.anyhow (.eatAny rfl))).discard rfl fun _ t => (nested.query _ false t).leaving rfl rfl
    · refine bind (optional rfl fun t => ?_) rfl fun _ t => (step (.pagination r)).bind rfl fun _ t => lockingClause.leaving rfl rfl
      exact (step (.expect rfl)).discard.bind rfl fun _ t => (clause t).leaving rfl rfl
  rw [Metered.queryWithin]
  refine call (eat rfl rfl (fun t => ?_) ?_)
  · refine (nested.query _ r t).bind rfl fun _ t => (step (.expect rfl)).discard.bind rfl fun _ t => ?_
    exact (ending t).leaving rfl rfl
  · exact (nested.select _ r s).bind rfl fun _ t => (ending t).leaving rfl rfl

end nested

/-- With room for a call there is depth left. -/
theorem giveUp {α : Type} {rank credit : Nat} {rest : α → Nat} : Pays 0 calls (rank + 1) giveUp s credit rest :=
  fun _ room => absurd room.isDeep (by omega)

end Pays

theorem affordable : ∀ depth, Affordable depth
  | 0 => by constructor <;> intros <;> exact Pays.giveUp
  | depth + 1 =>
    have nested := affordable depth
    { expression := fun _ ends _ => Pays.expressionWithin nested ends
      group := fun _ _ => Pays.groupWithin nested
      cases := fun _ _ inside => Pays.caseWithin nested inside
      membership := fun _ x _ => Pays.membershipWithin nested x
      condition := fun _ _ => Pays.conditionWithin nested
      conditions := fun _ _ => Pays.conditionsWithin nested
      tableFactor := fun _ _ => Pays.tableFactorWithin nested
      tableReferences := fun _ _ => Pays.tableReferencesWithin nested
      select := fun _ r _ => Pays.selectWithin nested r
      query := fun _ r _ => Pays.queryWithin nested r }

namespace Pays

variable {depth : Nat} {s : WalkState}

/-! ## The readers at full depth -/

/-- The depth that the nested readers are given has room for all of them. -/
theorem atDepth {m : Nat → Metered Unit} {rank credit credit' : Nat} {rest : Unit → Nat}
    (pays : ∀ depth, Pays depth [] rank (m depth) s credit rest) (low : rank.ble 4 = true)
    (enough : (credit + 1).ble credit' = true) : Pays depth [] 0 (do m (← Walk.depth)) s credit' rest := by
  have := Nat.le_of_ble_eq_true low
  have atFull : Pays depth [] 0 (m (4 * s.left + 4)) s credit rest :=
    fun genuine _ => pays _ genuine (.outside (by omega))
  have := Nat.le_of_ble_eq_true enough
  exact look rfl (Nat.ble_eq_true_of_le (by omega)) (atFull.afford (by omega))

theorem expression (ends : TokenKind → Bool) : Pays depth [] 0 (expression ends) s 9 fun _ => 0 :=
  atDepth (fun depth => (affordable depth).expression [] ends s) rfl rfl

theorem tableReferences : Pays depth [] 0 tableReferences s 7 fun _ => 5 :=
  atDepth (fun depth => (affordable depth).tableReferences [] s) rfl rfl

theorem query (r : Bool) : Pays depth [] 0 (query r) s 5 fun _ => 5 :=
  atDepth (fun depth => (affordable depth).query [] r s) rfl rfl

theorem whereClause : Pays depth [] 0 whereClause s 1 fun _ => 0 := by
  have conditions (t : WalkState) : Pays depth [] 0 conditions t 17 fun _ => 0 :=
    atDepth (fun depth => (affordable depth).conditions [] t) rfl rfl
  exact optional rfl fun t => (conditions t).leaving rfl rfl

/-! ## Statements that change rows -/

theorem namedColumn : Pays depth [] 0 namedColumn s 1 fun _ => 28 := by
  refine column.bind rfl fun x t => ?_
  cases x with
  | some x => exact pure rfl
  | none => exact failExpected rfl

/-- Each assignment passes a column. -/
theorem assignments (areConditions : Bool) : Pays depth [] 0 (assignments areConditions) s 3 fun _ => 0 := by
  refine repeatWhile fun t => namedColumn.bind rfl fun x t => (step (.expect rfl)).discard.bind rfl fun _ t => ?_
  refine perhaps (step (.assignedValue x)) rfl fun t => (expression _).bind rfl fun _ t => ?_
  exact (step (.eat rfl)).weaken rfl (by decide)

theorem setClause : Pays depth [] 0 setClause s 1 fun _ => 30 :=
  (step (.expect rfl)).discard.bind rfl fun _ _ => (assignments false).leaving rfl rfl

theorem insertColumns : Pays depth [] 0 insertColumns s 8 fun _ => 0 := by
  refine look rfl rfl (branch (fun _ => pure rfl) fun _ => ?_)
  refine peek rfl fun _ => branch (fun _ => pure rfl) fun _ => ?_
  have names (t : WalkState) : Pays depth [] 0 columnNames t 3 fun _ => 0 := by
    refine repeatWhile fun t => namedColumn.bind rfl fun x t => (step .record).bind rfl fun _ t => ?_
    exact (step (.eat rfl)).weaken rfl (by decide)
  refine (step .step).discard.bind rfl fun _ t => (names t).bind rfl fun _ t => look rfl rfl ?_
  exact (step (.expect rfl)).discard.bind rfl fun _ t => pure rfl

theorem valuesRow : Pays depth [] 0 valuesRow s 1 fun _ => 20 := by
  have values (t : WalkState) : Pays depth [] 0 rowValues t 14 fun _ => 0 := by
    refine repeatFrom fun _ t => (step .value?).bind rfl fun _ t => look rfl rfl (perhaps (expression _) rfl fun _ => ?_)
    exact (step (.eat rfl)).bind rfl fun again _ => by cases again <;> exact pure rfl
  refine (step (.expect rfl)).discard.bind rfl fun _ t => (values t).bind rfl fun _ t => look rfl rfl ?_
  exact (step (.expect rfl)).discard.bind rfl fun _ t => pure rfl

theorem insertSource (columnsEnd? : Option Nat) : Pays depth [] 0 (insertSource columnsEnd?) s 9 fun _ => 0 := by
  have recorded (first? : Option Walk.ValuesRow) {t : WalkState} :
      (recordRow columnsEnd? first?).Passes (fun _ => 0) t := by
    refine .look rfl (.branch (fun _ => ?_) fun _ => .pure rfl)
    cases first? with
    | none => exact .pure rfl
    | some row =>
      refine Walk.Passes.record.bind fun _ _ => ?_
      cases columnsEnd? with
      | none => exact .pure rfl
      | some _ => exact .record
  have first (t : WalkState) : Pays depth [] 0 firstRow t 3 fun _ => 0 := by
    refine repeatFrom fun _ t => valuesRow.bind rfl fun row t => (step .record).bind rfl fun _ t => ?_
    exact (step (.eat rfl)).bind rfl fun again _ => by cases again <;> exact pure rfl
  have rows (t : WalkState) : Pays depth [] 0 (valuesRows columnsEnd?) t 4 fun _ => 0 :=
    (first t).bind rfl fun first? t => (step (recorded first?)).leaving rfl rfl
  refine eatAny rfl rfl (fun t => (rows t).leaving rfl rfl) ?_
  refine eat rfl rfl (fun t => (assignments true).bind rfl fun _ t => (step .record).leaving rfl rfl) ?_
  refine eat rfl rfl (fun t => (step (.expect rfl)).discard.bind rfl fun _ t => (step .record).leaving rfl rfl) ?_
  exact look rfl rfl (branch (fun _ => (query false).leaving rfl rfl) fun _ => failExpected rfl)

theorem insertStatement : Pays depth [] 0 insertStatement s 1 fun _ => 0 := by
  refine (step (.expectAny rfl)).discard.bind rfl fun _ t => (skipAll rfl).bind rfl fun _ t => ?_
  refine bind (step (.anyhow (.eat rfl))).discard rfl fun _ t => (step .tableName).discard.bind rfl fun _ t => ?_
  refine insertColumns.bind rfl fun columnsEnd? t => ?_
  refine bind (optional rfl fun t => (expression _).leaving rfl rfl) rfl fun _ t => (insertSource columnsEnd?).bind rfl fun _ t => ?_
  refine (optional rfl fun t => (step (.expect rfl)).discard.bind rfl fun _ t => ?_).leaving rfl rfl
  refine (step (.expect rfl)).discard.bind rfl fun _ t => (step (.expect rfl)).discard.bind rfl fun _ t => ?_
  exact (assignments false).leaving rfl rfl

theorem orderAndLimit : Pays depth [] 0 orderAndLimit s 3 fun _ => 0 := by
  refine bind (optional rfl fun t => ?_) rfl fun _ t => look rfl rfl (branch (fun _ => ?_) fun _ => pure rfl)
  · exact (step (.expect rfl)).discard.bind rfl fun _ t => (expression _).leaving rfl rfl
  · exact (step (.limitClause true)).leaving rfl rfl

theorem updateStatement : Pays depth [] 0 updateStatement s 1 fun _ => 0 := by
  refine (step (.expect rfl)).discard.bind rfl fun _ t => (skipAll rfl).bind rfl fun _ t => ?_
  refine (topClauseIfAny false).bind rfl fun _ t => tableReferences.bind rfl fun _ t => ?_
  refine setClause.bind rfl fun _ t => ?_
  refine bind (optional rfl fun t => (expression _).leaving rfl rfl) rfl fun _ t => ?_
  refine bind (optional rfl fun t => tableReferences.leaving rfl rfl) rfl fun _ t => ?_
  exact whereClause.bind rfl fun _ t => orderAndLimit.leaving rfl rfl

theorem deleteStatement : Pays depth [] 0 deleteStatement s 1 fun _ => 0 := by
  have ending (t : WalkState) : Pays depth [] 0 deleteEnd t 6 fun _ => 0 := by
    refine bind (optional rfl fun t => (expression _).leaving rfl rfl) rfl fun _ t => ?_
    refine bind (optional rfl fun t => tableReferences.leaving rfl rfl) rfl fun _ t => ?_
    exact whereClause.bind rfl fun _ t => orderAndLimit.leaving rfl rfl
  have targets (t : WalkState) : Pays depth [] 0 deleteTargets t 1 fun _ => 30 := by
    refine (step .qualifiedName).bind rfl fun first t => (loopFrom 1 0 fun _ t => ?_).leaving rfl rfl
    exact eat rfl rfl (fun t => (step .qualifiedName).bind rfl fun _ _ => pure rfl) (pure rfl)
  refine (step (.expect rfl)).discard.bind rfl fun _ t => (skipAll rfl).bind rfl fun _ t => ?_
  refine (topClauseIfAny false).bind rfl fun _ t => eat rfl rfl (fun t => ?_) ?_
  · exact tableReferences.bind rfl fun _ t => (ending t).leaving rfl rfl
  · refine (targets t).bind rfl fun _ t => bind (optional rfl fun t => tableReferences.leaving rfl rfl) rfl fun _ t => ?_
    exact (step .record).bind rfl fun _ t => (ending t).leaving rfl rfl

/-! ## Statements that change the schema -/

theorem isAtEnd_of_atStatementEnd (goesOn : ¬ (s.cursor.isAtEnd || s.cursor.check (.symbol .semicolon)) = true) :
    s.cursor.isAtEnd = false :=
  Bool.eq_false_iff.mpr fun atEnd => goesOn (by rw [atEnd]; rfl)

theorem atStatementEnd_eq : Walk.atStatementEnd s = .ok (s.cursor.isAtEnd || s.cursor.check (.symbol .semicolon)) s := by
  show (if s.cursor.isAtEnd = true then Pure.pure true else Walk.check (.symbol .semicolon) : Walk Bool) s = _
  cases s.cursor.isAtEnd <;> rfl

theorem skipRest : Pays depth [] 0 skipRest s 4 fun _ => 0 := by
  refine repeatWhile fun t => look atStatementEnd_eq rfl (branch (fun _ => pure rfl) fun goesOn => ?_)
  exact (step (.advance (isAtEnd_of_atStatementEnd goesOn))).discard.bind rfl fun _ _ => pure rfl

theorem definitionStatement : Pays depth [] 0 definitionStatement s 5 fun _ => 0 := by
  have create (t : WalkState) : Pays depth [] 0 createTable t 2 fun _ => 0 := by
    refine look rfl rfl ((step (.expect rfl)).discard.bind rfl fun _ u => ?_)
    refine (skipAll (by cases t.cursor.dialect <;> rfl)).bind rfl fun _ u => (step (.expect rfl)).discard.bind rfl fun _ u => ?_
    refine (skipAll (by cases t.cursor.dialect <;> rfl)).bind rfl fun _ u => (step .tableName).discard.bind rfl fun _ u => ?_
    exact skipRest.leaving rfl rfl
  have drop (t : WalkState) : Pays depth [] 0 dropTable t 1 fun _ => 0 := by
    refine (step (.expect rfl)).discard.bind rfl fun _ t => bind (step (.anyhow (.eat rfl))).discard rfl fun _ t => ?_
    refine (step (.expect rfl)).discard.bind rfl fun _ t => bind (step (.anyhow (.eat rfl))) rfl fun _ t => ?_
    refine perhaps (step (.anyhow (.expect rfl))).discard rfl fun t => (step .tableName).discard.bind rfl fun _ t => ?_
    refine bind (loop 1 0 fun t => ?_) rfl fun _ t => skipRest.leaving rfl rfl
    exact eat rfl rfl (fun t => (step .tableName).discard.bind rfl fun _ _ => pure rfl) (pure rfl)
  have truncate (t : WalkState) : Pays depth [] 0 truncateTable t 1 fun _ => 0 := by
    refine (step (.expect rfl)).discard.bind rfl fun _ t => bind (step (.anyhow (.eat rfl))).discard rfl fun _ t => ?_
    exact (step .tableName).discard.bind rfl fun _ t => skipRest.leaving rfl rfl
  have alter (t : WalkState) : Pays depth [] 0 alterTable t 1 fun _ => 0 := by
    refine (step (.expect rfl)).discard.bind rfl fun _ t => (step (.expect rfl)).discard.bind rfl fun _ t => ?_
    refine (step .tableName).discard.bind rfl fun _ t => (loop 3 0 fun t => look atStatementEnd_eq rfl ?_).leaving rfl rfl
    refine branch (fun _ => pure rfl) fun goesOn => ?_
    refine eat rfl rfl (fun t => (step .tableName).discard.bind rfl fun _ _ => pure rfl) ?_
    exact (step (.advance (isAtEnd_of_atStatementEnd goesOn))).discard.bind rfl fun _ _ => pure rfl
  refine look rfl rfl (branch (fun _ => (create s).leaving rfl rfl) fun _ => look rfl rfl ?_)
  refine branch (fun _ => (drop s).leaving rfl rfl) fun _ => look rfl rfl ?_
  exact branch (fun _ => (truncate s).leaving rfl rfl) fun _ => (alter s).leaving rfl rfl

/-! ## Whole statements -/

theorem wholeStatement (kind : StatementKind) : Pays depth [] 0 (wholeStatement kind) s 8 fun _ => 0 := by
  have body : Pays depth [] 0 (statementOf kind) s 5 fun _ => 0 := by
    cases kind with
    | select => exact (query true).leaving rfl rfl
    | insert => exact insertStatement.leaving rfl rfl
    | update => exact updateStatement.leaving rfl rfl
    | delete => exact deleteStatement.leaving rfl rfl
    | definition => exact definitionStatement
  refine body.bind rfl fun _ t => bind (step (.anyhow (.eat rfl))).discard rfl fun _ t => look rfl rfl ?_
  exact branch (fun _ => failExpected rfl) fun _ => pure rfl

end Pays

end SqlSharding.Sql.Metered

namespace SqlSharding.Sql

/-! ## Texts -/

/-- A stream without faults has the tokens of the text but the end, so the size of the stream counts tokens. -/
theorem TokenStream.size_of_tokenize {d : Dialect} {sql : String} {ts : List Token} (tokens : tokenize d sql = .ok ts) :
    (ofText d sql).size + 1 = ts.length := by
  rw [tokenize] at tokens
  generalize ofText d sql = stream at tokens ⊢
  induction stream generalizing ts with
  | token t rest ih =>
    rw [toList?] at tokens
    cases others : rest.toList? with
    | error e =>
      rw [others] at tokens
      cases tokens
    | ok us =>
      rw [others] at tokens
      cases tokens
      exact congrArg (· + 1) (ih others)
  | fault e rest => cases tokens
  | stuck e => cases tokens
  | finished p =>
    cases tokens
    rfl

/-- The cursor on the first token has all tokens left and genuine faults ahead. A text without a first token has a genuine
fault. -/
theorem Cursor.ofText_genuine (d : Dialect) (sql : String) : match ofText d sql with
    | .ok c => c.ahead.Genuine ∧ c.remaining ≤ (TokenStream.ofText d sql).size
    | .error e => e.Genuine := by
  have genuine : (TokenStream.ofText d sql).Genuine := TokenStream.scan_genuine d .start sql.toList
  rw [ofText]
  generalize TokenStream.ofText d sql = stream at genuine ⊢
  cases stream with
  | token t rest =>
    refine ⟨genuine, ?_⟩
    rw [remaining]
    split
    · exact Nat.zero_le _
    · exact Nat.le_refl _
  | fault e rest => exact genuine.1
  | stuck e => exact genuine
  | finished p => exact ⟨genuine, Nat.le_refl _⟩

/-- Reading a text makes progress, takes steps in proportion to its tokens, and ends with a statement or with an error that
is in the text. -/
theorem parse_makes_progress (d : Dialect) (sql : String) :
    (Reading.ofText d sql).outcome = parse d sql ∧ (Reading.ofText d sql).progresses ∧
      (Reading.ofText d sql).steps ≤ 40 * ((TokenStream.ofText d sql).size + 1) ∧
      ((∃ stmt, parse d sql = .ok stmt) ∨ ∃ e, parse d sql = .error e ∧ e.cause ≠ .nestingTooDeep) := by
  refine ⟨Reading.outcome_ofText d sql, ?_⟩
  rw [← Reading.outcome_ofText, Reading.ofText]
  have first := Cursor.ofText_genuine d sql
  cases begins : Cursor.ofText d sql with
  | error e =>
    rw [begins] at first
    exact ⟨trivial, Nat.zero_le _, .inr ⟨e, rfl, first⟩⟩
  | ok c =>
    rw [begins] at first
    obtain ⟨genuine, fewer⟩ := first
    dsimp only
    cases StatementKind.ofFirst? c.kind with
    | none => exact ⟨trivial, Nat.zero_le _, .inr ⟨_, rfl, SyntaxCause.noConfusion⟩⟩
    | some kind =>
      have room : Metered.Room (4 * c.remaining) [] 0 c.remaining := .outside (Nat.le_refl _)
      obtain ⟨progress, paid⟩ := Metered.Pays.wholeStatement (s := ⟨c, .ofKind kind⟩) kind genuine room
      -- The credit at the beginning is paid for by the one token that the bound counts beyond those of the stream.
      have enough : 8 + Metered.price * c.remaining ≤ 40 * ((TokenStream.ofText d sql).size + 1) := by
        rw [Metered.price]
        omega
      dsimp only
      cases run : (Metered.wholeStatement kind).walk ⟨c, .ofKind kind⟩ with
      | ok a t =>
        obtain ⟨-, -, bounded⟩ := (Metered.Paid.ok_iff run).mp paid
        exact ⟨progress, Nat.le_trans (Nat.le_of_add_right_le (Nat.le_of_add_right_le bounded)) enough, .inl ⟨_, rfl⟩⟩
      | error e t =>
        obtain ⟨genuine', bounded⟩ := (Metered.Paid.error_iff run).mp paid
        exact ⟨progress, Nat.le_trans bounded enough, .inr ⟨e, rfl, genuine'⟩⟩

end SqlSharding.Sql
