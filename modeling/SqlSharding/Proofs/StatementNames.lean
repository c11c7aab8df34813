import SqlSharding.Proofs.NamesRead

/-!
# Statements that read names

What the smallest walks keep where names are read, the walks over whole queries, `INSERT`s and `UPDATE`s keep. The same holds of the
walks behind the targets of a `DELETE`.
-/

namespace SqlSharding.Sql

namespace Walk

variable {α β : Type} {I J K : WalkState → Prop}

/-- The smallest walks of statements keep a property where names are read. -/
structure KeptByStatementNames (I J : WalkState → Prop) : Prop extends KeptByNames I J where
  rows : ∀ s columns n, I s → I { s with statement := { s.statement with insertColumns := columns, insertRows := n } }
  key : ∀ s columnsEnd valuesEnd parameterIndex, I s →
    I { s with statement := s.statement.addPoint (.generatedKey columnsEnd valuesEnd parameterIndex) }
  name : Leads I J (discard tableName)

namespace KeptByStatementNames

variable (kept : KeptByStatementNames I J)

include kept

/-! ## The readers at full depth -/

omit kept in
theorem atDepth {m : Nat → Walk Unit} (each : ∀ depth, Leads I J (m depth)) : Leads I J (do m (← depth)) := by
  refine .bind (.of_stays fun s n u run => ?_) each
  obtain ⟨_, _, ⟨⟩, run⟩ := bind_eq_ok_iff.mp run
  exact (pure_eq_ok_iff.mp run).2.symm

theorem expression (ends : TokenKind → Bool) : Leads I I (expression ends) :=
  atDepth fun depth => (NestedNames.all kept.toKeptByNames depth).expression ends

theorem tableReferences : Leads I J tableReferences :=
  atDepth fun depth => (NestedNames.all kept.toKeptByNames depth).tableReferences

theorem query (r : Bool) : Leads I J (query r) := atDepth fun depth => (NestedNames.all kept.toKeptByNames depth).query r

theorem whereClause : Leads J J whereClause := by
  have conditions : Leads I I conditions := atDepth fun depth => (NestedNames.all kept.toKeptByNames depth).conditions
  exact kept.eatThen rfl (kept.loosened conditions) (.pure fun _ => id)

/-! ## Assignments -/

theorem namedColumn : Leads I I namedColumn := by
  refine kept.column.bind fun x? => ?_
  cases x? with
  | none => exact .fails failExpected_fails
  | some x => exact .pure fun _ => id

theorem assignedValue (x : Column) : Leads I I (assignedValue x) := by
  refine kept.value?.bind fun v? => ?_
  cases v? with
  | none => exact .pure fun _ => id
  | some v => exact .kind fun k => .ite (.records fun s holds => kept.conditions s _ holds.2) (.pure fun _ => And.right)

theorem assignments (areConditions : Bool) : Leads I I (assignments areConditions) := by
  refine .repeatWhile ((namedColumn kept).bind fun x => .bind (kept.tightened (kept.expect rfl)) fun _ => ?_)
  exact .perhaps (assignedValue kept x) ((expression kept _).bind fun _ => kept.eat rfl)

theorem setClause : Leads J I setClause := .bind (kept.expect rfl) fun _ => assignments kept false

/-! ## INSERT -/

theorem insertColumns : Leads J J insertColumns := by
  refine kept.checkThen rfl (.branch (fun never => by cases never) fun _ => ?_)
    (.branch (fun _ => .pure fun _ => id) fun never => absurd rfl never)
  refine .bind (.of_stays fun _ _ _ run => (peek_eq_ok_iff.mp run).2) fun next => .ite (.pure fun s here => kept.loosen s here.2) ?_
  refine (kept.passes rfl).bind fun _ => .bind (.repeatWhile ?_) fun _ => .bind (.of_stays (by rintro s a t ⟨⟩; rfl)) fun c => ?_
  · refine (namedColumn kept).bind fun x => .bind (.records fun s holds => ?_) fun _ => kept.eat rfl
    exact kept.rows s _ s.statement.insertRows holds
  · exact .bind (kept.tightened (kept.expect rfl)) fun _ => .pure kept.loosen

theorem valuesRow : Leads I I valuesRow := by
  refine .bind (kept.tightened (kept.expect rfl)) fun _ => .bind (.repeatFrom (fun values => ?_) _) fun values => ?_
  · refine kept.value?.bind fun v? => .bind (.of_stays (by rintro s a t ⟨⟩; rfl)) fun ends => ?_
    exact .perhaps (expression kept _) (.bind (kept.eat rfl) fun isComma => .pure fun _ => id)
  · refine .bind (.of_stays (by rintro s a t ⟨⟩; rfl)) fun c => .bind (kept.tightened (kept.expect rfl)) fun _ => ?_
    exact .pure fun _ => id

theorem valuesRows (columnsEnd? : Option Nat) : Leads I I (valuesRows columnsEnd?) := by
  refine .bind (.repeatFrom (fun first? => ?_) _) fun first? => .bind (.of_stays (by rintro s a t ⟨⟩; rfl)) fun st => ?_
  · have counts : Leads I I (record fun s => { s with insertRows := s.insertRows + 1 }) :=
      .records fun s holds => kept.rows s s.statement.insertColumns _ holds
    exact (valuesRow kept).bind fun row => counts.bind fun _ => .bind (kept.eat rfl) fun isComma => .pure fun _ => id
  · refine .ite ?_ (.pure fun _ => id)
    cases first? with
    | none => exact .pure fun _ => id
    | some row =>
      refine .bind (J := I) (.records fun s holds => ?_) fun _ => ?_
      · rw [Statement.foldl_addCondition]
        exact kept.conditions s _ holds
      · cases columnsEnd? with
        | none => exact .pure fun _ => id
        | some columnsEnd => exact .records fun s => kept.key s columnsEnd row.valuesEnd row.parameterIndex

theorem insertSource (columnsEnd? : Option Nat) : Leads J J (insertSource columnsEnd?) := by
  have single : Leads I J (record fun s => { s with insertRows := 1 }) :=
    .records fun s holds => kept.loosen _ (kept.rows s s.statement.insertColumns 1 holds)
  refine kept.eatAnyThen (by decide) (kept.loosened (valuesRows kept columnsEnd?)) ?_
  refine kept.eatThen rfl ((assignments kept true).bind fun _ => single) ?_
  refine kept.eatThen rfl (.bind (kept.tightened (kept.expect rfl)) fun _ => single) ?_
  exact kept.checkAnyThen (by decide) (query kept false) (.fails failExpected_fails)

theorem insertStatement : Leads I J insertStatement := by
  have ending (columnsEnd? : Option Nat) : Leads J J (insertEnd columnsEnd?) := by
    refine (insertSource kept columnsEnd?).bind fun _ => kept.eatThen rfl ?_ (.pure fun _ => id)
    refine .bind (kept.tightened (kept.expect rfl)) fun _ => .bind (kept.tightened (kept.expect rfl)) fun _ => ?_
    exact .bind (kept.tightened (kept.expect rfl)) fun _ => kept.loosened (assignments kept false)
  refine .bind (kept.tightened (kept.expectAny (by decide))) fun _ => .bind (kept.skipAll (by decide)) fun _ => ?_
  refine .bind (kept.eat rfl).discards fun _ => kept.name.bind fun _ => (insertColumns kept).bind fun columnsEnd? => ?_
  exact kept.eatThen rfl ((expression kept _).bind fun _ => kept.tightened (ending columnsEnd?)) (ending columnsEnd?)

/-! ## UPDATE and DELETE -/

theorem orderAndLimit : Leads J J orderAndLimit := by
  have limit : Leads J J (do if ← check (.keyword .limit) then limitClause true) :=
    kept.checkThen rfl ((kept.loosened (kept.limitClause true)).weaken fun _ => And.right) (.pure fun _ => id)
  refine kept.eatThen rfl (.bind (kept.tightened (kept.expect rfl)) fun _ => ?_) limit
  exact (expression kept _).bind fun _ => kept.tightened limit

theorem updateStatement : Leads I J updateStatement := by
  have ending : Leads J J (do Walk.whereClause; Walk.orderAndLimit) := (whereClause kept).bind fun _ => orderAndLimit kept
  refine .bind (kept.tightened (kept.expect rfl)) fun _ => .bind (kept.skipAll (by decide)) fun _ => ?_
  refine .bind (.of_stays (by rintro s a t ⟨⟩; rfl)) fun isTop => .perhaps (kept.top false) ?_
  refine (tableReferences kept).bind fun _ => (setClause kept).bind fun _ => .bind (kept.eat rfl) fun isOutput => ?_
  refine .perhaps (expression kept _) (.bind (kept.eat rfl) fun isFrom => ?_)
  exact .ite ((tableReferences kept).bind fun _ => ending) (kept.tightened ending)

theorem deleteEnd : Leads J J deleteEnd := by
  have ending : Leads J J (do Walk.whereClause; Walk.orderAndLimit) := (whereClause kept).bind fun _ => orderAndLimit kept
  have sources : Leads J J (do
      if ← eat (.keyword .using) then Walk.tableReferences
      Walk.whereClause
      Walk.orderAndLimit) :=
    kept.eatThen rfl ((tableReferences kept).bind fun _ => ending) ending
  exact kept.eatThen rfl ((expression kept _).bind fun _ => kept.tightened sources) sources

/-! ## Whole statements -/

/-- At its end a statement keeps the property, if it keeps the weaker one before. -/
theorem wholeStatement {kind : StatementKind} (statement : Leads K J (statementOf kind)) : Leads K I (wholeStatement kind) := by
  refine statement.bind fun _ => ?_
  have ended : Leads J I (do if !(← isAtEnd) then failExpected .endOfStatement) := by
    intro s _ t run holds
    obtain ⟨atEnd, _, ⟨⟩, run⟩ := bind_eq_ok_iff.mp run
    split at run
    · cases run
    · next isAtEnd =>
      obtain ⟨-, rfl⟩ := pure_eq_ok_iff.mp run
      have kind : s.cursor.kind = .endOfInput := by simpa [Cursor.isAtEnd] using isAtEnd
      exact kept.tighten s (by simp [kind]) holds
  have semicolon : Leads J J (eat (.symbol .semicolon)) := by
    have leads : Leads J J (eat (.symbol .semicolon) >>= pure) := kept.eatThen rfl (.pure kept.loosen) (.pure fun _ => id)
    rwa [bind_pure] at leads
  exact semicolon.discards.bind fun _ => ended

end KeptByStatementNames

end Walk

end SqlSharding.Sql
