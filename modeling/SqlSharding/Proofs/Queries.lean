import SqlSharding.Proofs.Companion

/-!
# Queries in company

In a steady company the walks over expressions, conditions, tables and queries follow each other. They contain one
another, so this is shown of all of them at once, by induction on the depth that is left.
-/

namespace SqlSharding.Sql

namespace TokenKind

/-- Whether a set of tokens that end something does not depend on what may differ between two texts. -/
def Respects (ends : TokenKind → Bool) : Prop := ∀ ⦃k k'⦄, Alike k k' → ends k = ends k'

theorem respects_endsEverything : Respects endsEverything := by
  rintro _ _ (_ | _ | _ | _) <;> rfl

theorem respects_endsClause : Respects endsClause := by
  rintro _ _ (_ | _ | _ | _) <;> rfl

theorem respects_endsCondition : Respects endsCondition := by
  rintro _ _ (_ | _ | _ | _) <;> rfl

theorem respects_endsJoinCondition : Respects endsJoinCondition := by
  rintro _ _ (_ | _ | _ | _) <;> rfl

theorem respects_isComma : Respects isComma := by
  rintro _ _ (_ | _ | _ | _) <;> rfl

theorem respects_isEndKeyword : Respects isEndKeyword := by
  rintro _ _ (_ | _ | _ | _) <;> rfl

theorem respects_endsNothing : Respects endsNothing := fun _ _ _ => rfl

end TokenKind

theorem Walk.peek_eq_ok_iff {s t : WalkState} {k : TokenKind} :
    peek s = .ok k t ↔ s.cursor.peek = .ok k ∧ t = s := by
  rw [peek]
  cases s.cursor.peek <;> simp [eq_comm]

/-- Looking for a join word moves nothing, and a join word is a keyword. -/
theorem Walk.atJoin_stays {s t : WalkState} {r : Bool} (run : atJoin s = .ok r t) :
    t = s ∧ (r = true → ∃ w, s.cursor.kind = .keyword w) := by
  obtain ⟨_, _, ⟨⟩, run⟩ := bind_eq_ok_iff.mp run
  generalize s.cursor.kind = k at run ⊢
  cases k with
  | keyword w =>
    refine ⟨?_, fun _ => ⟨w, rfl⟩⟩
    dsimp only at run
    split at run
    · exact (pure_eq_ok_iff.mp run).2.symm
    · split at run
      · obtain ⟨_, u, ahead, run⟩ := bind_eq_ok_iff.mp run
        rw [← (pure_eq_ok_iff.mp run).2, (peek_eq_ok_iff.mp ahead).2]
      · exact (pure_eq_ok_iff.mp run).2.symm
  | _ =>
    obtain ⟨rfl, rfl⟩ := pure_eq_ok_iff.mp run
    exact ⟨rfl, (absurd · Bool.false_ne_true)⟩

namespace Company.Abreast

variable {C : Company} {b : Bool} (abreast : C.Abreast)

include abreast

/-! ## Looking at the state -/

theorem kind : C.Follows b Walk.kind Walk.kind (fun _ => b) TokenKind.Alike :=
  .look (by rintro s a t ⟨⟩; rfl) fun s s' a pair run => by
    cases run
    exact ⟨_, rfl, (abreast.alike pair).kind⟩

theorem check (k : TokenKind) : C.Follows b (Walk.check k) (Walk.check k) (fun _ => b) Eq :=
  .look (by rintro s a t ⟨⟩; rfl) fun s s' a pair run => by
    cases run
    exact ⟨_, rfl, (abreast.alike pair).check_eq k⟩

theorem checkAny (ks : List TokenKind) : C.Follows b (Walk.checkAny ks) (Walk.checkAny ks) (fun _ => b) Eq :=
  .look (by rintro s a t ⟨⟩; rfl) fun s s' a pair run => by
    cases run
    exact ⟨_, rfl, (abreast.alike pair).checkAny_eq ks⟩

theorem isAtEnd : C.Follows b Walk.isAtEnd Walk.isAtEnd (fun _ => b) Eq :=
  .look (by rintro s a t ⟨⟩; rfl) fun s s' a pair run => by
    cases run
    exact ⟨_, rfl, (abreast.alike pair).isAtEnd_eq⟩

theorem cursor : C.Follows b Walk.cursor Walk.cursor (fun _ => b) Cursor.Alike :=
  .look (by rintro s a t ⟨⟩; rfl) fun s s' a pair run => by
    cases run
    exact ⟨_, rfl, abreast.alike pair⟩

theorem peek : C.Follows b Walk.peek Walk.peek (fun _ => b) TokenKind.Alike :=
  .look (fun s k t run => (Walk.peek_eq_ok_iff.mp run).2) fun s s' k pair run => by
    obtain ⟨k', found, alike⟩ := abreast.looksAhead pair (Walk.peek_eq_ok_iff.mp run).1
    exact ⟨k', Walk.peek_eq_ok_iff.mpr ⟨found, rfl⟩, alike⟩

/-- A join word is no name, so the first walk cannot be lost at it only as long as it does not read a name. -/
theorem atJoin : C.Follows b Walk.atJoin Walk.atJoin (fun r => r || b) Eq := by
  have follows : C.Follows b Walk.atJoin Walk.atJoin (fun _ => b) Eq := by
    refine abreast.kind.bind (fun k => ⟨k, .same k⟩) fun k k' alike => ?_
    cases alike with
    | same k =>
      cases k with
      | keyword w =>
        refine .branch (fun _ => .pure rfl) fun _ => .branch (fun _ => ?_) fun _ => .pure rfl
        refine abreast.peek.map fun k k' alike => ?_
        simp only [ne_eq, alike.symbol_iff]
      | _ => exact .pure rfl
    | _ => exact .pure rfl
  refine follows.sharpen fun s a t run lost => ?_
  cases b with
  | true => simpa using lost
  | false =>
    cases a with
    | false => exact lost
    | true =>
      obtain ⟨rfl, isKeyword⟩ := Walk.atJoin_stays run
      obtain ⟨w, kind⟩ := isKeyword rfl
      exact abreast.tighten lost (by rw [kind]; rfl)

/-! ## Passing tokens -/

theorem advance : C.Follows b Walk.advance Walk.advance (fun _ => true) fun t t' => t.kind.Alike t'.kind :=
  abreast.advances.weaken

/-- A token is passed if a test says so. -/
theorem eatIf {test : Walk Bool} (tests : C.Follows b test test (fun _ => b) Eq) :
    C.Follows b (do if ← test then discard Walk.advance; return true else return false)
      (do if ← test then discard Walk.advance; return true else return false) (fun r => r || b) Eq := by
  refine tests.seq fun found => .branch (fun _ => ?_) fun _ => ?_
  · exact abreast.advance.discard.seq fun _ => .pure rfl
  · exact .pure rfl

theorem eat (k : TokenKind) : C.Follows b (Walk.eat k) (Walk.eat k) (fun r => r || b) Eq :=
  abreast.eatIf (abreast.check k)

theorem eatAny (ks : List TokenKind) : C.Follows b (Walk.eatAny ks) (Walk.eatAny ks) (fun r => r || b) Eq :=
  abreast.eatIf (abreast.checkAny ks)

/-- A token that may be passed or not says nothing of how the first walk is lost. -/
theorem discard_eat (k : TokenKind) :
    C.Follows b (discard (Walk.eat k)) (discard (Walk.eat k)) (fun _ => b) Eq :=
  Follows.discard (abreast.eat (b := b) k).weaken

omit abreast in
theorem failExpected {α : Type} {what : Expectation} {m' : Walk α} {after : α → Bool} {Same : α → α → Prop} :
    C.Follows b (Walk.failExpected what) m' after Same :=
  .fails Walk.failExpected_fails

theorem expect (k : TokenKind) :
    C.Follows b (Walk.expect k) (Walk.expect k) (fun _ => true) fun t t' => t.kind.Alike t'.kind :=
  (abreast.check k).seq fun _ => .branch (fun _ => abreast.advance) fun _ => failExpected

theorem expectAny (ks : List TokenKind) (what : Expectation) :
    C.Follows b (Walk.expectAny ks what) (Walk.expectAny ks what) (fun _ => true) fun t t' => t.kind.Alike t'.kind :=
  (abreast.checkAny ks).seq fun _ => .branch (fun _ => abreast.advance) fun _ => failExpected

/-! ## Loops -/

theorem repeatFrom {σ : Type} {f f' : σ → Walk (Bool × σ)} {S : σ → σ → Prop} {l : Bool}
    (total : ∀ x, ∃ x', S x x')
    (round : ∀ x x', S x x' →
      C.Follows b (f x) (f' x') (fun r => cond r.1 b l) (fun r r' => r.1 = r'.1 ∧ S r.2 r'.2))
    {x x' : σ} (same : S x x') : C.Follows b (Walk.repeatFrom x f) (Walk.repeatFrom x' f') (fun _ => l) S := by
  refine abreast.cursor.bind (fun c => ⟨c, .same _, rfl, rfl, rfl⟩) fun c c' alike => ?_
  rw [alike.remaining]
  exact .iterate total round _ x x' same

theorem repeatWhile {m m' : Walk Bool} {l : Bool} (round : C.Follows b m m' (fun again => cond again b l) Eq) :
    C.Follows b (Walk.repeatWhile m) (Walk.repeatWhile m') (fun _ => l) Eq :=
  abreast.repeatFrom (fun _ => ⟨(), rfl⟩) (fun _ _ _ => round.map fun _ _ same => ⟨same, rfl⟩) rfl

theorem skipAll (ks : List TokenKind) : C.Follows b (Walk.skipAll ks) (Walk.skipAll ks) (fun _ => b) Eq :=
  abreast.repeatWhile (abreast.eatAny (b := b) ks).weaken

/-- Tokens are passed until a test, which only looks, tells to stop. -/
theorem skipUntil {test : Walk Bool} (tests : C.Follows b test test (fun _ => b) Eq) :
    C.Follows b (Walk.repeatWhile do if ← test then return false else discard Walk.advance; return true)
      (Walk.repeatWhile do if ← test then return false else discard Walk.advance; return true) (fun _ => b) Eq := by
  refine abreast.repeatWhile (tests.seq fun found => .branch (fun _ => .pure rfl) fun _ => ?_)
  exact abreast.advance.discard.seq fun _ => .pure rfl

theorem closeParentheses (depth : Nat) {e f : Walk Unit} (fails : Walk.Fails e) :
    C.Follows b (Walk.closeParentheses depth e) (Walk.closeParentheses depth f) (fun _ => true) Eq := by
  refine (abreast.repeatFrom (b := false) (S := Eq) (fun n => ⟨n, rfl⟩) ?_ rfl).anywhere.discard
  rintro n _ rfl
  refine abreast.isAtEnd.seq fun found => .branch (fun _ => ?_) fun _ => ?_
  · have never : C.Follows false e f (fun _ => true) Eq := .fails fails
    exact never.seq fun _ => .pure ⟨rfl, rfl⟩
  · refine abreast.kind.bind (fun k => ⟨k, .same k⟩) fun k k' alike => ?_
    have same : Walk.depthAfter n k = Walk.depthAfter n k' := by
      simp only [Walk.depthAfter, alike.symbol_iff]
    rw [same]
    exact abreast.advance.discard.seq fun _ => .pure ⟨rfl, rfl⟩

theorem skipParentheses :
    C.Follows b Walk.skipParentheses Walk.skipParentheses (fun _ => b) Eq := by
  refine (abreast.check _).seq fun found => .branch (fun _ => ?_) fun _ => .pure rfl
  refine abreast.cursor.bind (fun c => ⟨c, .same _, rfl, rfl, rfl⟩) fun c c' _ => ?_
  exact Follows.weaken (abreast.closeParentheses (b := b) 0 Walk.failAt_fails)

/-! ## Around tables -/

/-- A name is passed, whatever it is. -/
theorem identifier : C.Follows b Walk.identifier Walk.identifier (fun _ => true) fun _ _ => True := by
  refine abreast.kind.bind (fun k => ⟨k, .same k⟩) fun k k' alike => ?_
  rw [alike.isIdentifier_eq]
  exact .branch (fun _ => abreast.advance.map fun _ _ _ => trivial) fun _ => failExpected

theorem skipToList : C.Follows b Walk.skipToList Walk.skipToList (fun _ => false) Eq := by
  refine (abreast.repeatWhile (b := false) ?_).anywhere
  refine (abreast.check _).seq fun found => .branch (fun _ => .pure rfl) fun _ => ?_
  refine abreast.isAtEnd.seq fun ended => .branch (fun _ => failExpected) fun _ => ?_
  exact abreast.advance.discard.seq fun _ => .pure rfl

theorem tableHints : C.Follows b Walk.tableHints Walk.tableHints (fun _ => false) Eq := by
  refine (abreast.repeatWhile (b := false) ?_).anywhere
  refine (abreast.eatAny _).seq fun found => .branch (fun _ => ?_) fun _ => ?_
  · refine (abreast.expectAny _ _).discard.seq fun _ => ?_
    exact abreast.skipToList.seq fun _ => abreast.skipParentheses.seq fun _ => .pure rfl
  · refine (abreast.check _).anywhere.seq fun found => .branch (fun _ => ?_) fun _ => .pure rfl
    refine abreast.peek.bind (fun k => ⟨k, .same k⟩) fun k k' alike => ?_
    refine .ite (alike.symbol_iff _) (fun _ => ?_) fun _ => .pure rfl
    exact abreast.advance.discard.seq fun _ => abreast.skipParentheses.anywhere.seq fun _ => .pure rfl

end Company.Abreast

namespace Company.InStep

variable {C : Company} {b : Bool} (inStep : C.InStep)

include inStep

theorem discard_alias? : C.Follows b (discard Walk.alias?) (discard Walk.alias?) (fun _ => false) Eq := by
  have follows : C.Follows b Walk.alias? Walk.alias? (fun _ => false) fun _ _ => True := by
    refine (inStep.eat _).seq fun found => .branch (fun _ => ?_) fun _ => ?_
    · refine inStep.identifier.bind (fun _ => ⟨default, trivial⟩) fun _ _ _ => .pure trivial
    · refine inStep.kind.bind (fun k => ⟨k, .same k⟩) fun k k' alike => ?_
      rw [alike.isIdentifier_eq]
      refine .branch (fun _ => ?_) fun _ => .pure trivial
      refine (inStep.seesLock.anywhere).seq fun found => .branch (fun _ => .pure trivial) fun _ => ?_
      exact inStep.identifier.bind (fun _ => ⟨default, trivial⟩) fun _ _ _ => .pure trivial
  exact follows.discard

theorem atConditionEnd : C.Follows b Walk.atConditionEnd Walk.atConditionEnd (fun _ => false) Eq := by
  refine inStep.kind.bind (fun k => ⟨k, .same k⟩) fun k k' alike => ?_
  rw [TokenKind.respects_endsEverything alike, TokenKind.respects_endsCondition alike]
  refine .branch (fun _ => .pure rfl) fun _ => ?_
  refine inStep.atJoin.seq fun found => .branch (fun _ => .pure rfl) fun _ => ?_
  exact inStep.seesLock.anywhere

end Company.InStep

namespace Company.Steady

variable {C : Company} {Records : Bool → Prop} {b : Bool} (steady : C.Steady Records)

include steady

/-! ## Conditions -/

theorem record_conditions {f f' : Sql.Conditions → Sql.Conditions}
    (same : ∀ cs cs', C.Conditions cs cs' → C.Conditions (f cs) (f' cs')) :
    C.Follows b (Walk.record fun s => { s with conditions := f s.conditions })
      (Walk.record fun s => { s with conditions := f' s.conditions }) (fun _ => b) Eq := by
  intro s _ t run
  cases run
  exact ⟨steady.lost_conditions _, fun s' pair => .inr
    ⟨(), _, rfl, rfl, steady.setConditions pair (same _ _ (steady.conditions pair))⟩⟩

theorem recordCondition {x x' : Condition} (same : C.SameCondition x x') :
    C.Follows b (Walk.record (·.addCondition x)) (Walk.record (·.addCondition x')) (fun _ => b) Eq :=
  steady.record_conditions fun _ _ both => steady.addCondition both same

theorem statement : C.Follows b Walk.statement Walk.statement (fun _ => b)
    fun s s' => C.Conditions s.conditions s'.conditions := by
  intro s _ t run
  cases run
  exact ⟨id, fun s' pair => .inr ⟨_, _, rfl, steady.conditions pair, pair⟩⟩

theorem statement_total (s : Statement) : ∃ s' : Statement, C.Conditions s.conditions s'.conditions := by
  obtain ⟨cs', same⟩ := steady.conditions_total s.conditions
  exact ⟨{ s with conditions := cs' }, same⟩

theorem values_total (vs : List Operand) : ∃ vs', List.Forall₂ C.Operands vs vs' := by
  induction vs with
  | nil => exact ⟨[], .nil⟩
  | cons v vs ih =>
    obtain ⟨v', same⟩ := steady.operands_total v
    obtain ⟨vs', rest⟩ := ih
    exact ⟨v' :: vs', .cons same rest⟩

theorem condition_total (x : Option Condition) : ∃ x', Option.Rel C.SameCondition x x' := by
  cases x with
  | none => exact ⟨none, .none⟩
  | some x =>
    obtain ⟨column, both⟩ := steady.columns_total x.column
    obtain ⟨values, rest⟩ := steady.values_total x.values
    exact ⟨some ⟨column, x.operator, values⟩, .some ⟨both, rfl, rest⟩⟩

theorem column_total (x : Option Column) : ∃ x', Option.Rel C.Columns x x' := by
  cases x with
  | none => exact ⟨none, .none⟩
  | some x =>
    obtain ⟨x', same⟩ := steady.columns_total x
    exact ⟨some x', .some same⟩

omit steady in
theorem condition_map {x x' : Column} (column : C.Columns x x') {make : Operand → List Operand} {op : ConditionOperator}
    {make' : Operand → List Operand} (values : ∀ v v', C.Operands v v' → List.Forall₂ C.Operands (make v) (make' v'))
    {v v' : Option Operand} (same : Option.Rel C.Operands v v') :
    Option.Rel C.SameCondition (v.map fun v => ⟨x, op, make v⟩) (v'.map fun v => ⟨x', op, make' v⟩) := by
  cases same with
  | none => exact .none
  | some both => exact .some ⟨column, rfl, values _ _ both⟩

theorem operand_total (v : Option Operand) : ∃ v', Option.Rel C.Operands v v' := by
  cases v with
  | none => exact ⟨none, .none⟩
  | some v =>
    obtain ⟨v', same⟩ := steady.operands_total v
    exact ⟨some v', .some same⟩

theorem equality? {x x' : Column} (column : C.Columns x x') :
    C.Follows b (Walk.equality? x) (Walk.equality? x') (fun _ => false) (Option.Rel C.SameCondition) := by
  refine steady.readsValue.anywhere.bind steady.operand_total fun v v' same => .pure ?_
  exact condition_map column (fun v v' both => .cons both .nil) same

theorem between? {x x' : Column} (column : C.Columns x x') :
    C.Follows b (Walk.between? x) (Walk.between? x') (fun _ => false) (Option.Rel C.SameCondition) := by
  refine steady.readsValue.anywhere.bind steady.operand_total fun v v' same => ?_
  cases same with
  | none => exact .pure .none
  | some lower =>
    refine (steady.eat _).seq fun found => .branch (fun _ => ?_) fun _ => .pure .none
    refine steady.readsValue.anywhere.bind steady.operand_total fun v v' same => .pure ?_
    exact condition_map column (fun v v' upper => .cons lower (.cons upper .nil)) same

theorem lockingClause : C.Follows b Walk.lockingClause Walk.lockingClause (fun _ => false) Eq := by
  refine (steady.check _).seq fun isFor => .join (x := fun _ => false) (fun _ => .pure rfl)
    (fun _ => steady.seesLock.anywhere) fun isLocking => .branch (fun _ => steady.repeatWhile ?_) fun _ => .pure rfl
  refine steady.kind.bind (fun k => ⟨k, .same k⟩) fun k k' alike => ?_
  rw [TokenKind.respects_endsEverything alike]
  exact .branch (fun _ => .pure rfl) fun _ => steady.advance.discard.seq fun _ => .pure rfl

theorem pagination {r : Bool} (records : Records r) :
    C.Follows b (Walk.pagination r) (Walk.pagination r) (fun _ => false) Eq := by
  refine (steady.check _).seq fun isLimit => .branch (fun _ => ?_) fun _ => ?_
  · exact (steady.readsLimit r records).anywhere.forget
  · refine (steady.checkAny _).seq fun isOffset => .branch (fun _ => ?_) fun _ => .pure rfl
    refine steady.cursor.bind (fun c => ⟨c, .same _, rfl, rfl, rfl⟩) fun c c' alike => ?_
    rw [alike.dialect]
    exact .branch (fun _ => (steady.readsOffsetFetch r records).anywhere.forget) fun _ => .pure rfl

end Company.Steady

/-! ## The nested readers -/

namespace Walk

/-- Records a condition that nothing follows, and passes what may follow it. -/
def conditionEnd (depth : Nat) (condition? : Option Condition) : Walk Unit := do
  match condition? with
  | some condition => if ← atConditionEnd then record (·.addCondition condition)
  | none => pure ()
  expressionWithin depth TokenKind.endsCondition

/-- Passes what follows the column at the beginning of a condition. -/
def comparison (depth : Nat) (column : Column) : Walk Unit := do
  if ← eatAny [.symbol .eq, .symbol .eqEq] then conditionEnd depth (← equality? column)
  else if ← eat (.keyword .in) then conditionEnd depth (← membershipWithin depth column)
  else if ← eat (.keyword .between) then conditionEnd depth (← between? column)
  else conditionEnd depth none

/-- Passes the condition on groups at the end of a `SELECT`. -/
def havingEnd (depth : Nat) : Walk Unit := do
  if ← eat (.keyword .having) then expressionWithin depth TokenKind.endsClause

/-- Passes a `SELECT` from what is selected on. -/
def selectEnd (depth : Nat) : Walk Unit := do
  expressionWithin depth TokenKind.endsClause
  if ← eat (.keyword .from) then tableReferencesWithin depth
  if ← eat (.keyword .where) then conditionsWithin depth
  if ← eat (.keyword .group) then
    discard (expect (.keyword .by))
    expressionWithin depth TokenKind.endsClause
  havingEnd depth

theorem selectWithin_succ (depth : Nat) (isRecorded : Bool) : selectWithin (depth + 1) isRecorded = (do
    discard (expect (.keyword .select))
    skipAll selectModifiers
    if ← check (.keyword .top) then topClause isRecorded
    selectEnd depth) := by
  rw [selectWithin]
  rfl

/-- Passes the pagination and the locking clause at the end of a query. -/
def paginationEnd (isRecorded : Bool) : Walk Unit := do
  pagination isRecorded
  lockingClause

/-- Passes what follows the first select of a query. -/
def queryEnd (depth : Nat) (isRecorded : Bool) : Walk Unit := do
  if ← eatAny [.keyword .union, .keyword .except, .keyword .intersect] then
    discard (eatAny [.keyword .all, .keyword .distinct])
    queryWithin depth false
  else
    if ← eat (.keyword .order) then
      discard (expect (.keyword .by))
      expressionWithin depth TokenKind.endsClause
    paginationEnd isRecorded

end Walk

/-- The walks that contain one another follow their companions as long as no more than the given depth is needed. -/
structure Company.Nested (C : Company) (Records : Bool → Prop) (depth : Nat) : Prop where
  expression : ∀ {ends}, TokenKind.Respects ends →
    C.Follows false (Walk.expressionWithin depth ends) (Walk.expressionWithin depth ends) (fun _ => false) Eq
  group : C.Follows false (Walk.groupWithin depth) (Walk.groupWithin depth) (fun _ => false) Eq
  cases : C.Follows false (Walk.caseWithin depth) (Walk.caseWithin depth) (fun _ => false) Eq
  membership : ∀ {x x'}, C.Columns x x' → C.Follows false (Walk.membershipWithin depth x)
    (Walk.membershipWithin depth x') (fun _ => false) (Option.Rel C.SameCondition)
  condition : C.Follows false (Walk.conditionWithin depth) (Walk.conditionWithin depth) (fun _ => false) Eq
  conditions : C.Follows false (Walk.conditionsWithin depth) (Walk.conditionsWithin depth) (fun _ => false) Eq
  tableFactor : C.Follows true (Walk.tableFactorWithin depth) (Walk.tableFactorWithin depth) (fun _ => false) Eq
  tableReferences :
    C.Follows true (Walk.tableReferencesWithin depth) (Walk.tableReferencesWithin depth) (fun _ => false) Eq
  select : ∀ r, C.Follows false (Walk.selectWithin depth r) (Walk.selectWithin depth r) (fun _ => false) Eq
  query : ∀ {r}, Records r → C.Follows false (Walk.queryWithin depth r) (Walk.queryWithin depth r) (fun _ => false) Eq

namespace Company.Nested

variable {C : Company} {Records : Bool → Prop} {b : Bool} {depth : Nat}

theorem zero : C.Nested Records 0 where
  expression _ := .fails Walk.failTooDeep_fails
  group := .fails Walk.failTooDeep_fails
  cases := .fails Walk.failTooDeep_fails
  membership _ := .fails Walk.failTooDeep_fails
  condition := .fails Walk.failTooDeep_fails
  conditions := .fails Walk.failTooDeep_fails
  tableFactor := .fails Walk.failTooDeep_fails
  tableReferences := .fails Walk.failTooDeep_fails
  select _ := .fails Walk.failTooDeep_fails
  query _ := .fails Walk.failTooDeep_fails

variable (steady : C.Steady Records) (nested : C.Nested Records depth)

include steady nested

theorem expression_succ {ends : TokenKind → Bool} (respects : TokenKind.Respects ends) :
    C.Follows false (Walk.expressionWithin (depth + 1) ends) (Walk.expressionWithin (depth + 1) ends)
      (fun _ => false) Eq := by
  rw [Walk.expressionWithin]
  refine steady.repeatWhile (steady.kind.bind (fun k => ⟨k, .same k⟩) fun k k' alike => ?_)
  rw [TokenKind.respects_endsEverything alike, respects alike, alike.isIdentifier_eq]
  refine .branch (fun _ => .pure rfl) fun _ => ?_
  refine steady.atJoin.seq fun _ => .branch (fun _ => .pure rfl) fun _ => ?_
  refine steady.seesLock.anywhere.seq fun _ => .branch (fun _ => .pure rfl) fun _ => ?_
  refine .ite (alike.symbol_iff _) (fun _ => nested.group.seq fun _ => .pure rfl) fun _ => ?_
  refine .ite (alike.keyword_iff _) (fun _ => nested.cases.seq fun _ => .pure rfl) fun _ => ?_
  refine .branch (fun _ => ?_) fun _ => steady.advance.discard.seq fun _ => .pure rfl
  exact steady.readsColumn.discard.seq fun _ => .pure rfl

theorem group_succ :
    C.Follows false (Walk.groupWithin (depth + 1)) (Walk.groupWithin (depth + 1)) (fun _ => false) Eq := by
  rw [Walk.groupWithin]
  refine (steady.expect _).discard.seq fun _ => (steady.check _).seq fun isQuery => ?_
  refine .join (x := fun _ => false) (fun _ => (nested.query steady.records_false).anywhere)
    (fun _ => ?_) fun _ => (steady.expect _).discard.forget
  refine (steady.repeatWhile (b := false) ?_).anywhere
  refine (nested.expression TokenKind.respects_endsNothing).seq fun _ => steady.atJoin.seq fun _ => ?_
  exact .branch (fun _ => steady.advance.discard.seq fun _ => .pure rfl) fun _ => .pure rfl

theorem cases_succ :
    C.Follows false (Walk.caseWithin (depth + 1)) (Walk.caseWithin (depth + 1)) (fun _ => false) Eq := by
  rw [Walk.caseWithin]
  refine steady.advance.bind (fun t => ⟨t, .same _⟩) fun opening opening' _ => ?_
  refine (steady.repeatWhile (b := false) ?_).anywhere
  refine (nested.expression TokenKind.respects_isEndKeyword).seq fun _ => ?_
  refine steady.kind.bind (fun k => ⟨k, .same k⟩) fun k k' alike => ?_
  rw [TokenKind.respects_endsEverything alike]
  refine .ite (alike.keyword_iff _) (fun _ => steady.advance.discard.seq fun _ => .pure rfl) fun _ => ?_
  refine .branch (fun _ => .fails Walk.failAt_fails) fun _ => ?_
  exact steady.advance.discard.seq fun _ => .pure rfl

theorem membership_succ {x x' : Column} (column : C.Columns x x') :
    C.Follows false (Walk.membershipWithin (depth + 1) x) (Walk.membershipWithin (depth + 1) x') (fun _ => false)
      (Option.Rel C.SameCondition) := by
  rw [Walk.membershipWithin, Walk.membershipWithin]
  refine (steady.check _).seq fun isList => .branch (fun _ => .pure .none) fun _ => ?_
  refine steady.peek.bind (fun k => ⟨k, .same k⟩) fun k k' alike => ?_
  refine .ite (alike.keyword_iff _) (fun _ => nested.group.seq fun _ => .pure .none) fun _ => ?_
  refine steady.advance.discard.seq fun _ => ?_
  have total (vs : Option (List Operand)) : ∃ vs', Option.Rel (List.Forall₂ C.Operands) vs vs' := by
    cases vs with
    | none => exact ⟨none, .none⟩
    | some vs =>
      obtain ⟨vs', same⟩ := steady.values_total vs
      exact ⟨some vs', .some same⟩
  refine (steady.repeatFrom (b := false) (S := Option.Rel (List.Forall₂ C.Operands)) (l := false) total ?_
    (.some .nil)).anywhere.bind total fun vs vs' same => ?_
  · intro vs vs' same
    refine steady.readsValue.bind steady.operand_total fun v v' value => (steady.checkAny _).seq fun listEnds => ?_
    have isSome_eq : v.isSome = v'.isSome := by cases value <;> rfl
    rw [isSome_eq]
    refine .perhaps (x := false) (fun _ => nested.expression TokenKind.respects_isComma) ?_
    refine (steady.eat _).seq fun isComma => .pure ⟨rfl, ?_⟩
    dsimp only
    split
    · cases same with
      | none => exact .none
      | some both =>
        cases value with
        | none => exact .none
        | some one => exact .some (List.rel_append both (.cons one .nil))
    · exact .none
  · refine (steady.expect _).discard.seq fun _ => .pure ?_
    cases same with
    | none => exact .none
    | some both => exact .some ⟨column, rfl, both⟩

theorem conditionEnd {x x' : Option Condition} (same : Option.Rel C.SameCondition x x') :
    C.Follows false (Walk.conditionEnd depth x) (Walk.conditionEnd depth x') (fun _ => false) Eq := by
  have rest := nested.expression TokenKind.respects_endsCondition
  cases same with
  | none => exact rest
  | some both => exact steady.atConditionEnd.seq fun _ => .perhaps (fun _ => steady.recordCondition both) rest

theorem condition_succ :
    C.Follows false (Walk.conditionWithin (depth + 1)) (Walk.conditionWithin (depth + 1)) (fun _ => false) Eq := by
  rw [Walk.conditionWithin]
  refine steady.kind.bind (fun k => ⟨k, .same k⟩) fun k k' alike => ?_
  rw [alike.isIdentifier_eq]
  have rest := nested.expression TokenKind.respects_endsCondition
  refine .ite (alike.keyword_iff _) (fun _ => ?_) fun _ => .ite (alike.symbol_iff _) (fun _ => ?_) fun _ => ?_
  · refine steady.statement.bind steady.statement_total fun s s' before => ?_
    refine steady.advance.discard.seq fun _ => nested.condition.anywhere.seq fun _ => ?_
    exact steady.record_conditions fun _ _ _ => before
  · refine steady.peek.bind (fun k => ⟨k, .same k⟩) fun k k' alike => ?_
    refine .ite (alike.keyword_iff _) (fun _ => nested.group.seq fun _ => rest) fun _ => ?_
    refine steady.advance.discard.seq fun _ => nested.conditions.anywhere.seq fun _ => ?_
    exact (steady.expect _).discard.seq fun _ => rest.anywhere
  · refine .branch (fun _ => ?_) fun _ => rest
    refine steady.readsColumn.bind steady.column_total fun x x' same => ?_
    cases same with
    | none => exact rest.anywhere
    | some column =>
      refine (steady.eatAny _).seq fun isEqual => .branch (fun _ => ?_) fun _ => ?_
      · exact (steady.equality? column).bind steady.condition_total fun _ _ same => conditionEnd steady nested same
      refine (steady.eat _).seq fun isIn => .branch (fun _ => ?_) fun _ => ?_
      · exact (nested.membership column).anywhere.bind steady.condition_total fun _ _ same =>
          conditionEnd steady nested same
      refine (steady.eat _).seq fun isBetween => .branch (fun _ => ?_) fun _ => ?_
      · exact (steady.between? column).bind steady.condition_total fun _ _ same => conditionEnd steady nested same
      · exact (conditionEnd steady nested .none).anywhere

theorem conditions_succ :
    C.Follows false (Walk.conditionsWithin (depth + 1)) (Walk.conditionsWithin (depth + 1)) (fun _ => false) Eq := by
  rw [Walk.conditionsWithin]
  refine steady.repeatWhile (nested.condition.seq fun _ => ?_)
  refine (steady.eat _).seq fun isAnd => .branch (fun _ => .pure rfl) fun _ => ?_
  refine (steady.eat _).seq fun isOr => .branch (fun _ => ?_) fun _ => .pure rfl
  exact (steady.record_conditions fun _ _ same => steady.markUnusable same).seq fun _ => .pure rfl

theorem tableFactor_succ :
    C.Follows true (Walk.tableFactorWithin (depth + 1)) (Walk.tableFactorWithin (depth + 1)) (fun _ => false) Eq := by
  rw [Walk.tableFactorWithin]
  refine (steady.check _).seq fun isGroup => .branch (fun _ => ?_) fun _ => ?_
  · refine steady.peek.bind (fun k => ⟨k, .same k⟩) fun k k' alike => ?_
    refine .ite (alike.keyword_iff _) (fun _ => ?_) fun _ => ?_
    · exact nested.group.anywhere.seq fun _ => steady.discard_alias?
    · refine steady.advance.discard.seq fun _ => nested.tableReferences.seq fun _ => ?_
      exact (steady.expect _).discard.forget
  · have regroup : (do
        let name ← Walk.qualifiedName
        let aliasName ← Walk.alias?
        Walk.record (·.addTable name aliasName)
        Walk.tableHints) = (do Walk.aliasedTable; Walk.tableHints) := by
      simp only [Walk.aliasedTable, bind_assoc]
    rw [regroup]
    exact steady.readsTable.seq fun _ => steady.tableHints

theorem tableReferences_succ :
    C.Follows true (Walk.tableReferencesWithin (depth + 1)) (Walk.tableReferencesWithin (depth + 1))
      (fun _ => false) Eq := by
  rw [Walk.tableReferencesWithin]
  refine nested.tableFactor.seq fun _ => steady.repeatWhile ?_
  refine (steady.eat _).seq fun isComma => .branch (fun h => ?_) fun _ => ?_
  · subst h
    exact nested.tableFactor.seq fun _ => .pure rfl
  refine steady.atJoin.seq fun isJoin => .branch (fun h => ?_) fun _ => .pure rfl
  subst h
  refine (steady.skipAll _).seq fun _ => nested.tableFactor.seq fun _ => (steady.eat _).seq fun isOn => ?_
  refine .branch (fun _ => ?_) fun _ => (steady.eat _).seq fun isUsing => ?_
  · exact (nested.expression TokenKind.respects_endsJoinCondition).anywhere.seq fun _ => .pure rfl
  · exact .perhaps (x := false) (fun _ => steady.skipParentheses.anywhere) (.pure rfl)

theorem select_succ (r : Bool) :
    C.Follows false (Walk.selectWithin (depth + 1) r) (Walk.selectWithin (depth + 1) r) (fun _ => false) Eq := by
  rw [Walk.selectWithin]
  have clause := nested.expression TokenKind.respects_endsClause
  refine (steady.expect _).discard.seq fun _ => (steady.skipAll _).seq fun _ => (steady.check _).seq fun isTop => ?_
  refine .perhaps (fun _ => (steady.readsTop r).anywhere) (clause.anywhere.seq fun _ => ?_)
  refine (steady.eat _).seq fun isFrom => .perhaps (x := false) (fun h => ?_) ?_
  · rw [h]
    exact nested.tableReferences
  refine (steady.eat _).seq fun isWhere => .perhaps (fun h => nested.conditions.anywhere) ?_
  have having : C.Follows false (Walk.havingEnd depth) (Walk.havingEnd depth) (fun _ => false) Eq :=
    (steady.eat _).seq fun _ => .branch (fun _ => clause.anywhere) fun _ => .pure rfl
  refine (steady.eat _).seq fun isGroup => .branch (fun _ => ?_) fun _ => having.anywhere
  exact (steady.expect _).discard.seq fun _ => clause.anywhere.seq fun _ => having

theorem queryEnd {r : Bool} (records : Records r) :
    C.Follows b (Walk.queryEnd depth r) (Walk.queryEnd depth r) (fun _ => false) Eq := by
  have clause := nested.expression TokenKind.respects_endsClause
  have ending {b : Bool} : C.Follows b (Walk.paginationEnd r) (Walk.paginationEnd r) (fun _ => false) Eq :=
    (steady.pagination records).seq fun _ => steady.lockingClause
  refine (steady.eatAny _).seq fun isSet => .branch (fun _ => ?_) fun _ => ?_
  · exact (steady.eatAny _).forget.discard.seq fun _ => (nested.query steady.records_false).anywhere
  · refine (steady.eat _).seq fun isOrder => .branch (fun _ => ?_) fun _ => ending
    exact (steady.expect _).discard.seq fun _ => clause.anywhere.seq fun _ => ending

theorem query_succ {r : Bool} (records : Records r) :
    C.Follows false (Walk.queryWithin (depth + 1) r) (Walk.queryWithin (depth + 1) r) (fun _ => false) Eq := by
  rw [Walk.queryWithin]
  refine (steady.eat _).seq fun isGroup => .branch (fun _ => ?_) fun _ => ?_
  · refine (nested.query records).anywhere.seq fun _ => (steady.expect _).discard.seq fun _ => ?_
    exact queryEnd steady nested records
  · exact (nested.select r).anywhere.seq fun _ => queryEnd steady nested records

theorem succ : C.Nested Records (depth + 1) where
  expression := expression_succ steady nested
  group := group_succ steady nested
  cases := cases_succ steady nested
  membership := membership_succ steady nested
  condition := condition_succ steady nested
  conditions := conditions_succ steady nested
  tableFactor := tableFactor_succ steady nested
  tableReferences := tableReferences_succ steady nested
  select := select_succ steady nested
  query := query_succ steady nested

omit nested in
/-- However deep they are nested. -/
theorem all : ∀ depth, C.Nested Records depth
  | 0 => zero
  | depth + 1 => succ steady (all depth)

end Company.Nested

end SqlSharding.Sql
