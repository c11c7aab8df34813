import SqlSharding.Proofs.Gathering

/-!
# What queries gather

The walks over expressions, conditions, tables and queries gather what their text spells. They contain one another, so
this is shown of all of them at once, by induction on the depth that is left.
-/

namespace SqlSharding.Sql

variable {d : Dialect} {p : Place} {ts before left taken later : List Token} {r : Bool} {held : List Nat}

/-! ## Recording -/

namespace Gathered

variable {start count : Nat} {s u : Statement}

/-- A point that is no bound adds none. -/
theorem bounds_append {q : RewritePoint} (other : q.isBound = false) :
    (s.points ++ [q]).filter RewritePoint.isBound = s.bounds := by
  rw [List.filter_append, List.filter_cons_of_neg (by simp [other]), List.filter_nil, List.append_nil, Statement.bounds]

theorem addTable (s : Statement) (x : Identifier) (aliasName : Option String) :
    Gathered ts r start 0 [] s (s.addTable x aliasName) := by
  refine stays rfl rfl (fun q member => ?_) (List.subset_append_left _ _) (bounds_append rfl) List.nil_subperm
  rcases List.mem_append.mp member with old | new
  · exact .inl old
  · rw [List.mem_singleton.mp new]
    exact .inr trivial

/-- A condition is recorded whose placeholders were held back. -/
theorem addCondition {c : Condition} (gathered : Gathered ts r start count (c.indices ++ held) s u)
    (spelled : c.SpelledIn ts) : Gathered ts r start count held s (u.addCondition c) := by
  cases usable : u.conditions.usable with
  | false =>
    have same : u.addCondition c = u := by
      rw [Statement.addCondition, Conditions.add, usable]
      rfl
    rw [same]
    exact gathered.less (List.sublist_append_right _ _).subperm
  | true =>
    have added : u.addCondition c = { u with conditions := ⟨u.conditions.entries ++ [c], true⟩ } := by
      rw [Statement.addCondition, Conditions.add, usable]
      rfl
    rw [added]
    refine ⟨?_, fun x member => ?_, gathered.points, gathered.kept, gathered.bounds, gathered.limit, fun _ => ?_⟩
    · refine List.Subperm.trans (List.Perm.subperm ?_) gathered.indices
      simp only [Statement.indices, List.flatMap_append, List.flatMap_singleton, List.append_assoc]
      refine List.Perm.append_left _ ?_
      rw [← List.append_assoc, ← List.append_assoc]
      exact List.perm_append_comm.append_right held
    · rcases List.mem_append.mp member with old | new
      · exact gathered.spelled x old
      · rw [List.mem_singleton.mp new]
        exact .inr spelled
    · obtain ⟨atStart, earlier⟩ := gathered.grows usable
      exact ⟨atStart, earlier.trans (List.prefix_append _ _)⟩

theorem mem_boundPoints {point : Span → Int64 → RewritePoint} {b : Option PlacedBound} {q : RewritePoint}
    (member : q ∈ boundPoints point b) : ∃ span i, b = some ⟨.literal i, span⟩ ∧ q = point span i := by
  match b with
  | some ⟨.literal i, span⟩ => exact ⟨span, i, rfl, List.mem_singleton.mp member⟩
  | some ⟨.placeholder _, _⟩ => cases member
  | none => cases member

/-- The pagination is recorded that a clause spells. -/
theorem paginate {n : Nat} {rowCount offset : Option PlacedBound} {rewritable : Bool} (s : Statement)
    (whole : ts = before ++ taken ++ later) (clause : PageClause (placeholders before) taken rowCount offset)
    (within : placeholders taken ≤ n) :
    Gathered ts true (placeholders before) n [] s (s.paginate rowCount offset rewritable) := by
  rw [Statement.paginate_eq]
  refine ⟨?_, fun c member => .inl member, fun q member => ?_, List.subset_append_left _ _, nofun, ?_,
    fun usable => ⟨usable, List.prefix_refl _⟩⟩
  · have fewer : (s.conditions.entries.flatMap Condition.indices).Subperm s.indices :=
      (List.sublist_append_left _ _).subperm
    have fresh : (Limit.indices ⟨rowCount.map (·.bound), offset.map (·.bound), rewritable && s.kind = .select⟩).Perm
        (List.range' (placeholders before) (placeholders taken)) := clause.indices_perm
    have inRange : (List.range' (placeholders before) (placeholders taken)).Sublist (List.range' (placeholders before) n) :=
      List.range'_sublist_right.mpr within
    rw [List.append_nil]
    exact fewer.append (fresh.subperm.trans inRange.subperm)
  · rcases List.mem_append.mp member with old | new
    · exact .inl old
    · rcases List.mem_append.mp new with inOffset | inRowCount
      · obtain ⟨span, i, rfl, rfl⟩ := mem_boundPoints inOffset
        exact .inr ⟨before, taken, later, rowCount, whole, clause⟩
      · obtain ⟨span, i, rfl, rfl⟩ := mem_boundPoints inRowCount
        exact .inr ⟨before, taken, later, offset, whole, clause⟩
  · exact .inr ⟨rfl, before, taken, later, rowCount, offset, _, whole, clause, rfl, List.subset_append_right _ _⟩

end Gathered

/-! ## The smallest walks -/

namespace Walk.Gathering

variable {α : Type} {m : Walk α}

theorem of_stays (stays : ∀ s a t, m s = .ok a t → t = s) : Gathering d p ts r m := by
  intro before left s a u _ poised run
  rw [stays s a u run]
  exact .refl poised

theorem kind : Gathering d p ts r kind := of_stays (by rintro s a t ⟨⟩; rfl)

theorem check (k : TokenKind) : Gathering d p ts r (check k) := of_stays (by rintro s a t ⟨⟩; rfl)

theorem checkAny (ks : List TokenKind) : Gathering d p ts r (checkAny ks) := of_stays (by rintro s a t ⟨⟩; rfl)

theorem cursor : Gathering d p ts r cursor := of_stays (by rintro s a t ⟨⟩; rfl)

theorem peek : Gathering d p ts r peek := of_stays fun _ _ _ run => (peek_eq_ok_iff.mp run).2

theorem atJoin : Gathering d p ts r atJoin := of_stays fun _ _ _ run => (atJoin_stays run).1

theorem atLock : Gathering d p ts r atLock := of_stays fun _ _ _ run => (atLock_stays run).1

variable (proper : Proper ts)

include proper

theorem skipAll (ks : List TokenKind) : Gathering d p ts r (skipAll ks) :=
  silent proper fun inStep => (inStep.skipAll (b := false) ks).keeps

theorem skipParentheses : Gathering d p ts r skipParentheses :=
  silent proper fun inStep => (inStep.skipParentheses (b := false)).keeps

theorem identifier : Gathering d p ts r identifier :=
  silent proper fun inStep => (inStep.identifier (b := false)).keeps

theorem qualifiedName : Gathering d p ts r qualifiedName :=
  (identifier proper).bind fun _ => (eat proper _).bind fun _ => .ite (identifier proper) .pure

theorem aliasedTable : Gathering d p ts r aliasedTable := by
  have alias? : Gathering d p ts r alias? :=
    silent proper fun inStep => .of_discard (inStep.discard_alias? (b := false)).keeps
  exact (qualifiedName proper).bind fun x => alias?.bind fun a => .record fun s => .addTable s x a

theorem value? : Gathering d p ts r value? := silent proper fun inStep => (inStep.value? (b := false)).keeps

theorem lockingClause : Gathering d p ts r lockingClause := by
  have round : Gathering d p ts r (do
      if (← Walk.kind).endsEverything then return false
      else
        discard Walk.advance
        return true) :=
    .bind .kind fun _ => .ite .pure ((advance proper).discards.bind fun _ => .pure)
  refine .bind (.check _) fun isFor => .ite (.bind .pure fun _ => ?_) (.bind .atLock fun isLocking => ?_)
  · exact .ite (.repeatWhile round) .pure
  · exact .ite (.repeatWhile round) .pure

/-! ## Pagination -/

theorem limitClause : Gathering d p ts r (limitClause r) := by
  intro before left s v u whole poised run
  obtain ⟨taken, later, rowCount, offset, split, poised', clause, recorded⟩ :=
    poised.limitClause (proper.rest whole) run
  refine ⟨taken, later, split, poised', ?_⟩
  rw [recorded]
  cases r with
  | true => exact .paginate _ (by rw [whole, split, List.append_assoc]) clause (Nat.le_refl _)
  | false => exact .idle _ List.nil_subperm

theorem offsetFetchClause : Gathering d p ts r (offsetFetchClause r) := by
  intro before left s v u whole poised run
  obtain ⟨taken, later, rowCount, offset, split, poised', clause, recorded⟩ :=
    poised.offsetFetchClause (proper.rest whole) run
  refine ⟨taken, later, split, poised', ?_⟩
  rw [recorded]
  cases r with
  | true => exact .paginate _ (by rw [whole, split, List.append_assoc]) clause (Nat.le_refl _)
  | false => exact .idle _ List.nil_subperm

theorem topClause : Gathering d p ts r (topClause r) := by
  intro before left s v u whole poised run
  obtain ⟨taken, later, split, poised', recorded⟩ :=
    poised.topClause (proper.rest whole) run
  refine ⟨taken, later, split, poised', ?_⟩
  rcases recorded with ⟨same, -⟩ | ⟨rfl, clause, more, b, rewritable, rfl, isClause, recorded⟩
  · rw [same]
    exact .idle _ List.nil_subperm
  · rw [recorded]
    have whole' : ts = before ++ clause ++ (more ++ later) := by simp [whole, split]
    refine .paginate _ whole' isClause ?_
    rw [placeholders_append]
    exact Nat.le_add_right _ _

theorem pagination : Gathering d p ts r (pagination r) := by
  refine .bind (.check _) fun _ => .ite (limitClause proper) (.bind (.checkAny _) fun _ => .ite ?_ .pure)
  exact .bind .cursor fun _ => .ite (offsetFetchClause proper) .pure

end Walk.Gathering

/-! ## Conditions on one column -/

/-- What follows the sign of a comparison is passed. A condition on the column is read only from tokens that, with the
name and the sign before them, spell it. -/
def Walk.Compares (d : Dialect) (p : Place) (ts : List Token) (x : Column) (signs : List TokenKind)
    (m : Walk (Option Condition)) : Prop :=
  ∀ before left s c? u, ts = before ++ left → Poised d p before left s → m s = .ok c? u →
    Gathers d p ts false [] before left s u ∧ ∀ c, c? = some c → ∃ taken later, Passed d p before left s taken later u ∧
      ∀ name word, x.Spelled name → word.kind ∈ signs → c.Spelled (placeholders before) (name ++ [word] ++ taken)

/-- A state in which a condition has been read. Unless it is recorded, its placeholders are held back. -/
def Offered (d : Dialect) (p : Place) (ts before left : List Token) (c? : Option Condition) (s u : WalkState) : Prop :=
  Gathers d p ts false (c?.elim [] Condition.indices) before left s u ∧ ∀ c, c? = some c → c.SpelledIn ts

namespace Walk.Compares

variable {x : Column} (proper : Proper ts)

include proper

theorem equality? : Compares d p ts x [.symbol .eq, .symbol .eqEq] (equality? x) := by
  intro before left s c? u whole poised run
  have properLeft : Proper left := proper.rest whole
  obtain ⟨v?, s₁, reads, run⟩ := bind_eq_ok_iff.mp run
  obtain ⟨rfl, rfl⟩ := pure_eq_ok_iff.mp run
  obtain ⟨taken, later, passed, spelled⟩ := poised.value? properLeft reads
  refine ⟨.of_passed passed List.nil_subperm, fun c is => ⟨taken, later, passed, fun name word column sign => ?_⟩⟩
  obtain ⟨v, isValue, rfl⟩ := Option.map_eq_some_iff.mp is
  exact .equal column sign (spelled v isValue)

theorem between? : Compares d p ts x [.keyword .between] (between? x) := by
  intro before left s c? u whole poised run
  have properLeft : Proper left := proper.rest whole
  obtain ⟨lower?, s₁, reads, run⟩ := bind_eq_ok_iff.mp run
  obtain ⟨taken₁, later₁, passed₁, spelled₁⟩ := poised.value? properLeft reads
  cases lower? with
  | none =>
    obtain ⟨rfl, rfl⟩ := pure_eq_ok_iff.mp run
    exact ⟨.of_passed passed₁ List.nil_subperm, fun c is => by cases is⟩
  | some lower =>
    obtain ⟨isRange, s₂, eats, ending⟩ := bind_eq_ok_iff.mp run
    have eaten := passed₁.poised.eat (passed₁.proper properLeft) rfl eats
    cases isRange with
    | false =>
      obtain rfl : s₂ = s₁ := eaten
      obtain ⟨rfl, rfl⟩ := pure_eq_ok_iff.mp ending
      exact ⟨.of_passed passed₁ List.nil_subperm, fun c is => by cases is⟩
    | true =>
      obtain ⟨word, later₂, passed₂, isAnd⟩ := eaten
      have passed₁₂ := passed₁.trans passed₂
      obtain ⟨upper?, s₃, reads, ending⟩ := bind_eq_ok_iff.mp ending
      obtain ⟨rfl, rfl⟩ := pure_eq_ok_iff.mp ending
      obtain ⟨taken₃, later₃, passed₃, spelled₃⟩ := passed₁₂.poised.value? (passed₁₂.proper properLeft) reads
      have passed := passed₁₂.trans passed₃
      refine ⟨.of_passed passed List.nil_subperm, fun c is => ⟨_, later₃, passed, fun name sign column isSign => ?_⟩⟩
      obtain ⟨upper, isValue, rfl⟩ := Option.map_eq_some_iff.mp is
      have spelled := spelled₃ upper isValue
      rw [placeholders_append, placeholders_append, placeholders_other (t := word) (by simp [isAnd]),
        Nat.add_zero] at spelled
      exact .between column (List.mem_singleton.mp isSign) (.mk (spelled₁ lower rfl) isAnd spelled)

omit proper in
/-- The column and the sign have been passed before. -/
theorem offers {signs : List TokenKind} (plain : .symbol .question ∉ signs) {m : Walk (Option Condition)}
    (compares : Compares d p ts x signs m) {s s₁ s₂ u : WalkState} {name mid : List Token} {word : Token}
    {qualifiers : List Identifier} {c? : Option Condition} (whole : ts = before ++ (name ++ mid))
    (recorded : s₁.statement = { s.statement with qualifiers }) (spelled : x.Spelled name)
    (passed : Passed d p (before ++ name) mid s₁ [word] later s₂) (isSign : word.kind ∈ signs)
    (run : m s₂ = .ok c? u) : Offered d p ts before (name ++ mid) c? s u := by
  have counted : placeholders (before ++ name ++ [word]) = placeholders before := by
    have other : word.kind ≠ .symbol .question := by
      intro same
      rw [same] at isSign
      exact plain isSign
    rw [placeholders_append, placeholders_append, placeholders_name spelled.name, placeholders_other other,
      Nat.add_zero]
  have whole₂ : ts = (before ++ name ++ [word]) ++ later := by simp [whole, passed.split]
  obtain ⟨gathers, spells⟩ := compares _ later s₂ c? u whole₂ passed.poised run
  obtain ⟨split, poised, unchanged⟩ := passed
  cases c? with
  | none =>
    have named : Gathers d p ts false [] before (name ++ mid) s s₂ := by
      refine ⟨name ++ [word], later, by simp [split], by rwa [← List.append_assoc], ?_⟩
      rw [unchanged, recorded]
      exact .qualifiers _ _ List.nil_subperm
    refine ⟨named.trans whole fun before' left' whole' poised' => ?_, fun c is => by cases is⟩
    exact (compares before' left' s₂ none u whole' poised' run).1
  | some c =>
    obtain ⟨taken, rest, ⟨rfl, poised', unchanged'⟩, isSpelled⟩ := spells c rfl
    have isSpelled : c.Spelled (placeholders before) (name ++ [word] ++ taken) := counted ▸ isSpelled name word spelled isSign
    refine ⟨⟨name ++ [word] ++ taken, rest, by simp [split], by simpa using poised', ?_⟩, ?_⟩
    · rw [unchanged', unchanged, recorded]
      exact .qualifiers _ _ (List.Perm.subperm (.of_eq isSpelled.indices_eq))
    · rintro _ ⟨⟩
      exact ⟨before, name ++ [word] ++ taken, rest, by simp [whole₂], .inl isSpelled⟩

end Walk.Compares

/-! ## The nested readers -/

namespace Walk

/-- Passes one item of a list of values after the given ones. -/
def listItem (depth : Nat) (values? : Option (List Operand)) : Walk (Bool × Option (List Operand)) := do
  let value? ← value?
  let isPlain := value?.isSome && (← checkAny [.symbol .comma, .symbol .rightParen])
  if !isPlain then expressionWithin depth TokenKind.isComma
  let values? := if isPlain then values?.bind fun values => value?.map fun v => values ++ [v] else none
  return (← eat (.symbol .comma), values?)

end Walk

/-- As long as no more than the given depth is needed, the walks that contain one another gather what their text spells.
Only queries that are recorded have a pagination. -/
structure NestedGathering (d : Dialect) (p : Place) (ts : List Token) (depth : Nat) : Prop where
  expression : ∀ ends, Walk.Gathering d p ts false (Walk.expressionWithin depth ends)
  group : Walk.Gathering d p ts false (Walk.groupWithin depth)
  cases : Walk.Gathering d p ts false (Walk.caseWithin depth)
  membership : ∀ x, Walk.Compares d p ts x [.keyword .in] (Walk.membershipWithin depth x)
  condition : Walk.Gathering d p ts false (Walk.conditionWithin depth)
  conditions : Walk.Gathering d p ts false (Walk.conditionsWithin depth)
  tableFactor : Walk.Gathering d p ts false (Walk.tableFactorWithin depth)
  tableReferences : Walk.Gathering d p ts false (Walk.tableReferencesWithin depth)
  select : ∀ r, Walk.Gathering d p ts r (Walk.selectWithin depth r)
  query : ∀ r, Walk.Gathering d p ts r (Walk.queryWithin depth r)

namespace NestedGathering

variable {depth : Nat}

theorem zero : NestedGathering d p ts 0 where
  expression _ := .fails Walk.failTooDeep_fails
  group := .fails Walk.failTooDeep_fails
  cases := .fails Walk.failTooDeep_fails
  membership _ _ _ s c? u _ _ run := absurd run (Walk.failTooDeep_fails s c? u)
  condition := .fails Walk.failTooDeep_fails
  conditions := .fails Walk.failTooDeep_fails
  tableFactor := .fails Walk.failTooDeep_fails
  tableReferences := .fails Walk.failTooDeep_fails
  select _ := .fails Walk.failTooDeep_fails
  query _ := .fails Walk.failTooDeep_fails

variable (proper : Proper ts) (nested : NestedGathering d p ts depth)

include proper nested

theorem expression_succ (ends : TokenKind → Bool) :
    Walk.Gathering d p ts false (Walk.expressionWithin (depth + 1) ends) := by
  rw [Walk.expressionWithin]
  refine .repeatWhile (.bind .kind fun k => .ite .pure ?_)
  refine .bind .atJoin fun _ => .ite .pure (.bind .atLock fun _ => .ite .pure ?_)
  refine .ite (nested.group.bind fun _ => .pure) (.ite (nested.cases.bind fun _ => .pure) (.ite ?_ ?_))
  · exact (Walk.Gathering.column proper).discards.bind fun _ => .pure
  · exact (Walk.Gathering.advance proper).discards.bind fun _ => .pure

theorem group_succ : Walk.Gathering d p ts false (Walk.groupWithin (depth + 1)) := by
  rw [Walk.groupWithin]
  have closes : Walk.Gathering d p ts false (discard (Walk.expect (.symbol .rightParen))) := .expect proper _
  refine .bind (.expect proper _) fun _ => .bind (.check _) fun isQuery => .ite ?_ ?_
  · exact (nested.query false).bind fun _ => closes
  · refine .bind (.repeatWhile ((nested.expression _).bind fun _ => .bind .atJoin fun _ => .ite ?_ .pure)) fun _ => closes
    exact (Walk.Gathering.advance proper).discards.bind fun _ => .pure

theorem cases_succ : Walk.Gathering d p ts false (Walk.caseWithin (depth + 1)) := by
  rw [Walk.caseWithin]
  have passes (goesOn : Bool) : Walk.Gathering d p ts false (do discard Walk.advance; return goesOn) :=
    (Walk.Gathering.advance proper).discards.bind fun _ => .pure
  refine .bind (.advance proper) fun opening => .repeatWhile ((nested.expression _).bind fun _ => .bind .kind fun k => ?_)
  exact .ite (passes false) (.ite (.fails Walk.failAt_fails) (passes true))

theorem tableFactor_succ : Walk.Gathering d p ts false (Walk.tableFactorWithin (depth + 1)) := by
  rw [Walk.tableFactorWithin]
  refine .bind (.check _) fun isGroup => .ite (.bind .peek fun k => .ite ?_ ?_) ?_
  · have alias? : Walk.Gathering d p ts false (discard Walk.alias?) :=
      .silent proper fun inStep => (inStep.discard_alias? (b := false)).keeps
    exact nested.group.bind fun _ => alias?
  · exact .bind (.discards (.advance proper)) fun _ => nested.tableReferences.bind fun _ => .expect proper _
  · have regroup : (do
        let name ← Walk.qualifiedName
        let aliasName ← Walk.alias?
        Walk.record (·.addTable name aliasName)
        Walk.tableHints) = (do Walk.aliasedTable; Walk.tableHints) := by
      simp only [Walk.aliasedTable, bind_assoc]
    rw [regroup]
    exact .bind (.aliasedTable proper) fun _ => .silent proper fun inStep => (inStep.tableHints (b := false)).keeps

theorem tableReferences_succ : Walk.Gathering d p ts false (Walk.tableReferencesWithin (depth + 1)) := by
  rw [Walk.tableReferencesWithin]
  refine nested.tableFactor.bind fun _ => .repeatWhile (.bind (.eat proper _) fun isComma => .ite ?_ ?_)
  · exact nested.tableFactor.bind fun _ => .pure
  refine .bind .atJoin fun isJoin => .ite (.bind (.skipAll proper _) fun _ => nested.tableFactor.bind fun _ => ?_) .pure
  refine .bind (.eat proper _) fun isOn => .ite ((nested.expression _).bind fun _ => .pure) ?_
  exact .bind (.eat proper _) fun isUsing => .ite (.bind (.skipParentheses proper) fun _ => .pure) .pure

theorem selectEnd : Walk.Gathering d p ts false (Walk.selectEnd depth) := by
  have having : Walk.Gathering d p ts false (Walk.havingEnd depth) := .bind (.eat proper _) fun _ => .ite (nested.expression _) .pure
  refine (nested.expression _).bind fun _ => .bind (.eat proper _) fun isFrom => ?_
  refine .perhaps nested.tableReferences (.bind (.eat proper _) fun isWhere => ?_)
  refine .perhaps nested.conditions (.bind (.eat proper _) fun isGroup => .ite ?_ having)
  exact .bind (.expect proper _) fun _ => (nested.expression _).bind fun _ => having

theorem select_succ (r : Bool) : Walk.Gathering d p ts r (Walk.selectWithin (depth + 1) r) := by
  rw [Walk.selectWithin_succ]
  have ending : Walk.Gathering d p ts r (Walk.selectEnd depth) := (selectEnd proper nested).mono
  refine .bind (.expect proper _) fun _ => .bind (.skipAll proper _) fun _ => .bind (.check _) fun isTop => ?_
  exact .perhaps (.topClause proper) ending

theorem queryEnd (r : Bool) : Walk.Gathering d p ts r (Walk.queryEnd depth r) := by
  have ending : Walk.Gathering d p ts r (Walk.paginationEnd r) := .bind (.pagination proper) fun _ => .lockingClause proper
  refine .bind (.eatAny proper _) fun isSet => .ite ?_ ?_
  · exact .bind (.discards (.eatAny proper _)) fun _ => (nested.query false).mono
  · refine .bind (.eat proper _) fun isOrder => .ite ?_ ending
    exact .bind (.expect proper _) fun _ => (nested.expression _).mono.bind fun _ => ending

theorem query_succ (r : Bool) : Walk.Gathering d p ts r (Walk.queryWithin (depth + 1) r) := by
  rw [Walk.queryWithin]
  refine .bind (.eat proper _) fun isGroup => .ite ?_ ?_
  · exact (nested.query r).bind fun _ => .bind (.expect proper _) fun _ => queryEnd proper nested r
  · exact (nested.select r).bind fun _ => queryEnd proper nested r

theorem conditions_succ : Walk.Gathering d p ts false (Walk.conditionsWithin (depth + 1)) := by
  rw [Walk.conditionsWithin]
  refine .repeatWhile (nested.condition.bind fun _ => .bind (.eat proper _) fun isAnd => .ite .pure ?_)
  refine .bind (.eat proper _) fun isOr => .ite (.bind (.record fun s => .unusable s) fun _ => .pure) .pure

/-! ### Conditions -/

/-- As long as a list holds plain values only, its tokens are passed and spell them. -/
def ListRead (d : Dialect) (p : Place) (before left : List Token) (s : WalkState)
    (Spelled : List Token → List Operand → Prop) (values? : Option (List Operand)) (u : WalkState) : Prop :=
  ∀ vs, values? = some vs → ∃ taken later, Passed d p before left s taken later u ∧ Spelled taken vs

omit nested in
theorem listItem (whole : ts = before ++ left) {s s₁ u : WalkState} {values? next? : Option (List Operand)} {again : Bool}
    (read : ListRead d p before left s (ItemsSpelled (placeholders before)) values? s₁)
    (run : Walk.listItem depth values? s₁ = .ok (again, next?) u) :
    ListRead d p before left s
      (if again then ItemsSpelled (placeholders before) else ValuesSpelled (placeholders before)) next? u := by
  intro vs is
  obtain ⟨v?, s₂, reads, run⟩ := Walk.bind_eq_ok_iff.mp run
  obtain ⟨ends, _, ⟨⟩, run⟩ := Walk.bind_eq_ok_iff.mp run
  dsimp only at run
  cases isPlain : v?.isSome && s₂.cursor.checkAny [.symbol .comma, .symbol .rightParen] with
  | false =>
    simp only [isPlain] at run
    obtain ⟨_, s₃, -, run⟩ := Walk.bind_eq_ok_iff.mp run
    obtain ⟨found, s₄, -, run⟩ := Walk.bind_eq_ok_iff.mp run
    obtain ⟨same, -⟩ := Walk.pure_eq_ok_iff.mp run
    cases same
    cases is
  | true =>
    simp only [isPlain] at run
    obtain ⟨found, s₃, eats, run⟩ := Walk.bind_eq_ok_iff.mp run
    obtain ⟨same, rfl⟩ := Walk.pure_eq_ok_iff.mp run
    cases same
    obtain ⟨vs', isFirst, is⟩ := Option.bind_eq_some_iff.mp is
    obtain ⟨v, rfl, rfl⟩ := Option.map_eq_some_iff.mp is
    obtain ⟨items, mid, passed, spelled⟩ := read vs' isFirst
    have properMid := passed.proper (proper.rest whole)
    obtain ⟨value, mid', passedValue, isValue⟩ := passed.poised.value? properMid reads
    have spelledValue := isValue v rfl
    rw [placeholders_append] at spelledValue
    have eaten := passedValue.poised.eat (passedValue.proper properMid) rfl eats
    have passed' := passed.trans passedValue
    cases again with
    | false =>
      obtain rfl : s₃ = s₂ := eaten
      exact ⟨items ++ value, mid', passed', .mk spelled spelledValue⟩
    | true =>
      obtain ⟨comma, later, passedComma, isComma⟩ := eaten
      rw [List.append_assoc] at passedComma
      exact ⟨items ++ value ++ [comma], later, passed'.trans passedComma, .snoc spelled spelledValue isComma⟩

theorem membership_gathers (x : Column) : Walk.Gathering d p ts false (Walk.membershipWithin (depth + 1) x) := by
  rw [Walk.membershipWithin]
  have item (values? : Option (List Operand)) : Walk.Gathering d p ts false (Walk.listItem depth values?) := by
    refine .bind (.value? proper) fun v? => .bind (.checkAny _) fun ends => ?_
    exact .perhaps (nested.expression _) (.bind (.eat proper _) fun isComma => .pure)
  refine .bind (.check _) fun isList => .ite .pure (.bind .peek fun k => .ite (nested.group.bind fun _ => .pure) ?_)
  refine .bind (.discards (.advance proper)) fun _ => .bind (.repeatFrom item _) fun values? => ?_
  exact .bind (.expect proper _) fun _ => .pure

theorem membership_succ (x : Column) :
    Walk.Compares d p ts x [.keyword .in] (Walk.membershipWithin (depth + 1) x) := by
  intro before left s c? u whole poised run
  refine ⟨membership_gathers proper nested x before left s c? u whole poised run, ?_⟩
  rintro c rfl
  have properLeft : Proper left := proper.rest whole
  rw [Walk.membershipWithin] at run
  obtain ⟨isList, _, ⟨⟩, run⟩ := Walk.bind_eq_ok_iff.mp run
  cases opens : s.cursor.check (.symbol .leftParen) with
  | false =>
    rw [opens] at run
    cases run
  | true =>
  rw [opens] at run
  have isOpening : s.cursor.kind = .symbol .leftParen := TokenKind.sameShape_symbol.mp opens
  obtain ⟨next, s₁, peeks, body⟩ := Walk.bind_eq_ok_iff.mp run
  obtain ⟨-, rfl⟩ := Walk.peek_eq_ok_iff.mp peeks
  clear run
  split at body
  · obtain ⟨_, s₂, -, body⟩ := Walk.bind_eq_ok_iff.mp body
    cases (Walk.pure_eq_ok_iff.mp body).1
  obtain ⟨_, s₂, passes, body⟩ := Walk.bind_eq_ok_iff.mp body
  obtain ⟨opening, advances, -⟩ := Walk.map_eq_ok_iff.mp passes
  obtain ⟨mid, passed, rfl⟩ := poised.advance properLeft (by simp [isOpening]) advances
  obtain ⟨values?, s₃, loop, body⟩ := Walk.bind_eq_ok_iff.mp body
  obtain ⟨_, s₄, closes, ending⟩ := Walk.bind_eq_ok_iff.mp body
  obtain ⟨is, rfl⟩ := Walk.pure_eq_ok_iff.mp ending
  obtain ⟨vs, rfl, rfl⟩ := Option.map_eq_some_iff.mp is
  have whole₂ : ts = (before ++ [s₁.cursor.current]) ++ mid := by simp [whole, passed.split]
  have read : ListRead d p (before ++ [s₁.cursor.current]) mid s₂
      (ValuesSpelled (placeholders (before ++ [s₁.cursor.current]))) (some vs) s₃ := by
    refine Walk.repeatFrom_induction
      (J := ListRead d p (before ++ [s₁.cursor.current]) mid s₂
        (ItemsSpelled (placeholders (before ++ [s₁.cursor.current])))) ?_ ?_ loop ?_
    · intro values? v next? w holds round
      exact listItem proper whole₂ holds round
    · intro values? v next? w holds round
      exact listItem proper whole₂ holds round
    · rintro _ ⟨⟩
      exact ⟨[], mid, .refl passed.poised, .nil⟩
  obtain ⟨taken, later, passedList, isSpelled⟩ := read vs rfl
  obtain ⟨closing, later', passedClosing, isClosing⟩ :=
    passedList.poised.expect (passedList.proper (passed.proper properLeft)) rfl closes
  rw [placeholders_append, placeholders_other (by rw [show s₁.cursor.current.kind = _ from isOpening]; simp),
    Nat.add_zero] at isSpelled
  rw [List.append_assoc] at passedClosing
  refine ⟨_, later', (passed.trans passedList).trans passedClosing, ?_⟩
  intro name word column isWord
  exact .isIn column (List.mem_singleton.mp isWord) (.mk isOpening isSpelled isClosing)

omit proper in
/-- A condition that has been read is recorded only if nothing follows it. -/
theorem conditionEnd (whole : ts = before ++ left) {s s₁ u : WalkState} {c? : Option Condition} {v : Unit}
    (offered : Offered d p ts before left c? s s₁) (run : Walk.conditionEnd depth c? s₁ = .ok v u) :
    Gathers d p ts false [] before left s u := by
  obtain ⟨gathers, spelled⟩ := offered
  have rest {s₂ : WalkState} (gathers : Gathers d p ts false [] before left s s₂)
      (run : Walk.expressionWithin depth TokenKind.endsCondition s₂ = .ok v u) : Gathers d p ts false [] before left s u :=
    gathers.trans whole fun before' left' whole' poised' =>
      nested.expression _ before' left' s₂ v u whole' poised' run
  cases c? with
  | none => exact rest gathers run
  | some c =>
    obtain ⟨ended, s₂, ends, run⟩ := Walk.bind_eq_ok_iff.mp run
    obtain rfl := Walk.atConditionEnd_stays ends
    cases ended with
    | false => exact rest gathers.release run
    | true =>
      obtain ⟨_, s₃, ⟨⟩, run⟩ := Walk.bind_eq_ok_iff.mp run
      refine rest (gathers.records (f := (·.addCondition c)) fun gathered => ?_) run
      exact .addCondition (by simpa using gathered) (spelled c rfl)

theorem comparison {s s₁ u : WalkState} {name mid : List Token} {x : Column} {qualifiers : List Identifier} {v : Unit}
    (whole : ts = before ++ (name ++ mid)) (poised : Poised d p (before ++ name) mid s₁)
    (recorded : s₁.statement = { s.statement with qualifiers }) (spelled : x.Spelled name)
    (run : Walk.comparison depth x s₁ = .ok v u) : Gathers d p ts false [] before (name ++ mid) s u := by
  have properMid : Proper mid := by
    rw [whole, ← List.append_assoc] at proper
    exact proper.right
  -- whichever sign follows, the condition after it has been read or nothing is held back
  have compares {signs : List TokenKind} (plain : .symbol .question ∉ signs) {m : Walk (Option Condition)}
      (reads : Walk.Compares d p ts x signs m) {word : Token} {later : List Token} {s₂ : WalkState}
      (passed : Passed d p (before ++ name) mid s₁ [word] later s₂) (isSign : word.kind ∈ signs)
      (run : (do Walk.conditionEnd depth (← m)) s₂ = .ok v u) : Gathers d p ts false [] before (name ++ mid) s u := by
    obtain ⟨c?, s₃, comparesRun, run⟩ := Walk.bind_eq_ok_iff.mp run
    exact conditionEnd nested whole (reads.offers plain whole recorded spelled passed isSign comparesRun) run
  obtain ⟨isEqual, s₂, eatsEqual, more⟩ := Walk.bind_eq_ok_iff.mp run
  have eaten := poised.eatAny properMid (by decide) eatsEqual
  cases isEqual with
  | true =>
    obtain ⟨word, later, passed, isSign⟩ := eaten
    exact compares (by decide) (.equality? proper) passed isSign more
  | false =>
  obtain rfl : s₂ = s₁ := eaten
  obtain ⟨isIn, s₃, eatsIn, ending⟩ := Walk.bind_eq_ok_iff.mp more
  have eaten := poised.eat properMid rfl eatsIn
  cases isIn with
  | true =>
    obtain ⟨word, later, passed, isWord⟩ := eaten
    exact compares (by decide) (nested.membership x) passed (List.mem_singleton.mpr isWord) ending
  | false =>
  obtain rfl : s₃ = s₂ := eaten
  obtain ⟨isBetween, s₄, eatsBetween, last⟩ := Walk.bind_eq_ok_iff.mp ending
  have eaten := poised.eat properMid rfl eatsBetween
  cases isBetween with
  | true =>
    obtain ⟨word, later, passed, isWord⟩ := eaten
    exact compares (by decide) (.between? proper) passed (List.mem_singleton.mpr isWord) last
  | false =>
    obtain rfl : s₄ = s₃ := eaten
    have nothing : Offered d p ts before (name ++ mid) none s s₄ := by
      refine ⟨⟨name, mid, rfl, poised, ?_⟩, fun c is => by cases is⟩
      rw [recorded]
      exact .qualifiers _ _ List.nil_subperm
    exact conditionEnd nested whole nothing last

theorem condition_succ : Walk.Gathering d p ts false (Walk.conditionWithin (depth + 1)) := by
  rw [Walk.conditionWithin]
  have rest := nested.expression TokenKind.endsCondition
  refine .bind .kind fun k => .ite ?_ (.ite ?_ (.ite ?_ rest))
  · intro before left s v u whole poised run
    obtain ⟨_, _, ⟨⟩, run⟩ := Walk.bind_eq_ok_iff.mp run
    obtain ⟨_, s₁, passes, run⟩ := Walk.bind_eq_ok_iff.mp run
    obtain ⟨_, s₂, negated, run⟩ := Walk.bind_eq_ok_iff.mp run
    have passing : Walk.Gathering d p ts false (do discard Walk.advance; Walk.conditionWithin depth) :=
      .bind (.discards (.advance proper)) fun _ => nested.condition
    have gathers : Gathers d p ts false [] before left s s₂ :=
      passing before left s () s₂ whole poised (Walk.bind_eq_ok_iff.mpr ⟨(), s₁, passes, negated⟩)
    cases run
    exact gathers.records (f := fun u => { u with conditions := s.statement.conditions }) fun gathered => gathered.restore
  · refine .bind .peek fun next => .ite (nested.group.bind fun _ => rest) ?_
    refine .bind (.discards (.advance proper)) fun _ => nested.conditions.bind fun _ => ?_
    exact .bind (.expect proper _) fun _ => rest
  · intro before left s v u whole poised run
    have properLeft : Proper left := proper.rest whole
    obtain ⟨x?, s₁, reads, run⟩ := Walk.bind_eq_ok_iff.mp run
    obtain ⟨name, mid, qualifiers, rfl, poised', -, recorded, spelled⟩ := poised.column properLeft reads
    cases x? with
    | none =>
      have named : Gathers d p ts false [] before (name ++ mid) s s₁ := by
        refine ⟨name, mid, rfl, poised', ?_⟩
        rw [recorded]
        exact .qualifiers _ _ List.nil_subperm
      exact named.trans whole fun before' left' whole' poised' => rest before' left' s₁ v u whole' poised' run
    | some x => exact comparison proper nested whole poised' recorded (spelled x rfl) run

theorem succ : NestedGathering d p ts (depth + 1) where
  expression := expression_succ proper nested
  group := group_succ proper nested
  cases := cases_succ proper nested
  membership := membership_succ proper nested
  condition := condition_succ proper nested
  conditions := conditions_succ proper nested
  tableFactor := tableFactor_succ proper nested
  tableReferences := tableReferences_succ proper nested
  select := select_succ proper nested
  query := query_succ proper nested

omit nested in
/-- However deep they are nested. -/
theorem all : ∀ depth, NestedGathering d p ts depth
  | 0 => zero
  | depth + 1 => succ proper (all depth)

end NestedGathering

end SqlSharding.Sql
