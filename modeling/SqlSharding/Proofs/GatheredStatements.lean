import SqlSharding.Proofs.GatheredQueries

/-!
# What statements gather

An `INSERT` reads the values of its rows before it knows whether it has more than one of them, so their placeholders are
held back up to the end of the rows. All other statements gather what their parts gather.
-/

namespace SqlSharding.Sql

variable {d : Dialect} {p : Place} {ts before left taken later : List Token} {r : Bool} {held : List Nat}

namespace Poised

/-- A state stands at one place of a text only. -/
theorem unique {before' left' : List Token} {s : WalkState} (proper : Proper ts) (whole : ts = before ++ left)
    (poised : Poised d p before left s) (whole' : ts = before' ++ left') (poised' : Poised d p before' left' s) :
    before' = before ∧ left' = left := by
  have same : left' = left :=
    Cursor.along_injective (proper.rest whole')
      (proper.rest whole) (poised'.symm.trans poised)
  subst same
  exact ⟨List.append_cancel_right (whole'.symm.trans whole), rfl⟩

end Poised

/-! ## Recording -/

namespace Gathered

variable {start count : Nat} {s u : Statement}

theorem rows (s : Statement) (columns : List String) (n : Nat) :
    Gathered ts r start count [] s { s with insertColumns := columns, insertRows := n } :=
  stays rfl rfl (fun _ member => .inl member) (List.Subset.refl _) rfl List.nil_subperm

/-- Conditions are recorded whose placeholders were held back. -/
theorem addConditions {cs : List Condition} (gathered : Gathered ts r start count (cs.flatMap Condition.indices ++ held) s u)
    (spelled : ∀ c ∈ cs, c.SpelledIn ts) : Gathered ts r start count held s (cs.foldl Statement.addCondition u) := by
  induction cs generalizing u with
  | nil => exact gathered
  | cons c cs ih =>
    rw [List.flatMap_cons, List.append_assoc] at gathered
    refine ih (gathered.addCondition (spelled c List.mem_cons_self)) fun x member => ?_
    exact spelled x (List.mem_cons_of_mem c member)

theorem addKey {columnsEnd valuesEnd i : Nat} (gathered : Gathered ts r start count held s u)
    (counted : (RewritePoint.generatedKey columnsEnd valuesEnd i).SpelledIn ts) :
    Gathered ts r start count held s (u.addPoint (.generatedKey columnsEnd valuesEnd i)) where
  indices := gathered.indices
  spelled := gathered.spelled
  points q member := by
    rcases List.mem_append.mp member with old | new
    · exact gathered.points q old
    · rw [List.mem_singleton.mp new]
      exact .inr counted
  kept := List.Subset.trans gathered.kept (List.subset_append_left _ _)
  bounds unrecorded := (bounds_append rfl).trans (gathered.bounds unrecorded)
  limit := by
    rcases gathered.limit with same | ⟨isRecorded, before, taken, after, rowCount, offset, rewritable, whole, clause, isLimit, recorded⟩
    · exact .inl same
    · exact .inr ⟨isRecorded, before, taken, after, rowCount, offset, rewritable, whole, clause, isLimit,
        List.Subset.trans recorded (List.subset_append_left _ _)⟩
  grows := gathered.grows

theorem addTargets (targets : List Identifier) (s : Statement) :
    Gathered ts r start 0 [] s (targets.foldl Walk.addTarget s) := by
  induction targets generalizing s with
  | nil => exact .idle s List.nil_subperm
  | cons x targets ih =>
    have first : Gathered ts r start 0 [] s (Walk.addTarget s x) := by
      rw [Walk.addTarget]
      split
      · exact .addTable s x none
      · exact .idle s List.nil_subperm
    exact first.trans (ih (Walk.addTarget s x))

end Gathered

/-! ## The readers at full depth -/

namespace Walk.Gathering

variable (proper : Proper ts)

theorem atDepth {m : Nat → Walk Unit} (each : ∀ depth, Gathering d p ts r (m depth)) :
    Gathering d p ts r (do m (← depth)) := by
  refine .bind (.of_stays fun s n u run => ?_) each
  obtain ⟨_, _, ⟨⟩, run⟩ := bind_eq_ok_iff.mp run
  exact (pure_eq_ok_iff.mp run).2.symm

include proper

theorem expression (ends : TokenKind → Bool) : Gathering d p ts r (expression ends) :=
  .atDepth fun depth => ((NestedGathering.all proper depth).expression ends).mono

theorem tableReferences : Gathering d p ts r tableReferences :=
  .atDepth fun depth => (NestedGathering.all proper depth).tableReferences.mono

theorem query : Gathering d p ts r (query r) := .atDepth fun depth => (NestedGathering.all proper depth).query r

theorem whereClause : Gathering d p ts r whereClause :=
  .bind (.eat proper _) fun _ => .ite (.atDepth fun depth => (NestedGathering.all proper depth).conditions.mono) .pure

theorem tableName : Gathering d p ts r tableName :=
  .bind (.qualifiedName proper) fun x => .bind (.record fun s => .addTable s x none) fun _ => .pure

theorem namedColumn : Gathering d p ts r namedColumn := by
  refine .bind (.column proper) fun column => ?_
  cases column with
  | none => exact .fails failExpected_fails
  | some column => exact .pure

end Walk.Gathering

/-! ## Assignments -/

namespace Walk

/-- Passes one assignment, and tells whether another one follows. -/
def assignment (isCondition : Bool) : Walk Bool := do
  let column ← namedColumn
  discard (expect (.symbol .eq))
  if isCondition then assignedValue column
  expression TokenKind.endsAssignment
  eat (.symbol .comma)

namespace Gathering

variable (proper : Proper ts)

include proper

/-- A value that is assigned is recorded only if nothing follows it. -/
theorem assignedValue {s s₁ s₂ u : WalkState} {name mid : List Token} {sign : Token} {x : Column}
    {qualifiers : List Identifier} {v : Unit} (whole : ts = before ++ (name ++ mid))
    (recorded : s₁.statement = { s.statement with qualifiers }) (spelled : x.Spelled name)
    (passed : Passed d p (before ++ name) mid s₁ [sign] later s₂) (isSign : sign.kind = .symbol .eq)
    (run : Walk.assignedValue x s₂ = .ok v u) : Gathers d p ts false [] before (name ++ mid) s u := by
  obtain ⟨v?, s₃, reads, run⟩ := bind_eq_ok_iff.mp run
  have equality : Walk.equality? x s₂ = .ok (v?.map fun v => ⟨x, .equal, [v]⟩) s₃ :=
    bind_eq_ok_iff.mpr ⟨v?, s₃, reads, rfl⟩
  have isEquality : sign.kind ∈ [TokenKind.symbol .eq, .symbol .eqEq] := by simp [isSign]
  obtain ⟨gathers, isSpelled⟩ :=
    (Compares.equality? proper).offers (by decide) whole recorded spelled passed isEquality equality
  cases v? with
  | none =>
    obtain ⟨-, rfl⟩ := pure_eq_ok_iff.mp run
    exact gathers
  | some v =>
    obtain ⟨k, _, ⟨⟩, run⟩ := bind_eq_ok_iff.mp run
    split at run
    · cases run
      refine gathers.records (f := (·.addCondition _)) fun gathered => ?_
      exact .addCondition (by simpa using gathered) (isSpelled _ rfl)
    · obtain ⟨-, rfl⟩ := pure_eq_ok_iff.mp run
      exact gathers.release

theorem assignment (isCondition : Bool) : Gathering d p ts r (assignment isCondition) := by
  have rest : Gathering d p ts r (do Walk.expression TokenKind.endsAssignment; Walk.eat (.symbol .comma)) :=
    .bind (.expression proper _) fun _ => .eat proper _
  cases isCondition with
  | false => exact .bind (.namedColumn proper) fun x => .bind (.expect proper _) fun _ => rest
  | true =>
    intro before left s again u whole poised run
    have properLeft : Proper left := proper.rest whole
    obtain ⟨x, s₁, names, run⟩ := bind_eq_ok_iff.mp run
    obtain ⟨x?, s₁', reads, names⟩ := bind_eq_ok_iff.mp names
    obtain ⟨name, mid, qualifiers, rfl, poised', -, recorded, spelled⟩ := poised.column properLeft reads
    cases x? with
    | none => cases names
    | some x =>
      obtain ⟨rfl, rfl⟩ := pure_eq_ok_iff.mp names
      obtain ⟨_, s₂, signs, run⟩ := bind_eq_ok_iff.mp run
      obtain ⟨sign, later, passed, isSign⟩ := poised'.expect properLeft.right rfl signs
      obtain ⟨_, s₃, assigns, run⟩ := bind_eq_ok_iff.mp run
      have gathers := assignedValue proper whole recorded (spelled x rfl) passed isSign assigns
      exact gathers.mono.trans whole fun before' left' whole' poised' =>
        rest before' left' s₃ again u whole' poised' run

theorem assignments (areConditions : Bool) : Gathering d p ts r (assignments areConditions) :=
  .repeatWhile (assignment proper areConditions)

theorem setClause : Gathering d p ts r setClause := .bind (.expect proper _) fun _ => assignments proper false

end Gathering

end Walk

/-! ## Rows -/

/-- The numbers of the placeholders that the values of a row refer to. -/
def rowIndices (values : List (Option Operand)) : List Nat := values.flatMap fun v? => v?.elim [] Operand.indices

/-- Values of a row have been read: their placeholders are held back, and each of them stands between parentheses or
commas. -/
structure RowRead (d : Dialect) (p : Place) (ts before left : List Token) (s : WalkState)
    (values : List (Option Operand)) (u : WalkState) : Prop where
  gathers : Gathers d p ts false (rowIndices values) before left s u
  items : ∀ v, some v ∈ values → ∃ pre item post, ts = pre ++ item ++ post ∧ RowItem pre item post v

/-- A value of a row can begin where a walk stands. -/
def Opened (d : Dialect) (p : Place) (ts : List Token) (u : WalkState) : Prop :=
  ∀ before left, ts = before ++ left → Poised d p before left u →
    ∃ t, before.getLast? = some t ∧ t.kind ∈ [.symbol .leftParen, .symbol .comma]

namespace Walk

/-- Passes one value of a row. -/
def rowValue : Walk (Option Operand) := do
  let value? ← value?
  let isPlain := value?.isSome && (← checkAny [.symbol .comma, .symbol .rightParen])
  if !isPlain then expression TokenKind.isComma
  return if isPlain then value? else none

theorem rowValues_eq : rowValues = repeatFrom [] fun values => do
    let v? ← rowValue
    return (← eat (.symbol .comma), values ++ [v?]) := by
  simp only [rowValues, rowValue, bind_assoc, ite_bind, pure_bind]

end Walk

section Rows

variable (proper : Proper ts)

include proper

/-- Where a value of a row can begin, it is read as one only between parentheses or commas. -/
theorem rowValue_read {s u : WalkState} {v? : Option Operand} (whole : ts = before ++ left) (poised : Poised d p before left s)
    (opened : Opened d p ts s) (run : Walk.rowValue s = .ok v? u) : RowRead d p ts before left s [v?] u := by
  have properLeft : Proper left := proper.rest whole
  obtain ⟨x?, s₁, reads, run⟩ := Walk.bind_eq_ok_iff.mp run
  obtain ⟨ends, _, ⟨⟩, run⟩ := Walk.bind_eq_ok_iff.mp run
  obtain ⟨taken, later, passed, spelled⟩ := poised.value? properLeft reads
  dsimp only at run
  cases isPlain : x?.isSome && s₁.cursor.checkAny [.symbol .comma, .symbol .rightParen] with
  | false =>
    simp only [isPlain] at run
    obtain ⟨_, s₂, expression, run⟩ := Walk.bind_eq_ok_iff.mp run
    obtain ⟨rfl, rfl⟩ := Walk.pure_eq_ok_iff.mp run
    have first : Gathers d p ts false [] before left s s₁ := .of_passed passed List.nil_subperm
    refine ⟨first.trans whole fun before' left' whole' poised' => ?_, by simp⟩
    exact Walk.Gathering.expression proper _ before' left' s₁ () s₂ whole' poised' expression
  | true =>
    simp only [isPlain] at run
    obtain ⟨rfl, rfl⟩ := Walk.pure_eq_ok_iff.mp run
    obtain ⟨isSome, closes⟩ := Bool.and_eq_true_iff.mp isPlain
    obtain ⟨v, rfl⟩ := Option.isSome_iff_exists.mp isSome
    have isSpelled := spelled v rfl
    refine ⟨.of_passed passed (List.Perm.subperm (.of_eq ?_)), fun w member => ?_⟩
    · simp [rowIndices, isSpelled.indices_eq]
    · obtain rfl : w = v := by simpa using member
      refine ⟨before, taken, later, by simp [whole, passed.split], isSpelled, opened before left whole poised, ?_⟩
      have listEnds := Cursor.kind_mem_of_checkAny (by decide) closes
      have inside : s₁.cursor.kind ≠ .endOfInput := by
        intro same
        simp [same] at listEnds
      obtain ⟨t, rest, rfl, isFirst⟩ := passed.poised.head inside
      exact ⟨t, rfl, isFirst ▸ listEnds⟩

/-- After the token that opens a value the next one can begin. -/
theorem opened_of_passed {s u : WalkState} {t : Token} (whole : ts = before ++ left) (passed : Passed d p before left s [t] later u)
    (opens : t.kind ∈ [.symbol .leftParen, .symbol .comma]) : Opened d p ts u := by
  intro before' left' whole' poised'
  have whole₂ : ts = (before ++ [t]) ++ later := by simp [whole, passed.split]
  obtain ⟨rfl, -⟩ := passed.poised.unique proper whole₂ whole' poised'
  exact ⟨t, by simp, opens⟩

theorem rowValues_round {s s₁ u : WalkState} {values next : List (Option Operand)} {again : Bool}
    (whole : ts = before ++ left) (read : RowRead d p ts before left s values s₁) (opened : Opened d p ts s₁)
    (run : (do
      let v? ← Walk.rowValue
      return (← Walk.eat (.symbol .comma), values ++ [v?])) s₁ = .ok (again, next) u) :
    RowRead d p ts before left s next u ∧ (again = true → Opened d p ts u) := by
  obtain ⟨v?, s₂, reads, run⟩ := Walk.bind_eq_ok_iff.mp run
  obtain ⟨isComma, s₃, eats, run⟩ := Walk.bind_eq_ok_iff.mp run
  obtain ⟨same, rfl⟩ := Walk.pure_eq_ok_iff.mp run
  cases same
  obtain ⟨taken, mid, split, poised₁, -⟩ := read.gathers
  have whole₁ : ts = (before ++ taken) ++ mid := by rw [whole, split, List.append_assoc]
  have value := rowValue_read proper whole₁ poised₁ opened reads
  have gathers : Gathers d p ts false (rowIndices (values ++ [v?])) before left s s₂ := by
    rw [rowIndices, List.flatMap_append]
    exact read.gathers.trans whole fun before' left' whole' poised' => (rowValue_read proper whole' poised' opened reads).gathers
  have eating : Walk.Gathering d p ts false (Walk.eat (.symbol .comma)) := .eat proper _
  refine ⟨⟨?_, fun v member => ?_⟩, ?_⟩
  · have all := gathers.trans whole fun before' left' whole' poised' => eating before' left' s₂ again s₃ whole' poised' eats
    rwa [List.append_nil] at all
  · rcases List.mem_append.mp member with old | new
    · exact read.items v old
    · exact value.items v new
  · rintro rfl
    obtain ⟨taken₂, left₂, split₂, poised₂, -⟩ := gathers
    have whole₂ : ts = (before ++ taken₂) ++ left₂ := by rw [whole, split₂, List.append_assoc]
    obtain ⟨comma, later, passed, isComma⟩ := poised₂.eat (proper.rest whole₂) rfl eats
    exact opened_of_passed proper whole₂ passed (by simp [isComma])

theorem rowValues_read {s u : WalkState} {values : List (Option Operand)} (whole : ts = before ++ left)
    (poised : Poised d p before left s) (opened : Opened d p ts s) (run : Walk.rowValues s = .ok values u) :
    RowRead d p ts before left s values u := by
  rw [Walk.rowValues_eq] at run
  refine Walk.repeatFrom_induction (J := fun values u => RowRead d p ts before left s values u ∧ Opened d p ts u)
    (fun values s₁ next s₂ holds round => ?_) (fun values s₁ next s₂ holds round => ?_) run ⟨⟨.refl poised, ?_⟩, opened⟩
  · obtain ⟨read, opens⟩ := rowValues_round proper whole holds.1 holds.2 round
    exact ⟨read, opens rfl⟩
  · exact (rowValues_round proper whole holds.1 holds.2 round).1
  · intro v member
    cases member

end Rows

/-- Tokens that begin one after the other. -/
def InOrder (ts : List Token) : Prop := ts.Pairwise fun t u => t.span.start < u.span.start

theorem Spaced.inOrder {ts : List Token} (spaced : Spaced ts) : InOrder ts :=
  spaced.apart.imp_of_mem fun {t _} first _ apart => Nat.lt_of_lt_of_le (spaced.nonempty t first) apart

/-- The tokens that begin before one of them are those that stand before it. -/
theorem InOrder.filter_before {t : Token} (inOrder : InOrder (before ++ t :: later)) :
    ((before ++ t :: later).filter fun u => u.span.start < t.span.start) = before := by
  obtain ⟨-, ordered, across⟩ := List.pairwise_append.mp inOrder
  rw [List.filter_append, List.filter_eq_self.mpr, List.filter_eq_nil_iff.mpr, List.append_nil]
  · intro u member
    rcases List.mem_cons.mp member with rfl | isLater
    · simp
    · have := (List.pairwise_cons.mp ordered).1 u isLater
      simpa using Nat.le_of_lt this
  · intro u member
    simpa using across u member t List.mem_cons_self

/-- What a row of values offers if it is the only one: conditions, and a place of a key. -/
structure RowOffered (d : Dialect) (p : Place) (ts before left : List Token) (s : WalkState) (row : Walk.ValuesRow)
    (u : WalkState) : Prop extends RowRead d p ts before left s row.values u where
  counted : ∀ columnsEnd, (RewritePoint.generatedKey columnsEnd row.valuesEnd row.parameterIndex).SpelledIn ts

theorem valuesRow_offers (proper : Proper ts) (inOrder : InOrder ts) {s u : WalkState} {row : Walk.ValuesRow}
    (whole : ts = before ++ left) (poised : Poised d p before left s) (run : Walk.valuesRow s = .ok row u) :
    RowOffered d p ts before left s row u := by
  have properLeft : Proper left := proper.rest whole
  obtain ⟨_, s₁, opens, run⟩ := Walk.bind_eq_ok_iff.mp run
  obtain ⟨opening, mid, passed, isOpening⟩ := poised.expect properLeft rfl opens
  obtain ⟨values, s₂, reads, run⟩ := Walk.bind_eq_ok_iff.mp run
  have whole₁ : ts = (before ++ [opening]) ++ mid := by simp [whole, passed.split]
  have opened : Opened d p ts s₁ := opened_of_passed proper whole passed (by simp [isOpening])
  have read := rowValues_read proper whole₁ passed.poised opened reads
  obtain ⟨_, _, ⟨⟩, run⟩ := Walk.bind_eq_ok_iff.mp run
  obtain ⟨_, s₃, closes, run⟩ := Walk.bind_eq_ok_iff.mp run
  obtain ⟨rfl, rfl⟩ := Walk.pure_eq_ok_iff.mp run
  have enters : Gathers d p ts false [] before left s s₁ := .of_passed passed List.nil_subperm
  have closing : Walk.Gathering d p ts false (discard (Walk.expect (.symbol .rightParen))) := .expect proper _
  refine ⟨⟨?_, read.items⟩, fun columnsEnd => ?_⟩
  · have inside := enters.trans whole fun before' left' whole' poised' =>
      (rowValues_read proper whole' poised' opened reads).gathers
    have all := inside.trans whole fun before' left' whole' poised' => closing before' left' s₂ () s₃ whole' poised' closes
    rwa [List.append_nil] at all
  · obtain ⟨taken, left₂, split, poised₂, -⟩ := read.gathers
    obtain ⟨closing, later, passed₂, -⟩ := poised₂.expect (split ▸ passed.proper properLeft).right rfl closes
    have whole₂ : ts = (before ++ [opening] ++ taken) ++ closing :: later := by
      rw [whole₁, split, passed₂.split]
      simp
    have isCurrent : s₂.cursor = .along d p (placeholders (before ++ [opening] ++ taken)) (closing :: later) := by
      rw [poised₂, passed₂.split]
      rfl
    rw [isCurrent, RewritePoint.SpelledIn, Cursor.along_cons_current, Cursor.along_parameterIndex]
    rw [whole₂] at inOrder ⊢
    rw [inOrder.filter_before]

/-- The first of some rows is held back. -/
structure RowsRead (d : Dialect) (p : Place) (ts before left : List Token) (s : WalkState)
    (first? : Option Walk.ValuesRow) (u : WalkState) : Prop where
  gathers : Gathers d p ts false (first?.elim [] fun row => rowIndices row.values) before left s u
  items : ∀ row, first? = some row → ∀ v, some v ∈ row.values → ∃ pre item post, ts = pre ++ item ++ post ∧ RowItem pre item post v
  counted : ∀ row, first? = some row → ∀ columnsEnd,
    (RewritePoint.generatedKey columnsEnd row.valuesEnd row.parameterIndex).SpelledIn ts

theorem rowsRead_round (proper : Proper ts) (inOrder : InOrder ts) {s s₁ u : WalkState} {first? next? : Option Walk.ValuesRow}
    {again : Bool} (whole : ts = before ++ left) (read : RowsRead d p ts before left s first? s₁)
    (run : (do
      let row ← Walk.valuesRow
      Walk.record fun s => { s with insertRows := s.insertRows + 1 }
      return (← Walk.eat (.symbol .comma), first?.or (some row))) s₁ = .ok (again, next?) u) :
    RowsRead d p ts before left s next? u := by
  obtain ⟨row, s₂, reads, run⟩ := Walk.bind_eq_ok_iff.mp run
  obtain ⟨_, s₃, counts, run⟩ := Walk.bind_eq_ok_iff.mp run
  obtain ⟨isComma, s₄, eats, run⟩ := Walk.bind_eq_ok_iff.mp run
  obtain ⟨same, rfl⟩ := Walk.pure_eq_ok_iff.mp run
  cases same
  obtain ⟨taken, mid, split, poised₁, -⟩ := read.gathers
  have offered := valuesRow_offers proper inOrder (by rw [whole, split, List.append_assoc]) poised₁ reads
  have counting : Walk.Gathering d p ts false (Walk.record fun s => { s with insertRows := s.insertRows + 1 }) :=
    .record fun s => .rows s s.insertColumns _
  have eating : Walk.Gathering d p ts false (Walk.eat (.symbol .comma)) := .eat proper _
  have withRow := read.gathers.trans whole fun before' left' whole' poised' =>
    (valuesRow_offers proper inOrder whole' poised' reads).gathers
  have counted := withRow.trans whole fun before' left' whole' poised' =>
    counting before' left' s₂ () s₃ whole' poised' counts
  have gathers := counted.trans whole fun before' left' whole' poised' =>
    eating before' left' s₃ again s₄ whole' poised' eats
  rw [List.append_nil, List.append_nil] at gathers
  cases first? with
  | none =>
    refine ⟨gathers, ?_, ?_⟩
    · rintro _ ⟨⟩
      exact offered.items
    · rintro _ ⟨⟩
      exact offered.counted
  | some first => exact ⟨gathers.less (List.sublist_append_left _ _).subperm, read.items, read.counted⟩

/-! ## INSERT -/

theorem rowConditions_indices (columns : List String) (values : List (Option Operand)) :
    ((Walk.rowConditions columns values).flatMap Condition.indices).Sublist (rowIndices values) := by
  induction columns generalizing values with
  | nil => exact List.nil_sublist _
  | cons column columns ih =>
    cases values with
    | nil => exact List.nil_sublist _
    | cons v? values =>
      cases v? with
      | none => exact ih values
      | some v =>
        have first : Condition.indices ⟨⟨none, column⟩, .equal, [v]⟩ = v.indices := by simp [Condition.indices]
        have split : Walk.rowConditions (column :: columns) (some v :: values) =
          ⟨⟨none, column⟩, .equal, [v]⟩ :: Walk.rowConditions columns values := rfl
        rw [split, List.flatMap_cons, first]
        exact (ih values).append_left v.indices

theorem mem_rowConditions {columns : List String} {values : List (Option Operand)} {c : Condition}
    (member : c ∈ Walk.rowConditions columns values) :
    ∃ column v, c = ⟨⟨none, column⟩, .equal, [v]⟩ ∧ some v ∈ values := by
  obtain ⟨⟨column, v?⟩, isPair, made⟩ := List.mem_filterMap.mp member
  obtain ⟨v, rfl, rfl⟩ := Option.map_eq_some_iff.mp made
  exact ⟨column, v, rfl, (List.of_mem_zip isPair).2⟩

/-- A single row records its conditions and the place of a key. -/
theorem singleRow_gathers {s s₁ u : WalkState} {row : Walk.ValuesRow} {columnsEnd? : Option Nat} {v : Unit}
    (read : RowsRead d p ts before left s (some row) s₁)
    (run : (do
      Walk.record fun s => (Walk.rowConditions s.insertColumns row.values).foldl Statement.addCondition s
      match columnsEnd? with
      | none => pure ()
      | some columnsEnd => Walk.record (·.addPoint (.generatedKey columnsEnd row.valuesEnd row.parameterIndex))) s₁ =
        .ok v u) :
    Gathers d p ts false [] before left s u := by
  obtain ⟨_, s₂, ⟨⟩, run⟩ := Walk.bind_eq_ok_iff.mp run
  have fewer := read.gathers.less (rowConditions_indices s₁.statement.insertColumns row.values).subperm
  have conditions : Gathers d p ts false [] before left s
      { s₁ with statement := (Walk.rowConditions s₁.statement.insertColumns row.values).foldl Statement.addCondition s₁.statement } := by
    refine fewer.records (f := fun s => (Walk.rowConditions s.insertColumns row.values).foldl Statement.addCondition s)
      fun gathered => .addConditions (by simpa using gathered) fun c member => ?_
    obtain ⟨column, v, rfl, isValue⟩ := mem_rowConditions member
    obtain ⟨pre, item, post, whole, isItem⟩ := read.items row rfl v isValue
    exact ⟨pre, item, post, whole, .inr ⟨column, v, rfl, isItem⟩⟩
  cases columnsEnd? with
  | none =>
    obtain ⟨-, rfl⟩ := Walk.pure_eq_ok_iff.mp run
    exact conditions
  | some columnsEnd =>
    cases run
    exact conditions.records (f := (·.addPoint (.generatedKey columnsEnd row.valuesEnd row.parameterIndex)))
      fun gathered => gathered.addKey (read.counted row rfl columnsEnd)

theorem Walk.Gathering.valuesRows (proper : Proper ts) (inOrder : InOrder ts) (columnsEnd? : Option Nat) :
    Walk.Gathering d p ts r (Walk.valuesRows columnsEnd?) := by
  refine Walk.Gathering.mono ?_
  intro before left s v u whole poised run
  obtain ⟨first?, s₁, loop, run⟩ := bind_eq_ok_iff.mp run
  have read : RowsRead d p ts before left s first? s₁ := by
    refine repeatFrom_invariant (J := RowsRead d p ts before left s) ?_ loop ⟨.refl poised, nofun, nofun⟩
    intro first? s₂ next s₃ read round
    exact rowsRead_round proper inOrder whole read round
  obtain ⟨_, _, ⟨⟩, run⟩ := bind_eq_ok_iff.mp run
  split at run
  · cases first? with
    | none =>
      obtain ⟨-, rfl⟩ := pure_eq_ok_iff.mp run
      exact read.gathers
    | some row => exact singleRow_gathers read run
  · obtain ⟨-, rfl⟩ := pure_eq_ok_iff.mp run
    exact read.gathers.release

namespace Walk.Gathering

variable (proper : Proper ts)

include proper

theorem insertColumns : Gathering d p ts r insertColumns := by
  have columns : Gathering d p ts r (Walk.repeatWhile do
      let column ← Walk.namedColumn
      Walk.record fun s => { s with insertColumns := s.insertColumns ++ [column.name] }
      Walk.eat (.symbol .comma)) :=
    .repeatWhile (.bind (.namedColumn proper) fun x => .bind (.record fun s => .rows s _ s.insertRows) fun _ => .eat proper _)
  refine .bind (.check _) fun _ => .ite .pure (.bind .peek fun _ => .ite .pure ?_)
  refine .bind (.discards (.advance proper)) fun _ => columns.bind fun _ => .bind .cursor fun c => ?_
  exact .bind (.expect proper _) fun _ => .pure

theorem insertSource (inOrder : InOrder ts) (columnsEnd? : Option Nat) : Gathering d p ts r (insertSource columnsEnd?) := by
  have single : Gathering d p ts r (Walk.record fun s => { s with insertRows := 1 }) :=
    .record fun s => .rows s s.insertColumns 1
  refine .bind (.eatAny proper _) fun _ => .ite (.valuesRows proper inOrder _) (.bind (.eat proper _) fun _ => .ite ?_ ?_)
  · exact .bind (.assignments proper _) fun _ => single
  refine .bind (.eat proper _) fun _ => .ite (.bind (.expect proper _) fun _ => single) ?_
  exact .bind (.checkAny _) fun _ => .ite (query (r := false) proper).mono (.fails failExpected_fails)

theorem insertStatement (inOrder : InOrder ts) : Gathering d p ts r insertStatement := by
  have source (e : Option Nat) : Gathering d p ts r (insertEnd e) := by
    refine .bind (insertSource proper inOrder e) fun _ => .bind (.eat proper _) fun _ => .ite ?_ .pure
    refine .bind (.expect proper _) fun _ => .bind (.expect proper _) fun _ => .bind (.expect proper _) fun _ => ?_
    exact .assignments proper false
  refine .bind (.silent proper fun inStep => (inStep.expectAny (b := false) _ _).keeps.discards) fun _ => ?_
  refine .bind (.skipAll proper _) fun _ => .bind (.discards (.eat proper _)) fun _ => ?_
  refine .bind (.discards (.tableName proper)) fun _ => .bind (insertColumns proper) fun e => ?_
  exact .bind (.eat proper _) fun _ => .perhaps (.expression proper _) (source e)

/-! ## UPDATE and DELETE -/

theorem orderAndLimit : Gathering d p ts true orderAndLimit := by
  have limit : Gathering d p ts true (do if ← Walk.check (.keyword .limit) then Walk.limitClause true) :=
    .bind (.check _) fun _ => .ite (.limitClause proper) .pure
  refine .bind (.eat proper _) fun _ => .ite ?_ limit
  exact .bind (.expect proper _) fun _ => .bind (.expression proper _) fun _ => limit

theorem updateStatement : Gathering d p ts true updateStatement := by
  refine .bind (.expect proper _) fun _ => .bind (.skipAll proper _) fun _ => .bind (.check _) fun _ => ?_
  refine .perhaps (topClause (r := false) proper).mono (.bind (.tableReferences proper) fun _ => ?_)
  refine .bind (.setClause proper) fun _ => .bind (.eat proper _) fun _ => .perhaps (.expression proper _) ?_
  refine .bind (.eat proper _) fun _ => .perhaps (.tableReferences proper) (.bind (.whereClause proper) fun _ => ?_)
  exact orderAndLimit proper

theorem deleteTargets : Gathering d p ts r deleteTargets := by
  refine .bind (.qualifiedName proper) fun first => .repeatFrom (fun targets => ?_) _
  exact .bind (.eat proper _) fun _ => .ite (.bind (.qualifiedName proper) fun _ => .pure) .pure

theorem deleteStatement : Gathering d p ts true deleteStatement := by
  have ending : Gathering d p ts true deleteEnd := by
    refine .bind (.eat proper _) fun _ => .perhaps (.expression proper _) (.bind (.eat proper _) fun _ => ?_)
    refine .perhaps (.tableReferences proper) (.bind (.whereClause proper) fun _ => orderAndLimit proper)
  have sources : Gathering d p ts true deleteSources := by
    refine .bind (.eat proper _) fun _ => .ite (.bind (.tableReferences proper) fun _ => ending) ?_
    refine .bind (deleteTargets proper) fun targets => .bind (.eat proper _) fun _ => ?_
    have records : Gathering d p ts true (do Walk.record (targets.foldl addTarget); deleteEnd) :=
      .bind (.record fun s => .addTargets targets s) fun _ => ending
    exact .perhaps (.tableReferences proper) records
  refine .bind (.expect proper _) fun _ => .bind (.skipAll proper _) fun _ => .bind (.check _) fun _ => ?_
  exact .perhaps (topClause (r := false) proper).mono sources

/-! ## Whole statements -/

theorem skipRest : Gathering d p ts r skipRest := by
  refine .repeatWhile (.bind (.bind (.of_stays (by rintro s a t ⟨⟩; rfl)) fun _ => .ite .pure (.check _)) fun ended => ?_)
  exact .ite .pure (.bind (.discards (.advance proper)) fun _ => .pure)

theorem createTable : Gathering d p ts r createTable := by
  refine .bind .cursor fun c => .bind (.expect proper _) fun _ => .bind (.skipAll proper _) fun _ => ?_
  refine .bind (.expect proper _) fun _ => .bind (.skipAll proper _) fun _ => ?_
  exact .bind (.discards (.tableName proper)) fun _ => skipRest proper

theorem dropTable : Gathering d p ts r dropTable := by
  have another : Gathering d p ts r (do
      if ← Walk.eat (.symbol .comma) then
        discard Walk.tableName
        return true
      else return false) :=
    .bind (.eat proper _) fun _ => .ite (.bind (.discards (.tableName proper)) fun _ => .pure) .pure
  refine .bind (.expect proper _) fun _ => .bind (.discards (.eat proper _)) fun _ => .bind (.expect proper _) fun _ => ?_
  refine .bind (.eat proper _) fun _ => .perhaps (.expect proper _) (.bind (.discards (.tableName proper)) fun _ => ?_)
  exact .bind (.repeatWhile another) fun _ => skipRest proper

theorem truncateTable : Gathering d p ts r truncateTable := by
  refine .bind (.expect proper _) fun _ => .bind (.discards (.eat proper _)) fun _ => ?_
  exact .bind (.discards (.tableName proper)) fun _ => skipRest proper

theorem alterTable : Gathering d p ts r alterTable := by
  refine .bind (.expect proper _) fun _ => .bind (.expect proper _) fun _ => .bind (.discards (.tableName proper)) fun _ => ?_
  refine .repeatWhile (.bind (.bind (.of_stays (by rintro s a t ⟨⟩; rfl)) fun _ => .ite .pure (.check _)) fun ended => ?_)
  refine .ite .pure (.bind (.eat proper _) fun _ => .ite (.bind (.discards (.tableName proper)) fun _ => .pure) ?_)
  exact .bind (.discards (.advance proper)) fun _ => .pure

theorem definitionStatement : Gathering d p ts r definitionStatement := by
  refine .bind (.check _) fun _ => .ite (createTable proper) (.bind (.check _) fun _ => .ite (dropTable proper) ?_)
  exact .bind (.check _) fun _ => .ite (truncateTable proper) (alterTable proper)

theorem wholeStatement (inOrder : InOrder ts) (kind : StatementKind) : Gathering d p ts true (wholeStatement kind) := by
  have statement : Gathering d p ts true (Walk.statementOf kind) := by
    cases kind with
    | select => exact query proper
    | insert => exact insertStatement proper inOrder
    | update => exact updateStatement proper
    | delete => exact deleteStatement proper
    | definition => exact definitionStatement proper
  refine .bind statement fun _ => .bind (.discards (.eat proper _)) fun _ => ?_
  exact .bind (.of_stays (by rintro s a t ⟨⟩; rfl)) fun _ => .ite (.fails failExpected_fails) .pure

end Walk.Gathering

end SqlSharding.Sql
