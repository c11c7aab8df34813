import SqlSharding.Proofs.Edits
import SqlSharding.Proofs.InsertSet
import SqlSharding.Proofs.TokensPassed

/-!
# INSERT with rows of values

`INSERT INTO t (…) VALUES` says of one row what its columns are. Columns and expressions belong together by their places. An
expression that is a plain value makes a condition, any other one makes none and is counted all the same. Of several rows nothing
but their number is recorded.
-/

namespace SqlSharding.Sql

/-! ## Plain values -/

namespace Literal

/-- The value that a token is. -/
def ofKind? : TokenKind → Option Literal
  | .integer i => some (.integer false i)
  | .float x => some (.float false x)
  | .string s => some (.string s)
  | .symbol .question => some .placeholder
  | _ => none

/-- The number that a token is with a minus sign before it. -/
def ofNegated? : TokenKind → Option Literal
  | .integer i => some (.integer true i)
  | .float x => some (.float true x)
  | _ => none

/-- The plain value that some tokens are: a number, which a minus sign may precede, a string or a placeholder. -/
def ofKinds? : List TokenKind → Option Literal
  | [k] => ofKind? k
  | [k, l] => if k = .symbol .minus then ofNegated? l else none
  | _ => none

theorem single_of_ofKind? {k : TokenKind} {v : Literal} (isValue : ofKind? k = some v) :
    k.isSingle = true ∧ k.isComma = false := by
  cases k with
  | integer | float | string => exact ⟨rfl, rfl⟩
  | symbol s => cases s <;> first | exact ⟨rfl, rfl⟩ | cases isValue
  | _ => cases isValue

theorem single_of_ofNegated? {k : TokenKind} {v : Literal} (isNumber : ofNegated? k = some v) :
    k.isSingle = true ∧ k.isComma = false := by
  cases k with
  | integer | float => exact ⟨rfl, rfl⟩
  | _ => cases isNumber

end Literal

/-- The operands of some expressions after some placeholders, for those that are plain values. -/
def plainOperands (n : Nat) : List (List TokenKind) → List (Option Operand)
  | [] => []
  | e :: es => (Literal.ofKinds? e).map (·.operand n) :: plainOperands (n + e.count (.symbol .question)) es

/-- The equalities of some columns and the expressions at their places, for those that are plain values. -/
def plainEqualities (n : Nat) : List WrittenColumn → List (List TokenKind) → List Condition
  | c :: cs, e :: es =>
    ((Literal.ofKinds? e).map fun v => ⟨⟨none, c.column.name⟩, .equal, [v.operand n]⟩).toList ++
      plainEqualities (n + e.count (.symbol .question)) cs es
  | _, _ => []

theorem plainOperands_concat (n : Nat) (es : List (List TokenKind)) (e : List TokenKind) :
    plainOperands n (es ++ [e]) = plainOperands n es ++
      [(Literal.ofKinds? e).map (·.operand (n + (commaEnded es).count (.symbol .question)))] := by
  induction es generalizing n with
  | nil => rfl
  | cons f es ih =>
    have counted : (commaEnded (f :: es)).count (.symbol .question) =
        f.count (.symbol .question) + (commaEnded es).count (.symbol .question) := by
      simp [commaEnded, List.count_append]
    rw [List.cons_append, plainOperands, plainOperands, ih, counted, Nat.add_assoc, List.cons_append]

theorem rowConditions_plainOperands (n : Nat) (columns : List WrittenColumn) (row : List (List TokenKind)) :
    Walk.rowConditions (columns.map (·.column.name)) (plainOperands n row) = plainEqualities n columns row := by
  induction columns generalizing n row with
  | nil => rfl
  | cons c columns ih =>
    cases row with
    | nil => rfl
    | cons e row =>
      rw [plainEqualities, ← ih, plainOperands, Walk.rowConditions, List.map_cons, List.zip_cons_cons]
      cases Literal.ofKinds? e <;> rfl

theorem foldl_add_empty (cs : List Condition) : cs.foldl Conditions.add .empty = ⟨cs, true⟩ := by
  have from_usable (done : List Condition) : cs.foldl Conditions.add ⟨done, true⟩ = ⟨done ++ cs, true⟩ := by
    induction cs generalizing done with
    | nil => rw [List.append_nil]; rfl
    | cons c cs ih =>
      rw [List.foldl_cons, Conditions.add, if_pos rfl, ih, List.append_assoc]
      rfl
  exact from_usable []

/-! ## What ends expressions -/

theorem TokenKind.sparesNames_isComma : SparesNames isComma := by
  intro k isPart
  cases k with
  | symbol s => cases s <;> first | rfl | cases isPart
  | _ => rfl

theorem TokenKind.sparesNames_endsAssignment : SparesNames endsAssignment := by
  intro k isPart
  cases k with
  | symbol s => cases s <;> first | rfl | cases isPart
  | keyword => cases isPart
  | _ => rfl

/-! ## What is passed and recorded -/

variable {d : Dialect} {p : Place} {v w x : Progress} {k : TokenKind} {l : Literal} {n : Nat} {ks : List TokenKind}

/-- What passing a plain value comes to if one stands here, or nothing but a minus sign if there is none. With the token behind
them the passed ones are no value. -/
structure Progress.PassesValue (v : Progress) (first : List TokenKind) (y : Option Operand) (w : Progress) : Prop where
  passes : v.Passes first w
  single : ∀ k ∈ first, k.isSingle = true ∧ k.isComma = false
  value : (Literal.ofKinds? first).map (·.operand v.placeholders) = y
  alone : ∀ later, Literal.ofKinds? (first ++ w.kind :: later) = none

namespace Progress.PassesValue

theorem nothing (noValue : Literal.ofKind? v.kind = none) (noMinus : v.kind ≠ .symbol .minus) : v.PassesValue [] none v := by
  refine ⟨.refl v, nofun, rfl, fun later => ?_⟩
  match later with
  | [] => exact noValue
  | [_] => exact if_neg noMinus
  | _ :: _ :: _ => rfl

theorem token (passes : v.Passes [k] w) (isValue : Literal.ofKind? k = some l) :
    v.PassesValue [k] (some (l.operand v.placeholders)) w := by
  refine ⟨passes, fun k' member => ?_, ?_, fun later => ?_⟩
  · rw [List.mem_singleton.mp member]
    exact Literal.single_of_ofKind? isValue
  · rw [Literal.ofKinds?, isValue]
    rfl
  · cases later with
    | nil =>
      refine if_neg ?_
      rintro rfl
      cases isValue
    | cons => rfl

theorem minus (passes : v.Passes [.symbol .minus] w) (noNumber : Literal.ofNegated? w.kind = none) :
    v.PassesValue [.symbol .minus] none w := by
  refine ⟨passes, fun k member => ?_, rfl, fun later => ?_⟩
  · rw [List.mem_singleton.mp member]
    exact ⟨rfl, rfl⟩
  · cases later with
    | nil => exact noNumber
    | cons => rfl

theorem negated (passes : v.Passes [.symbol .minus] w) (number : w.Passes [k] x) (isNumber : Literal.ofNegated? k = some l) :
    v.PassesValue [.symbol .minus, k] (some (l.operand v.placeholders)) x := by
  refine ⟨passes.trans number, fun k' member => ?_, ?_, fun _ => rfl⟩
  · rcases List.mem_cons.mp member with rfl | member
    · exact ⟨rfl, rfl⟩
    · rw [List.mem_singleton.mp member]
      exact Literal.single_of_ofNegated? isNumber
  · rw [Literal.ofKinds?, if_pos rfl, isNumber]
    rfl

end Progress.PassesValue

/-- The conditions with those that the values of a row put on the columns. -/
def InsertRecord.withRow (r : InsertRecord) (values : List (Option Operand)) : Conditions :=
  (Walk.rowConditions r.columns values).foldl Conditions.add r.conditions

/-- With the names of some more columns. -/
def InsertRecord.addColumns (r : InsertRecord) (columns : List WrittenColumn) : InsertRecord :=
  { r with columns := r.columns ++ columns.map (·.column.name) }

theorem InsertRecord.addColumns_nil (r : InsertRecord) : r.addColumns [] = r := by
  rw [addColumns, List.map_nil, List.append_nil]

theorem InsertRecord.addColumns_addColumns (r : InsertRecord) (columns more : List WrittenColumn) :
    (r.addColumns columns).addColumns more = r.addColumns (columns ++ more) := by
  rw [addColumns, addColumns, addColumns, List.map_append, List.append_assoc]

theorem InsertRecord.withRow_plainOperands (columns : List WrittenColumn) (row : List (List TokenKind)) :
    (InsertRecord.addColumns ⟨.empty, [], 0, []⟩ columns).withRow (plainOperands n row) = ⟨plainEqualities n columns row, true⟩ := by
  rw [← foldl_add_empty, ← rowConditions_plainOperands]
  rfl

/-- What is told of the rows of an INSERT. -/
structure InsertRecord.Tells (r : InsertRecord) (columns : List WrittenColumn) (rows : List (List (List TokenKind))) : Prop where
  count : r.rows = rows.length
  single : ∀ row, rows = [row] → r.conditions = ⟨plainEqualities 0 columns row, true⟩
  several : 1 < rows.length → r.conditions = .empty ∧ r.keys = []

/-- `INSERT INTO` with a table, its columns, and what follows `VALUES`. -/
def insertValuesKinds (t : WrittenTable) (columns : List WrittenColumn) (rest : List TokenKind) : List TokenKind :=
  .keyword .insert :: .keyword .into :: (t.kinds ++ .symbol .leftParen ::
    (listed (columns.map WrittenColumn.kinds) ++ .symbol .rightParen :: .keyword .values :: rest))

/-- The same progress with some rows counted. -/
def Progress.counting (v : Progress) (rows : Nat) : Progress := { v with record.rows := v.record.rows + rows }

theorem Progress.Passes.counting (passes : v.Passes ks w) (n : Nat) : (v.counting n).Passes ks (w.counting n) where
  kinds := passes.kinds
  placeholders := passes.placeholders
  record := by rw [Progress.counting, Progress.counting, passes.record]

theorem Progress.counting_add (v : Progress) (m n : Nat) : v.counting (m + n) = (v.counting m).counting n := by
  rw [counting, counting, counting, Nat.add_assoc]

/-- The operands of some expressions with a comma behind each. -/
def Progress.PassesValues (v : Progress) (values : List (Option Operand)) (w : Progress) : Prop :=
  ∃ es, (∀ e ∈ es, Balanced TokenKind.isComma e) ∧ v.Passes (commaEnded es) w ∧ values = plainOperands v.placeholders es

/-- The operands of the expressions of a row. -/
def Progress.PassesRow (v : Progress) (values : List (Option Operand)) (w : Progress) : Prop :=
  ∃ row, IsRow row ∧ v.Passes (listed row) w ∧ values = plainOperands v.placeholders row

theorem Progress.PassesValues.noQuery {values : List (Option Operand)} (passed : v.PassesValues values w)
    (noQuery : v.NoQuery) : w.NoQuery := by
  obtain ⟨es, -, passes, -⟩ := passed
  exact passes.noQuery noQuery

namespace Walk.Yields

/-! ## Rows -/

theorem value? : Yields d p Walk.value? v fun y w => ∃ first, v.PassesValue first y w := by
  have passed {k : TokenKind} {l : Literal} (isKind : v.kind = k) (isValue : Literal.ofKind? k = some l)
      (inside : k ≠ .endOfInput) : Yields d p (do discard Walk.advance; return some (l.operand v.placeholders)) v
        fun y w => ∃ first, v.PassesValue first y w :=
    advance_then isKind inside fun _ passes => pure ⟨_, .token passes isValue⟩
  have nothing {k : TokenKind} (isKind : v.kind = k) (noValue : Literal.ofKind? k = none) (noMinus : k ≠ .symbol .minus) :
      Yields d p (return none) v fun y w => ∃ first, v.PassesValue first y w := by
    subst isKind
    exact pure ⟨_, .nothing noValue noMinus⟩
  refine kind ?_
  cases isKind : v.kind with
  | integer | float | string => exact passed isKind rfl nofun
  | symbol sign =>
    cases sign with
    | question => exact parameterIndex (passed (l := .placeholder) isKind rfl nofun)
    | minus =>
      refine advance_then isKind nofun fun w minus => kind ?_
      cases next : w.kind with
      | integer | float => exact advance_then next nofun fun _ number => pure ⟨_, .negated minus number rfl⟩
      | _ => exact pure ⟨_, .minus minus (by rw [next]; rfl)⟩
    | _ => exact nothing isKind rfl nofun
  | _ => exact nothing isKind rfl nofun

/-- Behind an expression a comma goes on with the row, and a closing parenthesis ends it. -/
theorem rowGoesOn {values : List (Option Operand)} {e : List TokenKind} {z : Option Operand} (before : v.PassesValues values w)
    (passes : w.Passes e x) (balanced : Balanced TokenKind.isComma e)
    (value : x.kind = .symbol .comma ∨ x.kind = .symbol .rightParen → (Literal.ofKinds? e).map (·.operand w.placeholders) = z) :
    Yields d p (do return (← Walk.eat (.symbol .comma), values ++ [z])) x fun r u =>
      if r.1 = true then v.PassesValues r.2 u else u.kind = .symbol .rightParen → v.PassesRow r.2 u := by
  obtain ⟨es, areBalanced, passed, rfl⟩ := before
  have areBalanced' : ∀ f ∈ es ++ [e], Balanced TokenKind.isComma f :=
    List.forall_mem_append.mpr ⟨areBalanced, List.forall_mem_singleton.mpr balanced⟩
  have values (ends : x.kind = .symbol .comma ∨ x.kind = .symbol .rightParen) :
      plainOperands v.placeholders es ++ [z] = plainOperands v.placeholders (es ++ [e]) := by
    rw [plainOperands_concat, ← passed.placeholders, value ends]
  refine eat_then rfl (fun isComma u comma => pure ⟨es ++ [e], areBalanced', ?_, values (.inl isComma)⟩) fun _ =>
    pure fun closes => ⟨es ++ [e], ⟨List.concat_ne_nil e es, areBalanced'⟩, ?_, values (.inr closes)⟩
  · rw [commaEnded_concat]
    exact passed.trans (passes.trans comma)
  · rw [listed_concat]
    exact passed.trans passes

/-- The expressions of a row are those between the commas. A value with more behind it is none. -/
theorem rowValues (noQuery : v.NoQuery) :
    Yields d p Walk.rowValues v fun values w => w.kind = .symbol .rightParen → v.PassesRow values w := by
  refine repeatFrom (J := v.PassesValues) (fun values w before => ?_) ⟨[], nofun, .refl v, rfl⟩
  refine bind value? fun y x ⟨first, passed⟩ => checkAny _ ?_
  have singles : Balanced TokenKind.isComma first := .of_singles passed.single
  cases isPlain : y.isSome && [.symbol .comma, .symbol .rightParen].any x.kind.sameShape with
  | false =>
    have left := passed.passes.noQuery (before.noQuery noQuery)
    refine bind (expression TokenKind.sparesNames_isComma left) fun _ u ⟨ks, passes, more⟩ => ?_
    refine rowGoesOn before (passed.passes.trans passes) (singles.append more) fun ends => ?_
    cases ks with
    | nil =>
      -- nothing is behind the value, so what ends the expression would have been seen
      have stays : x.kind = u.kind := congrArg (·.head?.getD .endOfInput) passes.kinds
      have noValue : y.isSome = false := by
        rcases ends with isEnd | isEnd <;> simpa [stays, isEnd, TokenKind.sameShape] using isPlain
      rw [List.append_nil, passed.value]
      exact Option.not_isSome_iff_eq_none.mp (Bool.eq_false_iff.mp noValue)
    | cons k ks =>
      have next : x.kind = k := congrArg (·.head?.getD .endOfInput) passes.kinds
      rw [← next, passed.alone]
      rfl
  | true => exact rowGoesOn before passed.passes singles fun _ => passed.value

theorem valuesRow (noQuery : v.NoQuery) : Yields d p Walk.valuesRow v fun r w =>
    ∃ row, IsRow row ∧ v.Passes (rowKinds row) w ∧ r.values = plainOperands v.placeholders row := by
  refine bind (expect rfl) fun _ w ⟨_, opens⟩ => bind (rowValues (opens.noQuery noQuery)) fun values x inside => cursor fun c => ?_
  refine bind (expect rfl) fun _ y ⟨closes, last⟩ => pure ?_
  obtain ⟨row, isRow, passes, rfl⟩ := inside closes
  refine ⟨row, isRow, opens.trans (passes.trans last), ?_⟩
  rw [opens.placeholders]
  rfl

/-- Every row is counted, and the values of the first one are kept. -/
theorem countedRows (noQuery : v.NoQuery) : Yields d p (Walk.repeatFrom none fun (first? : Option ValuesRow) => do
    let row ← Walk.valuesRow
    Walk.record fun s => { s with insertRows := s.insertRows + 1 }
    return (← Walk.eat (.symbol .comma), first?.or (some row))) v fun first? w =>
      ∃ rows, SplitsInto v.kinds rows w.kinds ∧ w.record = (v.counting rows.length).record ∧
        first?.map (·.values) = rows.head?.map (plainOperands v.placeholders) := by
  refine repeatFrom (J := fun first? w => ∃ rows, (∀ row ∈ rows, IsRow row) ∧
    (v.counting rows.length).Passes (commaEnded (rows.map rowKinds)) w ∧
      first?.map (·.values) = rows.head?.map (plainOperands v.placeholders)) ?_ ⟨[], nofun, .refl v, rfl⟩
  rintro first? w ⟨rows, areRows, before, first⟩
  refine bind (valuesRow (before.noQuery noQuery)) fun r x ⟨row, isRow, passes, values⟩ => ?_
  have counts (s : Statement) (same : s.insertRecord = x.record) :
      { s with insertRows := s.insertRows + 1 }.insertRecord = (x.counting 1).record := by
    rw [Progress.counting, ← same]
    rfl
  refine bind (record counts) fun _ _ counted => ?_
  obtain rfl : _ = x.counting 1 := counted
  have areRows' : ∀ row' ∈ rows ++ [row], IsRow row' :=
    List.forall_mem_append.mpr ⟨areRows, List.forall_mem_singleton.mpr isRow⟩
  have passed : (v.counting (rows ++ [row]).length).Passes (commaEnded (rows.map rowKinds) ++ rowKinds row) (x.counting 1) := by
    rw [List.length_append, List.length_singleton, Progress.counting_add]
    exact (before.trans passes).counting 1
  have first' : (first?.or (some r)).map (·.values) = (rows ++ [row]).head?.map (plainOperands v.placeholders) := by
    cases rows with
    | nil =>
      obtain rfl : first? = none := Option.map_eq_none_iff.mp first
      have none : w.placeholders = v.placeholders := before.placeholders
      rw [none] at values
      exact congrArg some values
    | cons row' rows =>
      obtain ⟨r', rfl, isFirst⟩ := Option.map_eq_some_iff.mp first
      exact congrArg some isFirst
  refine eat_then rfl (fun _ y comma => pure ⟨rows ++ [row], areRows', ?_, first'⟩) fun noComma => pure ⟨rows ++ [row], ?_, ?_, first'⟩
  · rw [List.map_append, List.map_singleton, commaEnded_concat, ← List.append_assoc]
    exact passed.trans comma
  · refine ⟨?_, List.concat_ne_nil row rows, areRows', fun isComma => noComma ?_⟩
    · rw [List.map_append, List.map_singleton, listed_concat]
      exact passed.kinds
    · rw [Progress.kind, isComma]
      rfl
  · exact passed.record

/-- What is recorded of the only row. -/
theorem singleRow (r : ValuesRow) (columnsEnd? : Option Nat) : Yields d p (do
    Walk.record fun s => (Walk.rowConditions s.insertColumns r.values).foldl Statement.addCondition s
    match columnsEnd? with
    | none => Pure.pure ()
    | some columnsEnd => Walk.record (·.addPoint (.generatedKey columnsEnd r.valuesEnd r.parameterIndex))) v fun _ w =>
      w.kinds = v.kinds ∧ w.record.rows = v.record.rows ∧ w.record.conditions = v.record.withRow r.values := by
  have stored (s : Statement) (same : s.insertRecord = v.record) :
      ((Walk.rowConditions s.insertColumns r.values).foldl Statement.addCondition s).insertRecord =
        { v.record with conditions := v.record.withRow r.values } := by
    rw [Statement.foldl_addCondition, ← same]
    rfl
  have keyed (columnsEnd : Nat) (s : Statement) {r' : InsertRecord} (same : s.insertRecord = r') :
      (s.addPoint (.generatedKey columnsEnd r.valuesEnd r.parameterIndex)).insertRecord =
        { r' with keys := r'.keys ++ [.generatedKey columnsEnd r.valuesEnd r.parameterIndex] } := by
    subst same
    simp [Statement.insertRecord, Statement.addPoint, RewritePoint.isKey]
  refine bind (record stored) fun _ w recorded => ?_
  subst recorded
  cases columnsEnd? with
  | none => exact pure ⟨rfl, rfl, rfl⟩
  | some columnsEnd =>
    refine mono (record fun s => keyed columnsEnd s) fun _ x recorded => ?_
    subst recorded
    exact ⟨rfl, rfl, rfl⟩

theorem valuesRows (noQuery : v.NoQuery) (noRow : v.record.rows = 0) (columnsEnd? : Option Nat) :
    Yields d p (Walk.valuesRows columnsEnd?) v fun _ w => ∃ rows, SplitsInto v.kinds rows w.kinds ∧
      w.record.rows = rows.length ∧
      (∀ row, rows = [row] → w.record.conditions = v.record.withRow (plainOperands v.placeholders row)) ∧
      (1 < rows.length → w.record.conditions = v.record.conditions ∧ w.record.keys = v.record.keys) := by
  refine bind (countedRows noQuery) fun first? w ⟨rows, splits, counted, first⟩ => statement fun s same => ?_
  have count : w.record.rows = rows.length := by rw [counted, Progress.counting, noRow, Nat.zero_add]
  have isCount : s.insertRows = rows.length := (congrArg InsertRecord.rows same).trans count
  refine ite (fun single => ?_) fun several => ?_
  · obtain ⟨row, rfl⟩ := List.length_eq_one_iff.mp (isCount.symm.trans single)
    obtain ⟨r, rfl, values⟩ := Option.map_eq_some_iff.mp first
    refine mono (singleRow r columnsEnd?) fun _ x ⟨kinds, sameCount, conditions⟩ => ?_
    refine ⟨[row], kinds ▸ splits, sameCount.trans count, fun row' same => ?_, fun several => absurd several (Nat.lt_irrefl 1)⟩
    obtain rfl := List.singleton_inj.mp same
    rw [conditions, values, counted]
    rfl
  · refine pure ⟨rows, splits, count, ?_, ?_⟩
    · rintro row rfl
      exact absurd isCount several
    · rw [counted]
      exact fun _ => ⟨rfl, rfl⟩

/-! ## Columns -/

/-- What is known of a walk from every state that shows a view, with what it leaves as it is. -/
theorem of_reaches {α : Type} {m : Walk α} {Q : α → Prop} {cs : Conditions}
    (reaches : ∀ text, Proper text → Reaches d p text m ⟨v.placeholders, v.kinds, v.record.conditions⟩ Q ⟨n, ks, cs⟩)
    (silent : Yields d p m v fun _ w => w.record = v.record) : Yields d p m v fun a w => Q a ∧ w = ⟨n, ks, v.record⟩ := by
  intro s a u reached run
  obtain ⟨w, same, -, -, -, -, recorded⟩ := silent s a u reached run
  obtain ⟨ts, proper, atCursor, kinds, record⟩ := reached
  obtain ⟨b, t, run', holds, us, suffix, atCursor', kinds', -⟩ :=
    reaches ts proper s ⟨ts, List.suffix_refl ts, atCursor, kinds, congrArg InsertRecord.conditions record⟩
  obtain ⟨rfl, rfl⟩ : a = b ∧ u = t := by
    rw [run] at run'
    cases run'
    exact ⟨rfl, rfl⟩
  exact ⟨_, ⟨holds, rfl⟩, us, fun t member => proper t (suffix.subset member), atCursor', kinds', recorded.trans same⟩

theorem namedColumn : Yields d p Walk.namedColumn v fun _ w => v.PassesOf (·.isNamePart = true) w := by
  refine bind column fun c? w passed => ?_
  cases c? with
  | none => exact fails Walk.failExpected_fails
  | some => exact pure passed

theorem tableName_silent : Yields d p Walk.tableName v fun _ w => w.record = v.record := by
  have named : Yields d p Walk.qualifiedName v fun _ w => w.record = v.record := by
    refine bind identifier fun first w ⟨_, passes, _⟩ => eat_then rfl (fun _ x dot => ?_) fun _ => pure passes.record
    refine mono identifier fun _ y ⟨_, passes', _⟩ => ?_
    rw [passes'.record, dot.record, passes.record]
  refine bind named fun name w same => bind (record (r := v.record) fun s recorded => ?_) fun _ x recorded => pure ?_
  · rw [← same, ← recorded]
    simp [Statement.insertRecord, Statement.addTable, RewritePoint.ofTable, RewritePoint.isKey]
  · rw [recorded]

variable {r : InsertRecord}

theorem writtenColumn (c : WrittenColumn) (noDot : firstKind ks ≠ .symbol .dot) :
    Yields d p Walk.namedColumn ⟨n, c.kinds ++ ks, r⟩ fun x w => x = c.column ∧ w = ⟨n, ks, r⟩ :=
  of_reaches (fun _ proper => .namedColumn proper c noDot) (mono namedColumn fun _ _ ⟨_, passes, _⟩ => passes.record)

theorem writtenTable (t : WrittenTable) (noDot : firstKind ks ≠ .symbol .dot) :
    Yields d p (discard Walk.tableName) ⟨n, t.kinds ++ ks, r⟩ fun _ w => w = ⟨n, ks, r⟩ :=
  discarded (mono (of_reaches (fun _ proper => .tableName proper t noDot) tableName_silent) fun _ _ ended => ended.2)

theorem columnRound (c : WrittenColumn) (rest : List WrittenColumn) : Yields d p (do
      let column ← Walk.namedColumn
      Walk.record fun s => { s with insertColumns := s.insertColumns ++ [column.name] }
      Walk.eat (.symbol .comma))
    ⟨n, listed ((c :: rest).map WrittenColumn.kinds) ++ .symbol .rightParen :: ks, r⟩ fun again w =>
      if again = true then rest ≠ [] ∧ w = ⟨n, listed (rest.map WrittenColumn.kinds) ++ .symbol .rightParen :: ks, r.addColumns [c]⟩
      else rest = [] ∧ w = ⟨n, .symbol .rightParen :: ks, r.addColumns [c]⟩ := by
  obtain ⟨behind, split, here⟩ := exists_behind_first WrittenColumn.kinds c rest (.symbol .rightParen :: ks)
  have noDot : firstKind behind ≠ .symbol .dot := by
    rcases here with ⟨-, rfl⟩ | ⟨-, rfl⟩ <;> nofun
  rw [split]
  refine bind (writtenColumn c noDot) fun x w ⟨isColumn, isRest⟩ => ?_
  subst isColumn isRest
  have adds (s : Statement) (same : s.insertRecord = r) :
      { s with insertColumns := s.insertColumns ++ [c.column.name] }.insertRecord = r.addColumns [c] := by
    subst same
    rfl
  refine bind (record adds) fun _ x recorded => ?_
  subst recorded
  refine mono (eat (k := .symbol .comma) rfl) fun again y ended => ?_
  rcases here with ⟨last, rfl⟩ | ⟨more, rfl⟩
  · cases again with
    | true => cases ended.1
    | false => exact ⟨last, ended.2⟩
  · cases again with
    | true => exact ⟨more, ended.2.eq_of_kinds rfl⟩
    | false => exact absurd rfl ended.1

/-- The names of the columns are recorded in the order in which they are written. -/
theorem insertColumns (columns : List WrittenColumn) (nonempty : columns ≠ [])
    (noQuery : .keyword .select ∉ listed (columns.map WrittenColumn.kinds) ++ .symbol .rightParen :: ks) :
    Yields d p Walk.insertColumns
      ⟨n, .symbol .leftParen :: (listed (columns.map WrittenColumn.kinds) ++ .symbol .rightParen :: ks), r⟩
      fun _ w => w = ⟨n, ks, r.addColumns columns⟩ := by
  refine check _ (ite (fun other => nomatch other) fun _ => peek fun k ahead => ite (fun isQuery => ?_) fun _ => ?_)
  · subst isQuery
    rcases ahead with isEnd | member
    · cases isEnd
    · rcases List.mem_cons.mp member with isParen | member
      · cases isParen
      · exact absurd member noQuery
  refine advance_then (k := .symbol .leftParen) rfl nofun fun w opens => ?_
  obtain rfl : w = ⟨n, _, r⟩ := opens.eq_of_kinds rfl
  refine bind (repeatWhile (J := fun w => ∃ done rest, rest ≠ [] ∧ columns = done ++ rest ∧
      w = ⟨n, listed (rest.map WrittenColumn.kinds) ++ .symbol .rightParen :: ks, r.addColumns done⟩)
    (K := fun w => w = ⟨n, .symbol .rightParen :: ks, r.addColumns columns⟩)
    ?_ ⟨[], columns, nonempty, rfl, by rw [r.addColumns_nil]; rfl⟩) fun _ w ended => ?_
  · rintro w ⟨done, rest, more, rfl, rfl⟩
    obtain ⟨c, rest, rfl⟩ := List.exists_cons_of_ne_nil more
    refine mono (columnRound c rest) fun again x ended => ?_
    cases again with
    | true => exact ⟨done ++ [c], rest, ended.1, by simp, by rw [ended.2, r.addColumns_addColumns]⟩
    | false =>
      obtain ⟨rfl, rfl⟩ := ended
      rw [if_neg Bool.false_ne_true, r.addColumns_addColumns]
  · subst ended
    exact cursor fun c => bind (expect rfl) fun _ w ⟨_, closes⟩ => pure (closes.eq_of_kinds rfl)

/-! ## The statement -/

/-- Assignments that are no conditions leave what is recorded of the rows. -/
theorem assignments_silent (noQuery : v.NoQuery) : Yields d p (Walk.assignments false) v fun _ w => w.record = v.record := by
  refine repeatWhile (J := fun w => ∃ ks, v.Passes ks w) (K := fun w => w.record = v.record) ?_ ⟨[], .refl v⟩
  rintro w ⟨ks, before⟩
  refine bind namedColumn fun _ x ⟨_, column, _⟩ => bind (expect (k := .symbol .eq) rfl) fun _ y ⟨_, isSet⟩ => ?_
  have passed := (before.trans column).trans isSet
  refine bind (expression TokenKind.sparesNames_endsAssignment (passed.noQuery noQuery)) fun _ z ⟨_, value, _⟩ => ?_
  refine mono (eat (k := .symbol .comma) rfl) fun again u ended => ?_
  cases again with
  | true => exact ⟨_, (passed.trans value).trans ended.2⟩
  | false => exact ended.2 ▸ (passed.trans value).record

theorem duplicateKeyUpdate (noQuery : v.NoQuery) : Yields d p (do
    if ← Walk.eat (.keyword .on) then
      discard (Walk.expect (.keyword .duplicate))
      discard (Walk.expect (.keyword .key))
      discard (Walk.expect (.keyword .update))
      assignments false) v fun _ w => w.record = v.record := by
  refine eat_then rfl (fun _ w on => ?_) fun _ => pure rfl
  refine bind (expect rfl) fun _ x ⟨_, duplicate⟩ => bind (expect rfl) fun _ y ⟨_, key⟩ => bind (expect rfl) fun _ z ⟨_, update⟩ => ?_
  have passed := ((on.trans duplicate).trans key).trans update
  exact mono (assignments_silent (passed.noQuery noQuery)) fun _ _ same => same.trans passed.record

theorem into {ks : List TokenKind} : Yields d p (discard (Walk.eat (.keyword .into))) ⟨n, .keyword .into :: ks, r⟩
    fun _ w => w = ⟨n, ks, r⟩ := by
  refine discarded (mono (eat rfl) fun found w ended => ?_)
  cases found with
  | true => exact ended.2.eq_of_kinds rfl
  | false => exact absurd rfl ended.1

theorem noModifiers (isKind : v.kind = k) (other : k ∉ Walk.insertModifiers) :
    Yields d p (Walk.skipAll Walk.insertModifiers) v fun _ w => w = v := by
  refine repeatWhile (J := (· = v)) (K := (· = v)) ?_ rfl
  rintro _ rfl
  refine mono (eatAny (by decide)) fun found x ended => ?_
  cases found with
  | true => exact absurd (isKind ▸ ended.1) other
  | false => exact ended.2

theorem valuesSource (noQuery : .keyword .select ∉ ks) (noRow : r.rows = 0) (columnsEnd? : Option Nat) :
    Yields d p (Walk.insertSource columnsEnd?) ⟨n, .keyword .values :: ks, r⟩ fun _ w => ∃ rows, SplitsInto ks rows w.kinds ∧
      w.record.rows = rows.length ∧ (∀ row, rows = [row] → w.record.conditions = r.withRow (plainOperands n row)) ∧
      (1 < rows.length → w.record.conditions = r.conditions ∧ w.record.keys = r.keys) := by
  refine bind (eatAny (by decide)) fun found w ended => ?_
  cases found with
  | true =>
    obtain rfl : w = ⟨n, ks, r⟩ := ended.2.eq_of_kinds rfl
    exact ite (fun _ => valuesRows (v := ⟨n, ks, r⟩) noQuery noRow columnsEnd?) fun other => absurd rfl other
  | false => exact absurd (by decide : TokenKind.keyword .values ∈ [.keyword .values, .keyword .value]) ended.1

/-- An INSERT is read as it is written up to `VALUES`. Then come its rows and whatever follows them. -/
theorem insertValues (t : WrittenTable) (columns : List WrittenColumn) (nonempty : columns ≠ []) {rest : List TokenKind}
    (noQuery : .keyword .select ∉ insertValuesKinds t columns rest) :
    Yields d p Walk.insertStatement ⟨0, insertValuesKinds t columns rest, ⟨.empty, [], 0, []⟩⟩ fun _ w =>
      ∃ rows tail, SplitsInto rest rows tail ∧ w.record.Tells columns rows := by
  have inColumns : .keyword .select ∉ listed (columns.map WrittenColumn.kinds) ++ .symbol .rightParen :: .keyword .values :: rest :=
    fun member => noQuery (List.mem_cons_of_mem _ (List.mem_cons_of_mem _ (List.mem_append_right _ (List.mem_cons_of_mem _ member))))
  have inRest : .keyword .select ∉ rest :=
    fun member => inColumns (List.mem_append_right _ (List.mem_cons_of_mem _ (List.mem_cons_of_mem _ member)))
  refine bind (expectAny (by decide) _) fun _ w ⟨_, verb⟩ => ?_
  obtain rfl : w = ⟨0, _, _⟩ := verb.eq_of_kinds rfl
  refine bind (noModifiers (k := .keyword .into) rfl (by decide)) fun _ w same => ?_
  subst same
  refine bind into fun _ w same => ?_
  subst same
  refine bind (writtenTable t nofun) fun _ w same => ?_
  subst same
  refine bind (insertColumns columns nonempty inColumns) fun columnsEnd? w same => ?_
  subst same
  refine eat_then (k := .keyword .output) rfl (fun isOutput => nomatch isOutput) fun _ => ?_
  refine bind (valuesSource inRest rfl columnsEnd?) fun _ w ⟨rows, splits, count, single, several⟩ => ?_
  have left : w.NoQuery := fun member => inRest (splits.split ▸ List.mem_append_right _ member)
  refine mono (duplicateKeyUpdate left) fun _ x same => ⟨rows, w.kinds, splits, ?_⟩
  rw [same]
  exact ⟨count, fun row isRow => (single row isRow).trans (InsertRecord.withRow_plainOperands columns row), several⟩

theorem wholeInsertValues (t : WrittenTable) (columns : List WrittenColumn) (nonempty : columns ≠ []) {rest : List TokenKind}
    (noQuery : .keyword .select ∉ insertValuesKinds t columns rest) :
    Yields d p (Walk.wholeStatement .insert) ⟨0, insertValuesKinds t columns rest, ⟨.empty, [], 0, []⟩⟩ fun _ w =>
      ∃ rows tail, SplitsInto rest rows tail ∧ w.record.Tells columns rows := by
  refine bind (insertValues t columns nonempty noQuery) fun _ w ⟨rows, tail, splits, tells⟩ => ?_
  refine bind (discarded (P := fun _ x => x.record = w.record) (mono (eat rfl) fun found x ended => ?_)) fun _ x same => ?_
  · cases found with
    | true => exact ended.2.record
    | false => exact congrArg Progress.record ended.2
  · refine anyway (fun s a u run => by cases run; rfl) fun atEnd => ite (fun _ => fails Walk.failExpected_fails) fun _ => pure ?_
    exact ⟨rows, tail, splits, same ▸ tells⟩

end Walk.Yields

/-! ## Texts -/

theorem unqualified_of_plainEqualities {columns : List WrittenColumn} {row : List (List TokenKind)} {c : Condition}
    (member : c ∈ plainEqualities n columns row) : c.column.table = none := by
  induction columns generalizing n row with
  | nil => cases member
  | cons column columns ih =>
    cases row with
    | nil => cases member
    | cons e row =>
      rcases List.mem_append.mp member with here | later
      · obtain ⟨v, -, rfl⟩ := Option.map_eq_some_iff.mp (Option.mem_toList.mp here)
        rfl
      · exact ih later

theorem Conditions.resolveOwners_of_unqualified {cs : Conditions} (unqualified : ∀ c ∈ cs.entries, c.column.table = none)
    (ts : Tables) : cs.resolveOwners ts = cs := by
  obtain ⟨entries, usable⟩ := cs
  refine congrArg (Conditions.mk · usable) ((List.map_congr_left fun c member => ?_).trans (List.map_id entries))
  obtain ⟨⟨table, name⟩, operator, values⟩ := c
  obtain rfl : table = none := unqualified _ member
  rfl

theorem Statement.generatedKeyPoint?_finish {s : Statement} (noKey : s.points.filter (·.isKey) = []) (n : Nat) :
    (s.finish n).generatedKeyPoint? = none := by
  rw [generatedKeyPoint?, List.findSome?_eq_none_iff]
  intro q member
  cases q with
  | generatedKey columnsEnd valuesEnd index =>
    rcases List.mem_append.mp (Statement.mem_sortPoints.mp member) with recorded | owner
    · exact absurd rfl (List.filter_eq_nil_iff.mp noKey _ recorded)
    · obtain ⟨x, -, isTable⟩ := List.mem_map.mp owner
      cases isTable
  | _ => rfl

/-- **Columns and values belong together by their places.** An INSERT without queries is a list of rows and what follows them. Of one
row the conditions are the equalities of the columns whose expression is a plain value, a placeholder with its own number; of
several rows there are no conditions and no place for a key. -/
theorem parse_insertValues {sql : String} {stmt : Statement} (parsed : parse d sql = .ok stmt) (t : WrittenTable)
    (columns : List WrittenColumn) (nonempty : columns ≠ []) {rest : List TokenKind}
    (written : (tokenize d sql).map (·.map (·.kind)) = .ok (insertValuesKinds t columns rest ++ [.endOfInput]))
    (noQuery : .keyword .select ∉ insertValuesKinds t columns rest) :
    (∃ rows tail, SplitsInto rest rows tail) ∧ ∀ rows tail, SplitsInto rest rows tail →
      stmt.insertRows = rows.length ∧
      (∀ row, rows = [row] → stmt.conditions = ⟨plainEqualities 0 columns row, true⟩) ∧
      (1 < rows.length → stmt.conditions = .empty ∧ stmt.generatedKeyPoint? = none) := by
  obtain ⟨kind, p, ts, n, s, reads, begins, run, rfl⟩ := parse_eq_ok_iff.mp parsed
  have kinds : ts.map (·.kind) = insertValuesKinds t columns rest := by
    rw [tokenize_of_reads reads] at written
    exact (List.append_inj' (List.map_append.symm.trans (Except.ok.inj written)) rfl).1
  obtain rfl : kind = .insert := by
    obtain ⟨u, us, rfl, isInsert, -⟩ := List.map_eq_cons_iff.mp kinds
    have first : (Cursor.along d p 0 (u :: us)).kind = .keyword .insert := isInsert
    rw [first] at begins
    exact (Option.some.inj begins).symm
  have start : WalkState.Reached d p ⟨0, insertValuesKinds t columns rest, ⟨.empty, [], 0, []⟩⟩ ⟨.along d p 0 ts, .ofKind .insert⟩ :=
    ⟨ts, reads.proper, rfl, kinds, rfl⟩
  obtain ⟨w, ⟨rows, tail, splits, tells⟩, -, -, -, -, record⟩ :=
    Walk.Yields.wholeInsertValues t columns nonempty noQuery _ _ _ start run
  rw [← record] at tells
  refine ⟨⟨rows, tail, splits⟩, fun rows' tail' splits' => ?_⟩
  obtain ⟨rfl, rfl⟩ := splits.unique splits'
  refine ⟨tells.count, fun row isRow => ?_, fun several => ⟨?_, Statement.generatedKeyPoint?_finish (tells.several several).2 n⟩⟩
  · exact (congrArg (Conditions.resolveOwners · s.tables) (tells.single row isRow)).trans
      (Conditions.resolveOwners_of_unqualified (fun _ => unqualified_of_plainEqualities) _)
  · exact congrArg (Conditions.resolveOwners · s.tables) (tells.several several).1

/-- `? + 1, ?, -7, (5)`. -/
def calculatedRow : List (List TokenKind) :=
  [[.symbol .question, .symbol .plus, .integer 1], [.symbol .question], [.symbol .minus, .integer 7],
    [.symbol .leftParen, .integer 5, .symbol .rightParen]]

theorem isRow_calculatedRow : IsRow calculatedRow := by
  have singles {ks : List TokenKind} (single : ∀ k ∈ ks, k.isSingle = true ∧ k.isComma = false) : Balanced TokenKind.isComma ks :=
    .of_singles single
  have five : Balanced TokenKind.endsNothing [.integer 5] := .of_singles (by decide)
  refine ⟨nofun, fun e member => ?_⟩
  obtain rfl | rfl | rfl | rfl : e = [.symbol .question, .symbol .plus, .integer 1] ∨ e = [.symbol .question] ∨
      e = [.symbol .minus, .integer 7] ∨ e = [.symbol .leftParen, .integer 5, .symbol .rightParen] := by
    simpa [calculatedRow] using member
  · exact singles (by decide)
  · exact singles (by decide)
  · exact singles (by decide)
  · exact .group five .nil

/-- A placeholder in an expression is counted, the plain values behind it keep their columns, and a value in parentheses is none. -/
theorem parse_insertValues_calculated : ∃ stmt,
    parse .mysql "INSERT INTO t (a, b, c, d) VALUES (? + 1, ?, -7, (5)) ON DUPLICATE KEY UPDATE d = ?" = .ok stmt ∧
      stmt.insertRows = 1 ∧ stmt.conditions =
        ⟨[⟨⟨none, "b"⟩, .equal, [.placeholder 1]⟩, ⟨⟨none, "c"⟩, .equal, [.literal (.integer (-7))]⟩], true⟩ := by
  have drafted : draft? .mysql "INSERT INTO t (a, b, c, d) VALUES (? + 1, ?, -7, (5)) ON DUPLICATE KEY UPDATE d = ?" =
      some (⟨.insert, ⟨[⟨"t", none⟩]⟩,
        ⟨[⟨⟨none, "b"⟩, .equal, [.placeholder 1]⟩, ⟨⟨none, "c"⟩, .equal, [.literal (.integer (-7))]⟩], true⟩,
        [.table ⟨12, 13⟩ "t" none, .generatedKey 25 52 2], 0, none, ["a", "b", "c", "d"], 1, []⟩, 3) := by decide +kernel
  have tokens : (tokenize .mysql "INSERT INTO t (a, b, c, d) VALUES (? + 1, ?, -7, (5)) ON DUPLICATE KEY UPDATE d = ?").map
      (·.map (·.kind)) = .ok (insertValuesKinds ⟨none, ⟨"t", none⟩⟩
        [⟨⟨"a", none⟩, []⟩, ⟨⟨"b", none⟩, []⟩, ⟨⟨"c", none⟩, []⟩, ⟨⟨"d", none⟩, []⟩]
        (rowKinds calculatedRow ++ (duplicateKey ++ [.identifier "d", .symbol .eq, .symbol .question])) ++ [.endOfInput]) := by
    decide +kernel
  obtain ⟨-, told⟩ := parse_insertValues (parse_of_draft drafted) _ _ (List.cons_ne_nil _ _) tokens (by decide +kernel)
  obtain ⟨count, single, -⟩ := told [calculatedRow] _
    ⟨rfl, nofun, fun row member => List.mem_singleton.mp member ▸ isRow_calculatedRow, nofun⟩
  refine ⟨_, parse_of_draft drafted, count, (single calculatedRow rfl).trans ?_⟩
  rfl

end SqlSharding.Sql
