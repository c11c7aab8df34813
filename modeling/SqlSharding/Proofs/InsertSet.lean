import SqlSharding.Proofs.Expressions
import SqlSharding.Proofs.Runs

/-!
# INSERT with assignments

`INSERT INTO t SET` says of one row what its columns are. An assignment of a plain value is a condition, because it says where
the row belongs; one whose value goes on is none. What follows the last assignment is read as a part of its value
unless one of a few words begins it, and `ON DUPLICATE KEY UPDATE` is not among them: the last assignment before it is
no condition, and those behind its first comma are.
-/

namespace SqlSharding.Sql

theorem TokenKind.endsAssignment_of_isOperand {k : TokenKind} (isOperand : k.isOperand = true) : k.endsAssignment = false := by
  cases k with
  | symbol s => cases s <;> first | rfl | cases isOperand
  | keyword w =>
    obtain rfl : w = .like := of_decide_eq_true isOperand
    rfl
  | _ => rfl

/-! ## Written assignments -/

/-- An assignment as it is written: a column, the value that is given first, and what goes on with the value. -/
structure Setting where
  column : WrittenColumn
  value : Literal
  tail : List Piece

namespace Setting

/-- Whether the value goes on over all that is written to go on with it. -/
def GoesOn (a : Setting) : Prop := ∀ x ∈ a.tail, x.GoesOn TokenKind.endsAssignment

def kinds (a : Setting) : List TokenKind :=
  a.column.kinds ++ .symbol .eq :: (a.value.kinds ++ a.tail.flatMap Piece.kinds)

/-- Assignments with commas between them. -/
def listKinds : List Setting → List TokenKind
  | [] => []
  | [a] => a.kinds
  | a :: b :: rest => a.kinds ++ .symbol .comma :: listKinds (b :: rest)

/-- The placeholders behind some assignments. -/
def countAfter (n : Nat) (as : List Setting) : Nat := (as.flatMap kinds).foldl Cursor.countAfter n

/-- An assignment after some placeholders as an equality. -/
def equality (n : Nat) (a : Setting) : Condition := ⟨a.column.column, .equal, [a.value.operand n]⟩

/-- The equalities of the assignments whose value is a plain one. -/
def conditions (n : Nat) : List Setting → List Condition
  | [] => []
  | a :: as => (if a.tail.isEmpty then [a.equality n] else []) ++ conditions (countAfter n [a]) as

theorem GoesOn.of_plain {a : Setting} (plain : a.tail = []) : a.GoesOn := by
  rw [GoesOn, plain]
  nofun

theorem countAfter_append (n : Nat) (as bs : List Setting) : countAfter n (as ++ bs) = countAfter (countAfter n as) bs := by
  simp [countAfter]

theorem conditions_append (n : Nat) (as bs : List Setting) :
    conditions n (as ++ bs) = conditions n as ++ conditions (countAfter n as) bs := by
  induction as generalizing n with
  | nil => rfl
  | cons a as ih =>
    have behind : countAfter n (a :: as) = countAfter (countAfter n [a]) as := countAfter_append n [a] as
    rw [List.cons_append, conditions, conditions, ih, List.append_assoc, behind]

/-- One equality for each assignment of a plain value. -/
def equalities (n : Nat) : List Setting → List Condition
  | [] => []
  | a :: as => a.equality n :: equalities (countAfter n [a]) as

theorem conditions_plain {as : List Setting} (plain : ∀ a ∈ as, a.tail = []) (n : Nat) :
    conditions n as = equalities n as := by
  induction as generalizing n with
  | nil => rfl
  | cons a as ih =>
    rw [conditions, equalities, ih (fun b member => plain b (List.mem_cons_of_mem a member)), plain a List.mem_cons_self]
    rfl

end Setting

/-- The words before the assignments for a row that exists. -/
def duplicateKey : List TokenKind := [.keyword .on, .keyword .duplicate, .keyword .key, .keyword .update]

namespace Setting

/-- An assignment of a plain value, with those words and another assignment behind it. -/
def withUpdate (a update : Setting) : Setting :=
  { a with
    tail := a.tail ++ duplicateKey.map .token ++
      .column update.column :: .token (.symbol .eq) :: (update.value.kinds.map .token ++ update.tail) }

theorem kinds_withUpdate (a update : Setting) : (a.withUpdate update).kinds = a.kinds ++ (duplicateKey ++ update.kinds) := by
  simp only [withUpdate, kinds, List.flatMap_append, List.flatMap_cons, Piece.flatMap_token, Piece.kinds, List.append_assoc,
    List.cons_append, List.nil_append]

/-- The words and the first assignment behind them are read with the assignment before them. -/
theorem listKinds_withUpdate (before : List Setting) (last update : Setting) (more : List Setting) :
    listKinds (before ++ [last]) ++ (duplicateKey ++ listKinds (update :: more)) =
      listKinds (before ++ last.withUpdate update :: more) := by
  induction before with
  | nil =>
    cases more with
    | nil => simp [listKinds, kinds_withUpdate]
    | cons a more => simp [listKinds, kinds_withUpdate]
  | cons a before ih =>
    cases before with
    | nil => simpa [listKinds] using ih
    | cons b before => simpa [listKinds] using ih

theorem countAfter_withUpdate (n : Nat) (a update : Setting) : countAfter n [a.withUpdate update] = countAfter n [a, update] := by
  have words (n : Nat) : duplicateKey.foldl Cursor.countAfter n = n := rfl
  simp only [countAfter, List.flatMap_cons, List.flatMap_nil, List.append_nil, kinds_withUpdate, List.foldl_append, words]

/-- Neither of two assignments is a condition once the second one is an update. -/
theorem conditions_withUpdate (n : Nat) (last update : Setting) (more : List Setting) :
    conditions n (last.withUpdate update :: more) = conditions (countAfter n [last, update]) more := by
  have goesOn : (last.withUpdate update).tail.isEmpty = false := by simp [withUpdate]
  rw [conditions, goesOn, countAfter_withUpdate]
  rfl

theorem goesOn_withUpdate {a update : Setting} (goOn : a.GoesOn) (goOn' : update.GoesOn) : (a.withUpdate update).GoesOn := by
  intro x member
  simp only [withUpdate, List.mem_append, List.mem_cons, List.mem_map] at member
  rcases member with (inTail | ⟨k, word, rfl⟩) | rfl | rfl | ⟨k, inValue, rfl⟩ | inTail
  · exact goOn x inTail
  · simp only [duplicateKey, List.mem_cons, List.not_mem_nil, or_false] at word
    rcases word with rfl | rfl | rfl | rfl <;> exact ⟨rfl, rfl⟩
  · obtain ⟨⟨⟨text, quote⟩, others⟩, value, tail⟩ := update
    cases quote <;> rfl
  · exact ⟨rfl, rfl⟩
  · have isOperand := Literal.isOperand_of_mem inValue
    exact ⟨TokenKind.isPassed_of_isOperand isOperand, TokenKind.endsAssignment_of_isOperand isOperand⟩
  · exact goOn' x inTail

end Setting

/-- A table name as it is written, with the schema that may precede it. -/
structure WrittenTable where
  schema : Option WrittenName
  name : WrittenName

def WrittenTable.kinds (t : WrittenTable) : List TokenKind :=
  (t.schema.elim [] fun x => [x.kind, .symbol .dot]) ++ [t.name.kind]

/-! ## Values that go on -/

namespace TokenKind

/-- What may stand behind an assignment of a plain value. -/
def endsSetting (k : TokenKind) : Bool := k = .endOfInput || k = .symbol .semicolon || k.endsAssignment

theorem ended_of_endsSetting {k : TokenKind} (ends : k.endsSetting = true) : (k.endsEverything || k.endsAssignment) = true := by
  simp only [endsSetting, Bool.or_eq_true, decide_eq_true_eq] at ends
  rw [Bool.or_eq_true]
  rcases ends with (rfl | rfl) | word
  · exact .inl rfl
  · exact .inl rfl
  · exact .inr word

theorem leavesColumn_of_endsSetting {k : TokenKind} (ends : k.endsSetting = true) : k.LeavesColumn := by
  constructor <;> rintro rfl <;> cases ends

end TokenKind

/-- An assignment ends with its first value if nothing goes on with it. -/
theorem endsSetting_pieces {rest : List TokenKind} {pieces : List Piece} (goOn : ∀ x ∈ pieces, x.GoesOn TokenKind.endsAssignment)
    (ends : (firstKind rest).endsSetting = true) :
    (firstKind (pieces.flatMap Piece.kinds ++ rest)).endsSetting = pieces.isEmpty := by
  cases pieces with
  | nil => exact ends
  | cons x pieces =>
    cases x with
    | column c =>
      obtain ⟨⟨text, quote⟩, others⟩ := c
      cases quote <;> rfl
    | token k =>
      obtain ⟨passed, notEnded⟩ : k.isPassed = true ∧ k.endsAssignment = false := goOn _ List.mem_cons_self
      rw [List.isEmpty_cons]
      refine Bool.eq_false_iff.mpr fun same => ?_
      have closed : (k.endsEverything || k.endsAssignment) = true := TokenKind.ended_of_endsSetting same
      rw [(TokenKind.passes_of_isPassed passed).inside, notEnded] at closed
      cases closed

namespace Walk.Reaches

variable {d : Dialect} {p : Place} {text : List Token} (proper : Proper text) {n : Nat} {rest : List TokenKind}
  {cs : Conditions}

include proper

/-! ## Assignments -/

theorem namedColumn (c : WrittenColumn) (noDot : firstKind rest ≠ .symbol .dot) :
    Reaches d p text Walk.namedColumn ⟨n, c.kinds ++ rest, cs⟩ (· = c.column) ⟨n, rest, cs⟩ :=
  seq (column proper c noDot) (.pure rfl)

/-- The value that stands first is a condition if the assignment ends with it. -/
theorem assignedValue (c : Column) (v : Literal) {es : List Condition} :
    Reaches d p text (Walk.assignedValue c) ⟨n, v.kinds ++ rest, ⟨es, true⟩⟩ (· = ())
      ⟨n + v.placeholders, rest, ⟨es ++ if (firstKind rest).endsSetting then [⟨c, .equal, [v.operand n]⟩] else [], true⟩⟩ := by
  refine (value proper v).seq (kind.seq ?_)
  cases ends : (firstKind rest).endsSetting with
  | true =>
    refine .yes ends (record _ fun s same => ?_)
    rw [Statement.addCondition, same]
    rfl
  | false =>
    rw [if_neg Bool.false_ne_true, List.append_nil]
    exact .no (fun same => Bool.false_ne_true (ends.symm.trans same)) (.pure rfl)

/-- An assignment up to the comma or the end behind it. -/
theorem assignmentRound (a : Setting) (goOn : a.GoesOn) {es : List Condition} {again : Bool} {w : View}
    (ends : (firstKind rest).endsSetting = true)
    (next : Reaches d p text (Walk.eat (.symbol .comma))
      ⟨Setting.countAfter n [a], rest, ⟨es ++ if a.tail.isEmpty then [a.equality n] else [], true⟩⟩ (· = again) w) :
    Reaches d p text (do
        let column ← Walk.namedColumn
        discard (Walk.expect (.symbol .eq))
        if true then Walk.assignedValue column
        Walk.expression TokenKind.endsAssignment
        Walk.eat (.symbol .comma)) ⟨n, a.kinds ++ rest, ⟨es, true⟩⟩ (· = again) w := by
  have counts : (a.tail.flatMap Piece.kinds).foldl Cursor.countAfter (n + a.value.placeholders) = Setting.countAfter n [a] := by
    rw [Setting.countAfter, List.flatMap_singleton, Setting.kinds, List.foldl_append, WrittenColumn.foldl_countAfter,
      List.foldl_cons, List.foldl_append, ← Literal.foldl_countAfter]
    rfl
  rw [Setting.kinds, List.append_assoc, List.cons_append, List.append_assoc]
  refine (namedColumn proper a.column (by rintro ⟨⟩)).seq ((expect proper rfl).discarded.seq ?_)
  refine .yes rfl ((assignedValue proper a.column.column a.value).seq ?_)
  rw [endsSetting_pieces goOn ends]
  refine seq (a := ()) ((depth proper).bind fun depth deep => ?_) next
  obtain ⟨depth, rfl⟩ : ∃ k, depth = k + 1 := ⟨depth - 1, by omega⟩
  have passed := expressionPieces (d := d) (p := p) proper depth a.tail goOn (TokenKind.ended_of_endsSetting ends)
    (TokenKind.leavesColumn_of_endsSetting ends) (n + a.value.placeholders)
  rw [counts] at passed
  exact passed _

/-- Assignments are conditions if nothing goes on with their values. -/
theorem assignments (as : List Setting) (nonempty : as ≠ []) (goOn : ∀ a ∈ as, a.GoesOn)
    (ends : firstKind rest = .endOfInput ∨ firstKind rest = .symbol .semicolon) (n : Nat) (es : List Condition) :
    Reaches d p text (Walk.assignments true) ⟨n, Setting.listKinds as ++ rest, ⟨es, true⟩⟩ (· = ())
      ⟨Setting.countAfter n as, rest, ⟨es ++ Setting.conditions n as, true⟩⟩ := by
  induction as using Setting.listKinds.induct generalizing n es with
  | case1 => exact absurd rfl nonempty
  | case2 a =>
    have closes : (firstKind rest).endsSetting = true := by
      rcases ends with same | same <;> rw [same] <;> rfl
    have noComma : (firstKind rest).sameShape (.symbol .comma) = false := by
      rcases ends with same | same <;> rw [same] <;> rfl
    rw [Setting.conditions, Setting.conditions, List.append_nil]
    exact repeatWhile_stops (assignmentRound proper a (goOn a List.mem_cons_self) closes (eat_not noComma))
  | case3 a b as ih =>
    rw [Setting.listKinds, List.append_assoc, List.cons_append, Setting.conditions, ← List.append_assoc]
    have later := ih (List.cons_ne_nil b as) (fun c member => goOn c (List.mem_cons_of_mem a member)) (Setting.countAfter n [a])
      (es ++ if a.tail.isEmpty then [a.equality n] else [])
    rw [← Setting.countAfter_append] at later
    refine repeatWhile_again proper ?_ ?_ later
    · exact assignmentRound proper a (goOn a List.mem_cons_self) rfl (eat proper rfl)
    · simp only [List.length_append, List.length_cons]
      omega

/-! ## The statement -/

theorem tableName (t : WrittenTable) (noDot : firstKind rest ≠ .symbol .dot) :
    Reaches d p text Walk.tableName ⟨n, t.kinds ++ rest, cs⟩ (fun _ => True) ⟨n, rest, cs⟩ := by
  have named : Reaches d p text Walk.qualifiedName ⟨n, t.kinds ++ rest, cs⟩ (fun _ => True) ⟨n, rest, cs⟩ := by
    obtain ⟨schema, name⟩ := t
    cases schema with
    | none =>
      have other : (firstKind rest).sameShape (.symbol .dot) = false :=
        Bool.eq_false_iff.mpr fun same => noDot (TokenKind.sameShape_symbol.mp same)
      exact (identifier proper name).bind fun _ _ => (eat_not (v := ⟨n, rest, cs⟩) other).seq (.no Bool.false_ne_true (.pure trivial))
    | some schema =>
      refine (identifier proper schema).bind fun _ _ => (eat proper rfl).seq (.yes rfl ?_)
      exact (identifier proper name).mono fun _ _ => trivial
  exact named.bind fun _ _ => (record cs fun s same => same).seq (.pure trivial)

/-- `INSERT INTO t SET` up to its end, which may be a semicolon. -/
theorem insertSet (t : WrittenTable) (as : List Setting) (nonempty : as ≠ []) (goOn : ∀ a ∈ as, a.GoesOn)
    (ends : firstKind rest = .endOfInput ∨ firstKind rest = .symbol .semicolon) :
    Reaches d p text Walk.insertStatement
      ⟨0, .keyword .insert :: .keyword .into :: (t.kinds ++ .keyword .set :: (Setting.listKinds as ++ rest)), .empty⟩ (· = ())
      ⟨Setting.countAfter 0 as, rest, ⟨Setting.conditions 0 as, true⟩⟩ := by
  have noWord : (firstKind rest).sameShape (.keyword .on) = false := by
    rcases ends with same | same <;> rw [same] <;> rfl
  refine seq (a := ()) (w := ⟨0, .keyword .into :: (t.kinds ++ .keyword .set :: (Setting.listKinds as ++ rest)), .empty⟩) ?_ ?_
  · exact ((checkAny _).seq (.yes rfl (advance proper))).discarded
  refine (repeatWhile_stops (eatAny_not rfl)).seq ((eat proper rfl).discarded.seq ?_)
  refine ((tableName proper t (by rintro ⟨⟩)).discarded).seq ?_
  refine seq (a := none) ((check _).seq (.yes rfl (.pure rfl))) ((eat_not rfl).seq (.no Bool.false_ne_true ?_))
  refine seq (a := ()) (w := ⟨Setting.countAfter 0 as, rest, ⟨Setting.conditions 0 as, true⟩⟩) ?_ ?_
  · refine (eatAny_not rfl).seq (.no Bool.false_ne_true ((eat proper rfl).seq (.yes rfl ?_)))
    refine (assignments proper as nonempty goOn ends 0 []).seq ?_
    exact record _ fun s same => same
  · exact (eat_not (v := ⟨_, rest, _⟩) noWord).seq (.no Bool.false_ne_true (.pure rfl))

end Walk.Reaches

/-! ## Texts -/

/-- `INSERT INTO t SET` and what stands behind `SET`, with a semicolon at the end or without. -/
def insertSetKinds (t : WrittenTable) (ks : List TokenKind) (closed : Bool) : List TokenKind :=
  .keyword .insert :: .keyword .into :: (t.kinds ++ .keyword .set :: (ks ++ if closed then [.symbol .semicolon] else []))

section

variable {d : Dialect} {sql : String} {ts : List Token} {e : Place} (tokens : tokenize d sql = .ok (ts ++ [Token.endAt e]))
  (t : WrittenTable) (closed : Bool)

include tokens

/-- The conditions of an INSERT with assignments are those of the assignments whose value does not go on. -/
theorem parse_insertSet (as : List Setting) (nonempty : as ≠ []) (goOn : ∀ a ∈ as, a.GoesOn)
    (written : ts.map (·.kind) = insertSetKinds t (Setting.listKinds as) closed) :
    ∃ stmt, parse d sql = .ok stmt ∧
      stmt.conditions = (⟨Setting.conditions 0 as, true⟩ : Conditions).resolveOwners stmt.tables := by
  have reads := reads_of_tokenize tokens
  have proper : Proper ts := reads.proper
  have shows : WalkState.Shows d e ts ⟨0, insertSetKinds t (Setting.listKinds as) closed, .empty⟩
      ⟨.along d e 0 ts, .ofKind .insert⟩ := ⟨ts, List.suffix_refl ts, rfl, written, rfl⟩
  have whole : Walk.Reaches d e ts (Walk.wholeStatement .insert) ⟨0, insertSetKinds t (Setting.listKinds as) closed, .empty⟩
      (· = ()) ⟨Setting.countAfter 0 as, [], ⟨Setting.conditions 0 as, true⟩⟩ := by
    have atEnd {n : Nat} {cs : Conditions} : Walk.Reaches d e ts Walk.isAtEnd ⟨n, [], cs⟩ (· = true) ⟨n, [], cs⟩ :=
      .look fun s shown => by rw [Cursor.isAtEnd, Walk.Reaches.kind_eq shown]; rfl
    cases closed with
    | false =>
      refine (Walk.Reaches.insertSet proper t as nonempty goOn (.inl rfl)).seq ?_
      exact (Walk.Reaches.eat_not rfl).discarded.seq (atEnd.seq (.no (by decide) (.pure rfl)))
    | true =>
      refine (Walk.Reaches.insertSet proper t as nonempty goOn (.inr rfl)).seq ?_
      exact (Walk.Reaches.eat proper rfl).discarded.seq (atEnd.seq (.no (by decide) (.pure rfl)))
  obtain ⟨_, ⟨c, s⟩, run, -, us, -, rfl, empty, conditions⟩ := whole _ shows
  obtain rfl : us = [] := List.map_eq_nil_iff.mp empty
  have first : (Cursor.along d e 0 ts).kind = .keyword .insert := by
    obtain ⟨u, us, rfl, isInsert, -⟩ := List.map_eq_cons_iff.mp written
    exact isInsert
  refine ⟨_, parse_eq_ok_iff.mpr ⟨.insert, e, ts, _, s, reads, by rw [first]; rfl, run, rfl⟩, ?_⟩
  exact congrArg (Conditions.resolveOwners · s.tables) conditions

/-- Each column of an INSERT with plain assignments and nothing behind them has the condition that it is what it is set to. -/
theorem equalities_of_insertSet (as : List Setting) (nonempty : as ≠ []) (plain : ∀ a ∈ as, a.tail = [])
    (written : ts.map (·.kind) = insertSetKinds t (Setting.listKinds as) closed) :
    ∃ stmt, parse d sql = .ok stmt ∧
      stmt.conditions = (⟨Setting.equalities 0 as, true⟩ : Conditions).resolveOwners stmt.tables := by
  rw [← Setting.conditions_plain plain]
  exact parse_insertSet tokens t closed as nonempty (fun a member => .of_plain (plain a member)) written

/-- Before `ON DUPLICATE KEY UPDATE` the last assignment is no condition, and of the assignments behind these words only the
first one is none. -/
theorem equalities_of_duplicateKey (before : List Setting) (last update : Setting) (more : List Setting)
    (plain : ∀ a ∈ before ++ last :: update :: more, a.tail = [])
    (written : ts.map (·.kind) = insertSetKinds t
      (Setting.listKinds (before ++ [last]) ++ duplicateKey ++ Setting.listKinds (update :: more)) closed) :
    ∃ stmt, parse d sql = .ok stmt ∧ stmt.conditions = (⟨Setting.equalities 0 before ++
      Setting.equalities (Setting.countAfter 0 (before ++ [last, update])) more, true⟩ : Conditions).resolveOwners stmt.tables := by
  have goOn {a : Setting} (member : a ∈ before ++ last :: update :: more) : a.GoesOn := .of_plain (plain a member)
  have inBefore {a : Setting} (member : a ∈ before) : a ∈ before ++ last :: update :: more := List.mem_append_left _ member
  have inMore {a : Setting} (member : a ∈ last :: update :: more) : a ∈ before ++ last :: update :: more :=
    List.mem_append_right _ member
  rw [List.append_assoc, Setting.listKinds_withUpdate] at written
  have kept : Setting.conditions 0 (before ++ last.withUpdate update :: more) = Setting.equalities 0 before ++
      Setting.equalities (Setting.countAfter 0 (before ++ [last, update])) more := by
    rw [Setting.conditions_append, Setting.conditions_withUpdate, ← Setting.countAfter_append,
      Setting.conditions_plain fun a member => plain a (inBefore member),
      Setting.conditions_plain fun a member => plain a (inMore (List.mem_cons_of_mem _ (List.mem_cons_of_mem _ member)))]
  rw [← kept]
  refine parse_insertSet tokens t closed _ (by simp) (fun a member => ?_) written
  rcases List.mem_append.mp member with first | first
  · exact goOn (inBefore first)
  · rcases List.mem_cons.mp first with rfl | later
    · exact Setting.goesOn_withUpdate (goOn (inMore List.mem_cons_self))
        (goOn (inMore (List.mem_cons_of_mem _ List.mem_cons_self)))
    · exact goOn (inMore (List.mem_cons_of_mem _ (List.mem_cons_of_mem _ later)))

end

/-- The update of a row becomes a condition on the row that is inserted, and the column of that row has none. -/
example : (parse .mysql "INSERT INTO t SET a = 1 ON DUPLICATE KEY UPDATE b = 2, c = 3").map (·.conditions) =
    .ok ⟨[⟨⟨none, "c"⟩, .equal, [.literal (.integer 3)]⟩], true⟩ := by
  decide +kernel

end SqlSharding.Sql
