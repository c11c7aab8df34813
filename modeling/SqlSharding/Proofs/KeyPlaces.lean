import SqlSharding.Proofs.Nesting
import SqlSharding.Proofs.Points

/-!
# The places of a generated key

An `INSERT` records at most one place of a generated key: the ends of the column list after the table's name and of the
first row of values. No other walk records such a place. The end of the row is the parenthesis that closes it, unless a locking
clause or an index hint stands in the row.
-/

namespace SqlSharding.Sql

/-! ## Lists in parentheses -/

/-- A list in parentheses with tokens of a certain form inside. It ends at the given place and before the given tokens. -/
def ListAt (P : List Token → Prop) (ts : List Token) (position : Nat) (later : List Token) : Prop :=
  ∃ opening inner closing, ts = opening :: inner ++ closing :: later ∧ opening.kind = .symbol .leftParen ∧ P inner ∧
    closing.kind = .symbol .rightParen ∧ closing.span.start = position

/-- Tokens in which every parenthesis has its counterpart, unless a locking clause or an index hint is among them. -/
def Closed (ts : List Token) : Prop := Tame ts → Enclosed ts

/-- The places of a generated key in the tokens of a text: the list after the table's name ends at the first one, and the
row after `VALUES` at the second one. -/
def KeyAt (ts : List Token) : RewritePoint → Prop
  | .generatedKey columnsEnd valuesEnd _ => ∃ head name columns between verb row tail,
      ts = head ++ name :: columns ∧ name.kind.isIdentifier = true ∧
      ListAt Plain columns columnsEnd (between ++ verb :: row) ∧ Closed between ∧
      verb.kind ∈ [.keyword .values, .keyword .value] ∧ ListAt Closed row valuesEnd tail
  | _ => False

/-- A key whose row is the list after the `VALUES` at the beginning of some tokens. -/
def RowKeyAt (ts : List Token) (columnsEnd? : Option Nat) (key : RewritePoint) : Prop :=
  ∃ columnsEnd valuesEnd parameterIndex verb row tail, columnsEnd? = some columnsEnd ∧
    key = .generatedKey columnsEnd valuesEnd parameterIndex ∧ verb.kind ∈ [.keyword .values, .keyword .value] ∧
    ts = verb :: row ∧ ListAt Closed row valuesEnd tail

variable {d : Dialect} {p : Place} {n : Nat} {rest : List Token} {s u : WalkState}

namespace Walk

/-- A list in parentheses is passed whole. -/
theorem listAt_of_runs {P : List Token → Prop} {α : Type} {m : Walk α} (inside : Takes d p (fun _ => True) P m)
    (proper : Proper rest) (atCursor : s.cursor = .along d p n rest) {s₁ s₂ : WalkState} {x y : Unit} {a : α}
    (opens : discard (expect (.symbol .leftParen)) s = .ok x s₁) (passes : m s₁ = .ok a s₂)
    (closes : discard (expect (.symbol .rightParen)) s₂ = .ok y u) :
    ∃ later k, u.cursor = .along d p k later ∧ ListAt P rest s₂.cursor.current.span.start later := by
  obtain ⟨opening, rest₁, isOpening, rfl, atInside⟩ := expectSymbol_run proper atCursor opens
  obtain ⟨inner, rest₂, k, rfl, atClosing, holds⟩ := inside s₁ a s₂ _ rest₁ proper.tail atInside trivial passes
  obtain ⟨closing, later, isClosing, rfl, atLater⟩ := expectSymbol_run proper.tail.right atClosing closes
  refine ⟨later, _, atLater, opening, inner, closing, rfl, isOpening, holds, isClosing, ?_⟩
  rw [atClosing]
  rfl

theorem namedColumn_plain {Pre : TokenKind → Prop} : Takes d p Pre Plain namedColumn := by
  refine column_plain.bind plain_chained fun column => ?_
  cases column with
  | none => exact .fails failExpected_fails
  | some column => exact .pure plain_chained

/-- A column list is in parentheses and ends where it is said to end. -/
theorem insertColumns_run (proper : Proper rest) (atCursor : s.cursor = .along d p n rest) {columnsEnd : Nat}
    (run : insertColumns s = .ok (some columnsEnd) u) :
    ∃ later k, u.cursor = .along d p k later ∧ ListAt Plain rest columnsEnd later := by
  obtain ⟨isList, _, ⟨⟩, body⟩ := bind_eq_ok_iff.mp run
  cases isList : s.cursor.check (.symbol .leftParen) with
  | false =>
    rw [isList] at body
    cases body
  | true =>
  rw [isList] at body
  obtain ⟨next, s₁, peeks, inside⟩ := bind_eq_ok_iff.mp body
  obtain ⟨-, rfl⟩ := peek_eq_ok_iff.mp peeks
  clear body
  split at inside
  · cases inside
  obtain ⟨_, s₂, advances, body⟩ := bind_eq_ok_iff.mp inside
  obtain ⟨_, s₃, passes, body⟩ := bind_eq_ok_iff.mp body
  obtain ⟨_, _, ⟨⟩, body⟩ := bind_eq_ok_iff.mp body
  obtain ⟨_, s₄, closes, body⟩ := bind_eq_ok_iff.mp body
  obtain ⟨same, rfl⟩ := pure_eq_ok_iff.mp body
  cases same
  have opens : discard (expect (.symbol .leftParen)) s₁ = .ok () s₂ := by
    obtain ⟨t, advances, -⟩ := map_eq_ok_iff.mp advances
    refine map_eq_ok_iff.mpr ⟨t, bind_eq_ok_iff.mpr ⟨true, s₁, congrArg (EStateM.Result.ok · s₁) isList, advances⟩, rfl⟩
  refine listAt_of_runs (.repeatWhile plain_chained ?_) proper atCursor opens passes closes
  refine namedColumn_plain.bind plain_chained fun column => .bind plain_chained (.record plain_chained) fun _ => ?_
  exact eat_plain ⟨nofun, nofun⟩

theorem expression_nests {Pre : TokenKind → Prop} {a : Nat} (ends : TokenKind → Bool) :
    Takes d p Pre (Nests a a) (expression ends) := by
  refine .seeing (fun s depth t run => ?_) fun depth => (NestedParentheses.all depth).expression ends
  obtain ⟨_, _, ⟨⟩, run⟩ := bind_eq_ok_iff.mp run
  exact (pure_eq_ok_iff.mp run).2.symm

theorem rowValues_nests {Pre : TokenKind → Prop} {a : Nat} : Takes d p Pre (Nests a a) rowValues := by
  have comma {Pre : TokenKind → Prop} : Takes d p Pre (Nests a a) (eat (.symbol .comma)) := (eat_plain (by decide)).plainly
  refine .repeatFrom Nests.chained (fun values => ?_) _
  refine value?_plain.plainly.seq fun value? => .checkAny fun listEnds => .ite (fun _ => ?_) fun _ => ?_
  · exact (expression_nests _).seq fun _ => comma.seq fun _ => .nothing
  · exact comma.seq fun _ => .nothing

/-- A row of values is in parentheses and ends where it is said to end. -/
theorem valuesRow_run (proper : Proper rest) (atCursor : s.cursor = .along d p n rest) {row : ValuesRow}
    (run : valuesRow s = .ok row u) :
    ∃ later k, u.cursor = .along d p k later ∧ ListAt Closed rest row.valuesEnd later := by
  obtain ⟨_, s₁, opens, run⟩ := bind_eq_ok_iff.mp run
  obtain ⟨values, s₂, passes, run⟩ := bind_eq_ok_iff.mp run
  obtain ⟨_, _, ⟨⟩, run⟩ := bind_eq_ok_iff.mp run
  obtain ⟨_, s₄, closes, run⟩ := bind_eq_ok_iff.mp run
  obtain ⟨rfl, rfl⟩ := pure_eq_ok_iff.mp run
  exact listAt_of_runs rowValues_nests proper atCursor opens passes closes

theorem eat_stays {k : TokenKind} (run : eat k s = .ok false u) : u = s := by
  obtain ⟨found, _, ⟨⟩, run⟩ := bind_eq_ok_iff.mp run
  split at run
  · obtain ⟨_, _, -, run⟩ := bind_eq_ok_iff.mp run
    exact absurd (pure_eq_ok_iff.mp run).1 (by simp)
  · exact (pure_eq_ok_iff.mp run).2.symm

/-- A word that is passed is the token that was looked for. -/
theorem eatAny_run {ks : List TokenKind} (noEnd : .endOfInput ∉ ks) (proper : Proper rest)
    (atCursor : s.cursor = .along d p n rest) (run : eatAny ks s = .ok true u) :
    ∃ t later k, rest = t :: later ∧ u.cursor = .along d p k later ∧ ∃ k ∈ ks, t.kind.sameShape k = true := by
  obtain ⟨found, _, ⟨⟩, run⟩ := bind_eq_ok_iff.mp run
  split at run
  · next found =>
    obtain ⟨_, s₁, advances, run⟩ := bind_eq_ok_iff.mp run
    obtain ⟨t, advances, -⟩ := map_eq_ok_iff.mp advances
    obtain ⟨-, rfl⟩ := pure_eq_ok_iff.mp run
    obtain ⟨next, step, -, rfl⟩ := advance_eq_ok_iff.mp advances
    obtain ⟨k, member, same⟩ := List.any_eq_true.mp found
    rw [atCursor] at same step
    cases rest with
    | nil =>
      have : k = .endOfInput := by
        cases k <;> first | rfl | cases same
      exact absurd (this ▸ member) noEnd
    | cons t rest =>
      rw [Cursor.along_step proper] at step
      cases step
      exact ⟨t, rest, _, rfl, rfl, k, member, same⟩
  · exact absurd (pure_eq_ok_iff.mp run).1 (by simp)

/-- The last token of a table's name is an identifier. -/
theorem qualifiedName_run (proper : Proper rest) (atCursor : s.cursor = .along d p n rest) {x : Identifier}
    (run : qualifiedName s = .ok x u) :
    ∃ head name later k, rest = head ++ name :: later ∧ name.kind.isIdentifier = true ∧ u.cursor = .along d p k later := by
  obtain ⟨first, s₁, identifies, run⟩ := bind_eq_ok_iff.mp run
  have standing : Standing d p rest rest s := ⟨List.suffix_refl rest, n, atCursor⟩
  obtain ⟨t, rest₁, same, names, -, moved⟩ := standing.identifier proper identifies
  obtain ⟨k, atNext⟩ := moved.standing.cursor
  obtain ⟨found, s₂, eats, ending⟩ := bind_eq_ok_iff.mp run
  cases found with
  | true =>
    obtain ⟨rest₂, moved₂⟩ := moved.standing.eat proper eats
    obtain ⟨t', rest₃, rfl, names', -, moved₃⟩ := moved₂.standing.identifier proper ending
    obtain ⟨k, atLater⟩ := moved₃.standing.cursor
    obtain ⟨head, split⟩ := moved₂.suffix.trans (same ▸ List.suffix_cons t rest₁)
    exact ⟨head, t', rest₃, k, split.symm, names', atLater⟩
  | false =>
    obtain ⟨-, rfl⟩ := pure_eq_ok_iff.mp ending
    obtain rfl := eat_stays eats
    exact ⟨[], t, rest₁, k, same, names, atNext⟩

end Walk

/-! ## Recorded keys -/

/-- A state whose statement has recorded no key but the given one. -/
def Keyed (d : Dialect) (p : Place) (ts : List Token) (key? : Option RewritePoint) (s : WalkState) : Prop :=
  s.cursor.Within d p ts ∧ ∀ q ∈ s.statement.points, q.isKey = true → some q = key?

theorem Statement.isKey_addBoundPoint {point : Span → Int64 → RewritePoint} (plain : ∀ span i, (point span i).isKey = false)
    {s : Statement} {b : Option PlacedBound} {q : RewritePoint} (member : q ∈ (s.addBoundPoint point b).points)
    (key : q.isKey = true) : q ∈ s.points := by
  rcases mem_addBoundPoint member with old | ⟨span, i, -, rfl⟩
  · exact old
  · rw [plain] at key
    cases key

variable {ts : List Token} {key? : Option RewritePoint} (proper : Proper ts)

include proper

variable (key?) in
/-- No other walk records a key. -/
theorem keyed_keptByRecords : Walk.KeptByRecords (Keyed d p ts key?) fun _ => True where
  records_false := trivial
  advance s _ u run holds := by
    obtain ⟨next, step, -, rfl⟩ := Walk.advance_eq_ok_iff.mp run
    exact ⟨Cursor.within_step proper step holds.1, holds.2⟩
  conditions _ _ := id
  rows _ _ _ := id
  qualifier _ _ := id
  table s x aliasName holds := by
    refine ⟨holds.1, fun q member key => ?_⟩
    rcases List.mem_append.mp member with old | new
    · exact holds.2 q old key
    · rw [List.mem_singleton.mp new] at key
      cases key
  paginate s rowCount offset rewritable _ holds := by
    refine ⟨holds.1, fun q member key => holds.2 q ?_ key⟩
    have inOffset := Statement.isKey_addBoundPoint (fun _ _ => rfl) member key
    exact Statement.isKey_addBoundPoint (fun _ _ => rfl) inOffset key

/-- The rows of an INSERT record at most the end of the column list with the end of the first row. -/
theorem keyed_valuesRows (suffix : rest <:+ ts) (atCursor : s.cursor = .along d p n rest) (keyed : Keyed d p ts none s)
    {columnsEnd? : Option Nat} (run : Walk.valuesRows columnsEnd? s = .ok () u) :
    ∃ key?, Keyed d p ts key? u ∧ ∀ key, key? = some key → ∃ columnsEnd valuesEnd parameterIndex tail,
      columnsEnd? = some columnsEnd ∧ key = .generatedKey columnsEnd valuesEnd parameterIndex ∧
      ListAt Closed rest valuesEnd tail := by
  have settled := (keyed_keptByRecords (d := d) (p := p) none proper).settled
  have properRest : Proper rest := fun t member => proper t (suffix.subset member)
  obtain ⟨first?, s₁, loop, run⟩ := Walk.bind_eq_ok_iff.mp run
  have rows : Keyed d p ts none s₁ ∧ ∀ row, first? = some row → ∃ tail, ListAt Closed rest row.valuesEnd tail := by
    have ended := Walk.repeatFrom_invariant (J := fun (first? : Option Walk.ValuesRow) u => Keyed d p ts none u ∧
      (first? = none → u.cursor = .along d p n rest) ∧
      ∀ row, first? = some row → ∃ tail, ListAt Closed rest row.valuesEnd tail) ?_ loop
      ⟨keyed, fun _ => atCursor, nofun⟩
    · exact ⟨ended.1, ended.2.2⟩
    rintro first? s r u ⟨keyed, atFirst, earlier⟩ round
    obtain ⟨row, s₂, reads, round⟩ := Walk.bind_eq_ok_iff.mp round
    have keyed₂ := (settled.valuesRow (.any _) (b := false)).keeps _ _ _ reads keyed
    obtain ⟨_, s₃, ⟨⟩, round⟩ := Walk.bind_eq_ok_iff.mp round
    obtain ⟨goesOn, s₄, eats, round⟩ := Walk.bind_eq_ok_iff.mp round
    obtain ⟨rfl, rfl⟩ := Walk.pure_eq_ok_iff.mp round
    refine ⟨(settled.eat (b := false) _).keeps _ _ _ eats keyed₂, ?_⟩
    cases first? with
    | none =>
      obtain ⟨later, k, -, isList⟩ := Walk.valuesRow_run properRest (atFirst rfl) reads
      refine ⟨nofun, ?_⟩
      rintro _ ⟨⟩
      exact ⟨later, isList⟩
    | some first => exact ⟨nofun, earlier⟩
  obtain ⟨keyed₁, first⟩ := rows
  obtain ⟨_, _, ⟨⟩, run⟩ := Walk.bind_eq_ok_iff.mp run
  split at run
  · cases first? with
    | none =>
      obtain ⟨-, rfl⟩ := Walk.pure_eq_ok_iff.mp run
      exact ⟨none, keyed₁, nofun⟩
    | some row =>
      obtain ⟨_, s₂, records, run⟩ := Walk.bind_eq_ok_iff.mp run
      have keyed₂ : Keyed d p ts none s₂ := by
        cases records
        refine ⟨keyed₁.1, ?_⟩
        dsimp only
        rw [Statement.foldl_addCondition]
        exact keyed₁.2
      cases columnsEnd? with
      | none =>
        obtain ⟨-, rfl⟩ := Walk.pure_eq_ok_iff.mp run
        exact ⟨none, keyed₂, nofun⟩
      | some columnsEnd =>
        cases run
        obtain ⟨tail, isRow⟩ := first row rfl
        refine ⟨some (.generatedKey columnsEnd row.valuesEnd row.parameterIndex), ⟨keyed₂.1, fun q member key => ?_⟩, ?_⟩
        · rcases List.mem_append.mp member with old | new
          · exact absurd (keyed₂.2 q old key) (by simp)
          · exact congrArg some (List.mem_singleton.mp new)
        · rintro _ ⟨⟩
          exact ⟨columnsEnd, row.valuesEnd, row.parameterIndex, tail, rfl, rfl, isRow⟩
  · obtain ⟨-, rfl⟩ := Walk.pure_eq_ok_iff.mp run
    exact ⟨none, keyed₁, nofun⟩

/-- So does an INSERT, whose rows follow the words up to `VALUES`. -/
theorem keyed_insertSource (suffix : rest <:+ ts) (atCursor : s.cursor = .along d p n rest) (keyed : Keyed d p ts none s)
    {columnsEnd? : Option Nat} (run : Walk.insertSource columnsEnd? s = .ok () u) :
    ∃ key?, Keyed d p ts key? u ∧ ∀ key, key? = some key → RowKeyAt rest columnsEnd? key := by
  have settled := (keyed_keptByRecords (d := d) (p := p) none proper).settled
  have none_of {v : WalkState} (keyed : Keyed d p ts none v) :
      ∃ key?, Keyed d p ts key? v ∧ ∀ key, key? = some key → RowKeyAt rest columnsEnd? key := ⟨none, keyed, nofun⟩
  obtain ⟨areRows, s₁, eats, run⟩ := Walk.bind_eq_ok_iff.mp run
  have keyed₁ := (settled.eatAny (b := false) _).keeps _ _ _ eats keyed
  cases areRows with
  | true =>
    have properRest : Proper rest := fun t member => proper t (suffix.subset member)
    obtain ⟨verb, row, k, rfl, atRow, word, member, same⟩ := Walk.eatAny_run (by decide) properRest atCursor eats
    have isVerb : verb.kind ∈ [.keyword .values, .keyword .value] := by
      simp only [List.mem_cons, List.not_mem_nil, or_false] at member
      rcases member with rfl | rfl
      · simp [TokenKind.sameShape_keyword.mp same]
      · simp [TokenKind.sameShape_keyword.mp same]
    obtain ⟨key?, keyed, placed⟩ := keyed_valuesRows proper ((List.suffix_cons verb row).trans suffix) atRow keyed₁ run
    refine ⟨key?, keyed, fun key is => ?_⟩
    obtain ⟨columnsEnd, valuesEnd, parameterIndex, tail, isEnd, rfl, isRow⟩ := placed key is
    exact ⟨columnsEnd, valuesEnd, parameterIndex, verb, row, tail, isEnd, rfl, isVerb, rfl, isRow⟩
  | false =>
    refine none_of (Walk.Keeps.bind (settled.eat (b := false) _).keeps (fun isSet => .ite ?_ ?_) _ _ _ run keyed₁)
    · exact (settled.assignments (b := false) true).keeps.bind fun _ => (settled.singleRow).keeps
    · refine .bind (settled.eat (b := false) _).keeps fun isDefault => .ite ?_ ?_
      · exact (settled.expect (b := false) _).keeps.discards.bind fun _ => (settled.singleRow).keeps
      · refine .bind (settled.checkAny (b := false) _).keeps fun isQuery => .ite ?_ ?_
        · exact (settled.query (b := false) trivial).keeps
        · exact fun _ _ _ run => nomatch run

theorem keyed_insertEnd (suffix : rest <:+ ts) (atCursor : s.cursor = .along d p n rest) (keyed : Keyed d p ts none s)
    {columnsEnd? : Option Nat} (run : Walk.insertEnd columnsEnd? s = .ok () u) :
    ∃ key?, Keyed d p ts key? u ∧ ∀ key, key? = some key → RowKeyAt rest columnsEnd? key := by
  obtain ⟨_, s₁, source, run⟩ := Walk.bind_eq_ok_iff.mp run
  obtain ⟨key?, keyed₁, placed⟩ := keyed_insertSource proper suffix atCursor keyed source
  have settled := (keyed_keptByRecords (d := d) (p := p) key? proper).settled
  have words (k : TokenKind) : Walk.Keeps (Keyed d p ts key?) (discard (Walk.expect k)) :=
    (settled.expect (b := false) k).keeps.discards
  refine ⟨key?, Walk.Keeps.bind (settled.eat (b := false) _).keeps (fun isOn => .ite ?_ .pure) _ _ _ run keyed₁, placed⟩
  exact (words _).bind fun _ => (words _).bind fun _ => (words _).bind fun _ =>
    (settled.assignments (b := false) false).keeps

theorem keyed_insertRest (suffix : rest <:+ ts) (atCursor : s.cursor = .along d p n rest) (keyed : Keyed d p ts none s)
    {columnsEnd? : Option Nat} (run : Walk.insertRest columnsEnd? s = .ok () u) :
    ∃ key?, Keyed d p ts key? u ∧ ∀ key, key? = some key →
      ∃ between later, rest = between ++ later ∧ Closed between ∧ RowKeyAt later columnsEnd? key := by
  have settled := (keyed_keptByRecords (d := d) (p := p) none proper).settled
  have properRest : Proper rest := fun t member => proper t (suffix.subset member)
  obtain ⟨isOutput, s₁, eats, ending⟩ := Walk.bind_eq_ok_iff.mp run
  have keyed₁ := (settled.eat (b := false) _).keeps _ _ _ eats keyed
  cases isOutput with
  | true =>
    obtain ⟨_, s₂, passes, ending⟩ := Walk.bind_eq_ok_iff.mp ending
    have keyed₂ := (settled.expression (b := false) TokenKind.respects_endsInsertOutput).keeps _ _ _ passes keyed₁
    obtain ⟨word, rest₁, k₁, rfl, atExpression, plain⟩ :=
      @Walk.eat_plain d p (fun _ => True) (.keyword .output) (by decide) _ _ _ _ _ properRest atCursor trivial eats
    obtain ⟨inner, rest₂, k₂, rfl, atSource, nests⟩ :=
      @Walk.expression_nests d p (fun _ => True) 0 _ _ _ _ _ _ properRest.right atExpression trivial passes
    have within : rest₂ <:+ ts := .trans ⟨word ++ inner, by simp⟩ suffix
    obtain ⟨key?, keyed, placed⟩ := keyed_insertEnd proper within atSource keyed₂ ending
    exact ⟨key?, keyed, fun key is => ⟨word ++ inner, rest₂, by simp, (Nests.of_plain plain).append nests, placed key is⟩⟩
  | false =>
    obtain rfl := Walk.eat_stays eats
    obtain ⟨key?, keyed, placed⟩ := keyed_insertEnd proper suffix atCursor keyed₁ ending
    exact ⟨key?, keyed, fun key is => ⟨[], rest, rfl, Nests.nil, placed key is⟩⟩

/-- The places of a key that an INSERT records. -/
theorem keyed_insertStatement (atCursor : s.cursor = .along d p n ts) (keyed : Keyed d p ts none s)
    (run : Walk.insertStatement s = .ok () u) :
    ∃ key?, Keyed d p ts key? u ∧ ∀ key, key? = some key → KeyAt ts key := by
  have settled := (keyed_keptByRecords (d := d) (p := p) none proper).settled
  obtain ⟨_, s₁, verb, run⟩ := Walk.bind_eq_ok_iff.mp run
  have keyed₁ := (settled.expectAny (b := false) _ _).keeps.discards _ _ _ verb keyed
  obtain ⟨_, s₂, modifiers, run⟩ := Walk.bind_eq_ok_iff.mp run
  have keyed₂ := (settled.skipAll (b := false) _).keeps _ _ _ modifiers keyed₁
  obtain ⟨_, s₃, into, run⟩ := Walk.bind_eq_ok_iff.mp run
  have keyed₃ := (settled.discard_eat (b := false) _).keeps _ _ _ into keyed₂
  obtain ⟨_, s₄, names, run⟩ := Walk.bind_eq_ok_iff.mp run
  have keyed₄ := settled.readsName.keeps _ _ _ names keyed₃
  obtain ⟨columnsEnd?, s₅, lists, run⟩ := Walk.bind_eq_ok_iff.mp run
  have keyed₅ := (settled.insertColumns (.any _) (b := false)).keeps _ _ _ lists keyed₄
  obtain ⟨k₅, later, within, atRest⟩ := keyed₅.1
  obtain ⟨key?, keyed, placed⟩ := keyed_insertRest proper within atRest keyed₅ run
  refine ⟨key?, keyed, fun key is => ?_⟩
  obtain ⟨between, rows, rfl, closed, columnsEnd, valuesEnd, parameterIndex, verb, row, tail, rfl, rfl, isVerb, rfl, isRow⟩ :=
    placed key is
  -- the list stands after the name, which is the last token before it
  obtain ⟨k₃, rest₃, ⟨before, rfl⟩, atName⟩ := keyed₃.1
  obtain ⟨x, names, -⟩ := Walk.map_eq_ok_iff.mp names
  obtain ⟨x, s', names, records⟩ := Walk.bind_eq_ok_iff.mp names
  obtain ⟨head, name, columns, k₄, rfl, isName, atColumns⟩ := Walk.qualifiedName_run proper.right atName names
  cases records
  have properColumns := proper.right.right.tail
  obtain ⟨later, k, atLater, isList⟩ :=
    Walk.insertColumns_run (s := ⟨s'.cursor, s'.statement.addTable x none⟩) properColumns atColumns lists
  have properLater : Proper later := by
    obtain ⟨opening, inner, closing, rfl, -⟩ := id isList
    exact properColumns.right.tail
  have properRest : Proper (between ++ verb :: row) := fun t member => proper t (within.subset member)
  obtain rfl : later = between ++ verb :: row :=
    Cursor.along_injective properLater properRest (atLater.symm.trans atRest)
  exact ⟨before ++ head, name, columns, between, verb, row, tail, by simp, isName, isList, closed, isVerb, isRow⟩

/-- The places of a key that a statement records. -/
theorem keyed_wholeStatement {kind : StatementKind} {st : Statement}
    (run : Walk.wholeStatement kind ⟨.along d p 0 ts, .ofKind kind⟩ = .ok () ⟨.along d p n [], st⟩) :
    ∃ key?, (∀ q ∈ st.points, q.isKey = true → some q = key?) ∧ ∀ key, key? = some key → KeyAt ts key := by
  have kept (key? : Option RewritePoint) := keyed_keptByRecords (d := d) (p := p) key? proper
  have start : Keyed d p ts none ⟨.along d p 0 ts, .ofKind kind⟩ := ⟨⟨0, ts, List.suffix_refl ts, rfl⟩, nofun⟩
  obtain ⟨_, s₁, body, run⟩ := Walk.bind_eq_ok_iff.mp run
  have inside : ∃ key?, Keyed d p ts key? s₁ ∧ ∀ key, key? = some key → KeyAt ts key := by
    have settled := (kept none).settled
    cases kind with
    | insert => exact keyed_insertStatement proper rfl start body
    | select => exact ⟨none, (settled.query (b := false) trivial).keeps _ _ _ body start, nofun⟩
    | update => exact ⟨none, (settled.updateStatement trivial (b := false)).keeps _ _ _ body start, nofun⟩
    | delete => exact ⟨none, (settled.deleteStatement trivial (b := false)).keeps _ _ _ body start, nofun⟩
    | definition => exact ⟨none, (settled.definitionStatement (b := false)).keeps _ _ _ body start, nofun⟩
  obtain ⟨key?, keyed₁, placed⟩ := inside
  have settled := (kept key?).settled
  refine ⟨key?, (Walk.Keeps.bind (settled.discard_eat (b := false) _).keeps (fun _ => ?_) _ _ _ run keyed₁).2, placed⟩
  refine .bind (settled.isAtEnd (b := false)).keeps fun ended => .ite ?_ .pure
  exact fun _ _ _ run => nomatch run

end SqlSharding.Sql
