import SqlSharding.Proofs.PassedOver
import SqlSharding.Proofs.StatementNames
import SqlSharding.Proofs.TableNames

/-!
# Qualifiers that are recorded

Every qualifier that a statement passes is recorded, unless it is the schema of a table or is passed over. The tables that are
recorded are names with no dot behind them, so that no qualifier is among them.
-/

namespace SqlSharding.Sql

/-- A name in a text with no dot behind it. -/
def Undotted (ts : List Token) (x : Identifier) : Prop :=
  ∃ front t rest, ts = front ++ t :: rest ∧ x = .ofToken t ∧ ¬ BeginsWith [.symbol .dot] rest

/-- What has become of a qualifier that was passed. -/
inductive AccountedFor (st : Statement) (front : List Token) (q : Token) (rest : List Token) : Prop
  | recorded : .ofToken q ∈ st.qualifiers → AccountedFor st front q rest
  | schema {dot t : Token} {more : List Token} : rest = dot :: t :: more → .ofTable (.ofToken t) ∈ st.points →
      AccountedFor st front q rest
  | overlooked : Overlooked q front → AccountedFor st front q rest

/-- All qualifiers that were passed are accounted for, and the tables that are recorded are no qualifiers. -/
structure Accounted (ts before left : List Token) (st : Statement) : Prop where
  qualifiers : ∀ front q back, before = front ++ q :: back → Qualifies q (back ++ left) → AccountedFor st front q (back ++ left)
  tables : ∀ x, .ofTable x ∈ st.points → Undotted ts x

variable {d : Dialect} {p : Place} {ts before left later taken front rest : List Token} {st st' : Statement} {s t u : WalkState}
  {q : Token} {x : Identifier}

theorem Undotted.append (undotted : Undotted ts x) (before : List Token) : Undotted (before ++ ts) x := by
  obtain ⟨front, t, rest, rfl, isName, ends⟩ := undotted
  exact ⟨before ++ front, t, rest, by simp, isName, ends⟩

theorem TableText.undotted {v : Token} (isTable : TableText v taken) (ends : ¬ BeginsWith [.symbol .dot] later) :
    Undotted (taken ++ later) (.ofToken v) := by
  cases isTable with
  | bare => exact ⟨[], v, later, rfl, rfl, ends⟩
  | @schema schema dot => exact ⟨[schema, dot], v, later, rfl, rfl, ends⟩

theorem AccountedFor.mono (accounted : AccountedFor st front q rest) (qualifiers : ∀ x ∈ st.qualifiers, x ∈ st'.qualifiers)
    (tables : ∀ x, .ofTable x ∈ st.points → .ofTable x ∈ st'.points) : AccountedFor st' front q rest := by
  cases accounted with
  | recorded member => exact .recorded (qualifiers _ member)
  | schema isNext member => exact .schema isNext (tables _ member)
  | overlooked isOver => exact .overlooked isOver

namespace Accounted

theorem start (kind : StatementKind) : Accounted ts [] ts (.ofKind kind) :=
  ⟨fun _ _ _ split => by simp at split, fun _ member => by cases member⟩

section

variable (accounted : Accounted ts before (taken ++ later) st)

include accounted

/-- Some tokens are passed, and what is recorded by then accounts for the qualifiers among them. -/
theorem extend (qualifiers : ∀ x ∈ st.qualifiers, x ∈ st'.qualifiers) (tables : ∀ x, .ofTable x ∈ st.points → .ofTable x ∈ st'.points)
    (among : ∀ front q back, taken = front ++ q :: back → Qualifies q (back ++ later) →
      AccountedFor st' (before ++ front) q (back ++ later))
    (undotted : ∀ x, .ofTable x ∈ st'.points → .ofTable x ∈ st.points ∨ Undotted ts x) : Accounted ts (before ++ taken) later st' where
  qualifiers front q back split qualifies := by
    rcases stands_of_append split with ⟨mid, isFirst, rfl⟩ | ⟨pre, rfl, isSecond⟩
    · rw [List.append_assoc] at qualifies ⊢
      exact (accounted.qualifiers front q mid isFirst qualifies).mono qualifiers tables
    · exact among pre q back isSecond qualifies
  tables x member := (undotted x member).elim (accounted.tables x) id

theorem passed (skipped : PassesOver before taken later) (names : SameNames st st') : Accounted ts (before ++ taken) later st' :=
  accounted.extend (fun _ member => names.qualifiers ▸ member) (fun x => (names.points x).mpr)
    (fun front q back split qualifies => .overlooked (skipped front q back split qualifies))
    fun x member => .inl ((names.points x).mp member)

end

variable (accounted : Accounted ts before left st)

include accounted

theorem of_names (names : SameNames st st') : Accounted ts before left st' := by
  simpa using (show Accounted ts before ([] ++ left) st from accounted).passed .nil names

theorem addTable (undotted : Undotted ts x) (aliasName : Option String) : Accounted ts before left (st.addTable x aliasName) := by
  have tables (y : Identifier) (member : .ofTable y ∈ st.points) : .ofTable y ∈ (st.addTable x aliasName).points :=
    Statement.mem_addTable.mpr (.inl member)
  refine ⟨fun front q back split qualifies => (accounted.qualifiers front q back split qualifies).mono (fun _ => id) tables, ?_⟩
  intro y member
  rcases Statement.mem_addTable.mp member with old | rfl
  · exact accounted.tables y old
  · exact undotted

theorem addTargets {targets : List Identifier} (undotted : ∀ x ∈ targets, Undotted ts x) :
    Accounted ts before left (targets.foldl Walk.addTarget st) := by
  induction targets generalizing st with
  | nil => exact accounted
  | cons x targets ih =>
    refine ih ?_ fun y member => undotted y (List.mem_cons_of_mem x member)
    rw [Walk.addTarget]
    split
    · exact accounted.addTable (undotted x List.mem_cons_self) none
    · exact accounted

end Accounted

/-! ## Walks -/

/-- A walk has passed a part of a text, and what it has recorded meets a condition. -/
def ReadsTo (d : Dialect) (p : Place) (ts : List Token) (A : List Token → List Token → Statement → Prop) (s : WalkState) : Prop :=
  ∃ before left, ts = before ++ left ∧ Poised d p before left s ∧ A before left s.statement

/-- All qualifiers behind are accounted for. -/
def KnowsQualifiers (d : Dialect) (p : Place) (ts : List Token) : WalkState → Prop := ReadsTo d p ts (Accounted ts)

/-- All qualifiers behind are accounted for, unless a dot stands next. -/
def KnowsUndotted (d : Dialect) (p : Place) (ts : List Token) : WalkState → Prop :=
  ReadsTo d p ts fun before left st => ¬ BeginsWith [.symbol .dot] left → Accounted ts before left st

namespace Poised

variable (poised : Poised d p before left s)

include poised

theorem not_beginsWith_dot (other : s.cursor.kind ≠ .symbol .dot) : ¬ BeginsWith [.symbol .dot] left := by
  rintro ⟨t, rest, rfl, isDot⟩
  rw [poised, Cursor.along_cons_kind] at other
  exact other (List.mem_singleton.mp isDot)

variable (proper : Proper left)

include proper

/-- A step passes the current token, or stays at the end of the text. -/
theorem advance_or {v : Token} (run : Walk.advance s = .ok v u) :
    u = s ∨ ∃ later, Passed d p before left s [v] later u ∧ s.cursor.current = v := by
  by_cases atEnd : s.cursor.kind = .endOfInput
  · obtain ⟨next, step, -, rfl⟩ := Walk.advance_eq_ok_iff.mp run
    cases left with
    | nil =>
      rw [poised, Cursor.along_step_nil, ← poised] at step
      cases step
      exact .inl rfl
    | cons v later =>
      rw [poised, Cursor.along_cons_kind] at atEnd
      exact absurd atEnd proper.head
  · exact .inr (poised.advance proper atEnd run)

end Poised

theorem KnowsQualifiers.loosen (knows : KnowsQualifiers d p ts s) : KnowsUndotted d p ts s := by
  obtain ⟨before, left, whole, poised, accounted⟩ := knows
  exact ⟨before, left, whole, poised, fun _ => accounted⟩

theorem KnowsQualifiers.of_names (names : SameNames s.statement st) (knows : KnowsQualifiers d p ts s) :
    KnowsQualifiers d p ts { s with statement := st } := by
  obtain ⟨before, left, whole, poised, accounted⟩ := knows
  exact ⟨before, left, whole, poised, accounted.of_names names⟩

section

variable (accounted : Accounted ts before left s.statement)

include accounted

theorem Accounted.knows_of_passed (whole : ts = before ++ left) (passed : Passed d p before left s taken later u)
    (skipped : PassesOver before taken later) : KnowsQualifiers d p ts u := by
  obtain ⟨rfl, poised, unchanged⟩ := passed
  refine ⟨before ++ taken, later, by rw [whole, List.append_assoc], poised, ?_⟩
  rw [unchanged]
  exact accounted.passed skipped (.refl _)

/-- Where the name of a table is read with its alias the table is recorded, and its schema is accounted for. -/
theorem Accounted.knows_of_table {names aliases : List Token} {v : Token} {aliasName : Option String} (whole : ts = before ++ left)
    (passed : Passed d p before left s (names ++ aliases) later u) (isTable : TableText v names) (isAlias : AliasText aliases) :
    KnowsUndotted d p ts { u with statement := u.statement.addTable (.ofToken v) aliasName } := by
  obtain ⟨rfl, poised, unchanged⟩ := passed
  refine ⟨before ++ (names ++ aliases), later, whole.trans (List.append_assoc ..).symm, poised, fun ends => ?_⟩
  have undotted : ¬ BeginsWith [.symbol .dot] (aliases ++ later) := isAlias.not_beginsWith ends
  have recorded : .ofTable (.ofToken v) ∈ (u.statement.addTable (.ofToken v) aliasName).points :=
    Statement.mem_addTable.mpr (.inr rfl)
  have isUndotted : Undotted ts (.ofToken v) := by
    rw [whole, List.append_assoc]
    exact (isTable.undotted undotted).append before
  rw [unchanged] at recorded ⊢
  refine accounted.extend (fun _ => id) (fun y member => Statement.mem_addTable.mpr (.inl member)) ?_ ?_
  · intro front q back split qualifies
    rcases stands_of_append split with ⟨mid, isFirst, rfl⟩ | ⟨pre, rfl, isSecond⟩
    · rw [List.append_assoc] at qualifies
      obtain ⟨dot, rfl⟩ := isTable.schema_of_qualifies undotted isFirst qualifies
      exact .schema rfl recorded
    · exact absurd qualifies (isAlias.not_qualifies ends isSecond)
  · intro y member
    rcases Statement.mem_addTable.mp member with old | rfl
    · exact .inl old
    · exact .inr isUndotted

end

section

variable (proper : Proper ts)

include proper

theorem knowsQualifiers_column : Walk.Leads (KnowsQualifiers d p ts) (KnowsQualifiers d p ts) Walk.column := by
  rintro s x? u run ⟨before, left, whole, poised, accounted⟩
  have properLeft : Proper left := proper.rest whole
  obtain ⟨taken, later, names, star, rfl, poised', spelled, ends, recorded, -⟩ := poised.columnName properLeft run
  refine ⟨before ++ taken, later, by rw [whole, List.append_assoc], poised', ?_⟩
  cases owner : nameOwner? names star with
  | none =>
    rw [recorded, owner]
    refine accounted.passed (fun front q back split qualifies => ?_) (.refl _)
    cases owner.symm.trans (spelled.owner_of_qualifies ends split qualifies)
  | some q =>
    rw [recorded, owner]
    refine accounted.extend (fun x member => List.mem_append_left _ member) (fun _ => id) (fun front q' back split qualifies => ?_)
      fun x member => .inl member
    cases owner.symm.trans (spelled.owner_of_qualifies ends split qualifies)
    exact .recorded (List.mem_append_right _ (List.mem_singleton.mpr rfl))

theorem knowsQualifiers_table : Walk.Leads (KnowsQualifiers d p ts) (KnowsUndotted d p ts) Walk.aliasedTable := by
  rintro s v u run ⟨before, left, whole, poised, accounted⟩
  have properLeft : Proper left := proper.rest whole
  obtain ⟨x, s₁, names, run⟩ := Walk.bind_eq_ok_iff.mp run
  obtain ⟨t, table, mid, passed, isTable, rfl⟩ := poised.qualifiedName properLeft names
  obtain ⟨a?, s₂, reads, records⟩ := Walk.bind_eq_ok_iff.mp run
  obtain ⟨aliases, later, passed', isAlias⟩ := passed.poised.alias? (passed.proper properLeft) reads
  cases records
  exact accounted.knows_of_table whole (passed.trans passed') isTable isAlias

theorem knowsQualifiers_name : Walk.Leads (KnowsQualifiers d p ts) (KnowsUndotted d p ts) (discard Walk.tableName) := by
  rintro s v u run ⟨before, left, whole, poised, accounted⟩
  have properLeft : Proper left := proper.rest whole
  obtain ⟨x, run, -⟩ := Walk.map_eq_ok_iff.mp run
  obtain ⟨y, s₁, names, run⟩ := Walk.bind_eq_ok_iff.mp run
  obtain ⟨t, table, later, passed, isTable, rfl⟩ := poised.qualifiedName properLeft names
  obtain ⟨_, _, ⟨⟩, run⟩ := Walk.bind_eq_ok_iff.mp run
  obtain ⟨-, rfl⟩ := Walk.pure_eq_ok_iff.mp run
  exact accounted.knows_of_table whole (passed.trans (.refl passed.poised)) isTable .none

theorem knowsQualifiers_aliases : Walk.Leads (KnowsQualifiers d p ts) (KnowsUndotted d p ts) (discard Walk.alias?) := by
  rintro s v u run ⟨before, left, whole, poised, accounted⟩
  have properLeft : Proper left := proper.rest whole
  obtain ⟨x, run, -⟩ := Walk.map_eq_ok_iff.mp run
  obtain ⟨taken, later, ⟨rfl, poised', unchanged⟩, isAlias⟩ := poised.alias? properLeft run
  refine ⟨before ++ taken, later, by rw [whole, List.append_assoc], poised', fun ends => ?_⟩
  rw [unchanged]
  refine accounted.passed (fun front q back split qualifies => ?_) (.refl _)
  exact absurd qualifies (isAlias.not_qualifies ends split)

theorem knowsUndotted_hints : Walk.Leads (KnowsUndotted d p ts) (KnowsUndotted d p ts) Walk.tableHints := by
  refine .repeatWhile ?_
  rintro s again u run ⟨before, left, whole, poised, knows⟩
  have properLeft : Proper left := proper.rest whole
  rcases poised.hint_passesOver properLeft run with rfl | ⟨word, taken, later, passed, skipped, noDot⟩
  · exact ⟨before, left, whole, poised, knows⟩
  · have accounted := knows (passed.split ▸ not_beginsWith_cons noDot)
    exact (accounted.knows_of_passed whole passed skipped).loosen

theorem knowsUndotted_locking : Walk.Leads (KnowsUndotted d p ts) (KnowsUndotted d p ts) Walk.lockingClause := by
  rintro s v u run ⟨before, left, whole, poised, knows⟩
  have properLeft : Proper left := proper.rest whole
  rcases poised.lockingClause_passesOver properLeft run with rfl | ⟨word, taken, later, passed, skipped, noDot⟩
  · exact ⟨before, left, whole, poised, knows⟩
  · have accounted := knows (passed.split ▸ not_beginsWith_cons noDot)
    exact (accounted.knows_of_passed whole passed skipped).loosen

theorem knowsQualifiers_kept : Walk.KeptByStatementNames (KnowsQualifiers d p ts) (KnowsUndotted d p ts) where
  loosen _ := KnowsQualifiers.loosen
  tighten s other := by
    rintro ⟨before, left, whole, poised, knows⟩
    exact ⟨before, left, whole, poised, knows (poised.not_beginsWith_dot other)⟩
  advance s x t run other := by
    rintro ⟨before, left, whole, poised, accounted⟩
    rcases poised.advance_or (proper.rest whole) run with rfl | ⟨later, passed, rfl⟩
    · exact ⟨before, left, whole, poised, accounted⟩
    · exact accounted.knows_of_passed whole passed (.single other)
  lock s x t run isLock := by
    rintro ⟨before, left, whole, poised, accounted⟩
    rcases poised.advance_or (proper.rest whole) run with rfl | ⟨later, passed, rfl⟩
    · exact ⟨before, left, whole, poised, accounted⟩
    · -- the word stands before `IN`
      obtain ⟨word, next, rest, isNext, -, isIn⟩ := poised.behind_lock (proper.rest whole) isLock
      obtain ⟨rfl, rfl⟩ := List.cons_eq_cons.mp (passed.split.symm.trans isNext)
      refine accounted.knows_of_passed whole passed fun front q back split qualifies => ?_
      obtain ⟨-, rfl⟩ := stands_of_singleton split
      exact absurd qualifies.beginsWith (not_beginsWith_cons (TokenKind.ne_symbol_of_keyword isIn))
  conditions s cs := .of_names (.conditions cs s.statement)
  paginate s rowCount offset rewritable := .of_names (.paginate rowCount offset rewritable s.statement)
  column := knowsQualifiers_column proper
  table := knowsQualifiers_table proper
  aliases := knowsQualifiers_aliases proper
  hints := knowsUndotted_hints proper
  grouped s t u eats skips := by
    rintro ⟨before, left, whole, poised, accounted⟩
    obtain ⟨word, mid, passed, isUsing⟩ := poised.eat (proper.rest whole) rfl eats
    obtain ⟨taken, later, passed', skipped⟩ := Poised.using_passesOver (proper.rest whole) passed isUsing skips
    exact accounted.knows_of_passed whole passed' skipped
  top r := by
    rintro s v u run ⟨before, left, whole, poised, accounted⟩
    obtain ⟨taken, later, rfl, poised', isTop, names⟩ := poised.topTokens (proper.rest whole) run
    exact ⟨_, later, by rw [whole, List.append_assoc], poised', accounted.passed isTop.passesOver names⟩
  locking := knowsUndotted_locking proper
  rows s columns n := .of_names (.rows columns n s.statement)
  key s columnsEnd valuesEnd parameterIndex := .of_names (.key columnsEnd valuesEnd parameterIndex s.statement)
  name := knowsQualifiers_name proper

end

/-! ## DELETE -/

theorem TokenKind.endsClause_of_isIdentifier {k : TokenKind} (isName : k.isIdentifier = true) : k.endsClause = false := by
  cases k with
  | identifier | quotedIdentifier => rfl
  | _ => cases isName

theorem TableText.no_clause {v : Token} (isTable : TableText v taken) : ∀ t ∈ taken, t.kind.endsClause = false := by
  cases isTable with
  | bare isName => simpa using TokenKind.endsClause_of_isIdentifier isName
  | schema isSchema isDot isName =>
    simp only [List.forall_mem_cons, List.not_mem_nil, false_imp_iff, implies_true, and_true]
    exact ⟨TokenKind.endsClause_of_isIdentifier isSchema, by rw [isDot]; rfl, TokenKind.endsClause_of_isIdentifier isName⟩

/-- The tokens of the targets of a `DELETE`, which are names of tables with commas between them. -/
structure TargetsText (taken : List Token) (targets : List Identifier) : Prop where
  noClause : ∀ t ∈ taken, t.kind.endsClause = false
  undotted : ∀ rest, ¬ BeginsWith [.symbol .dot] rest → ∀ x ∈ targets, Undotted (taken ++ rest) x

theorem TargetsText.first {v : Token} (isTable : TableText v taken) : TargetsText taken [.ofToken v] where
  noClause := isTable.no_clause
  undotted rest ends x member := by
    rw [List.mem_singleton.mp member]
    exact isTable.undotted ends

theorem TargetsText.next {targets : List Identifier} {name : List Token} {comma v : Token} (text : TargetsText taken targets)
    (isComma : comma.kind = .symbol .comma) (isTable : TableText v name) :
    TargetsText (taken ++ ([comma] ++ name)) (targets ++ [.ofToken v]) where
  noClause t member := by
    rcases List.mem_append.mp member with old | new
    · exact text.noClause t old
    · rcases List.mem_cons.mp new with rfl | inName
      · rw [isComma]
        rfl
      · exact isTable.no_clause t inName
  undotted rest ends x member := by
    rw [List.append_assoc]
    rcases List.mem_append.mp member with old | new
    · exact text.undotted _ (not_beginsWith_cons (by simp [isComma])) x old
    · rw [List.mem_singleton.mp new, List.append_assoc]
      exact ((isTable.undotted ends).append [comma]).append taken

theorem Poised.deleteTargets (proper : Proper left) (poised : Poised d p before left s) {targets : List Identifier}
    (run : Walk.deleteTargets s = .ok targets u) :
    ∃ taken later, Passed d p before left s taken later u ∧ TargetsText taken targets := by
  obtain ⟨x, s₁, names, run⟩ := Walk.bind_eq_ok_iff.mp run
  obtain ⟨t, first, mid, passed, isTable, rfl⟩ := poised.qualifiedName proper names
  refine Walk.repeatFrom_invariant (J := fun targets u => ∃ taken later, Passed d p before left s taken later u ∧
    TargetsText taken targets) ?_ run ⟨first, mid, passed, .first isTable⟩
  rintro targets s₁ ⟨again, targets'⟩ u ⟨taken, mid, passed, text⟩ run
  obtain ⟨isComma, s₂, eats, ending⟩ := Walk.bind_eq_ok_iff.mp run
  have eaten := passed.poised.eat (passed.proper proper) rfl eats
  cases isComma with
  | false =>
    obtain rfl : s₂ = s₁ := eaten
    obtain ⟨same, rfl⟩ := Walk.pure_eq_ok_iff.mp ending
    cases same
    exact ⟨taken, mid, passed, text⟩
  | true =>
    obtain ⟨comma, mid', passed₁, isComma⟩ := eaten
    obtain ⟨y, s₃, names, ending⟩ := Walk.bind_eq_ok_iff.mp ending
    obtain ⟨same, rfl⟩ := Walk.pure_eq_ok_iff.mp ending
    cases same
    obtain ⟨t, name, later, passed₂, isTable, rfl⟩ := passed₁.poised.qualifiedName (passed₁.proper (passed.proper proper)) names
    exact ⟨_, later, passed.trans (passed₁.trans passed₂), text.next isComma isTable⟩

/-- No name is among some tokens that are all of given kinds. -/
theorem PassesOver.of_kinds {ks : List TokenKind} (others : ∀ k ∈ ks, k.isIdentifier = false) (ofKinds : ∀ t ∈ taken, t.kind ∈ ks) :
    PassesOver before taken later := fun front q back split qualifies => by
  have other := others q.kind (ofKinds q (split ▸ by simp))
  rw [qualifies.isIdentifier] at other
  cases other

section

variable (proper : Proper ts)

include proper

/-- The sources of a `DELETE`, behind its first words and its `TOP`. -/
theorem knowsUndotted_deleteSources {head : List Token} (isHead : DeleteHead head) (whole : ts = head ++ left)
    (poised : Poised d p head left s) (accounted : Accounted ts head left s.statement) {v : Unit}
    (run : Walk.deleteSources s = .ok v u) : KnowsUndotted d p ts u := by
  have kept := knowsQualifiers_kept (d := d) (p := p) proper
  have knows : KnowsQualifiers d p ts s := ⟨_, left, whole, poised, accounted⟩
  have properLeft : Proper left := proper.rest whole
  obtain ⟨isFrom, s₁, eats, sources⟩ := Walk.bind_eq_ok_iff.mp run
  have knows₁ : KnowsQualifiers d p ts s₁ := kept.eat rfl s isFrom s₁ eats knows
  cases isFrom with
  | true => exact (kept.tableReferences.bind fun _ => kept.deleteEnd) s₁ v u sources knows₁
  | false =>
    obtain rfl : s₁ = s := poised.eat properLeft rfl eats
    obtain ⟨targets, s₂, reads, ending⟩ := Walk.bind_eq_ok_iff.mp sources
    obtain ⟨taken, later, ⟨rfl, poised₂, unchanged⟩, text⟩ := poised.deleteTargets properLeft reads
    have whole₂ : ts = head ++ taken ++ later := whole.trans (List.append_assoc ..).symm
    have accounted₂ : Accounted ts (head ++ taken) later s₂.statement := by
      rw [unchanged]
      refine accounted.passed (fun front q back split _ => .target isHead fun t member => ?_) (.refl _)
      exact text.noClause t (by simp [split, member])
    have undotted (noDot : ¬ BeginsWith [.symbol .dot] later) : ∀ x ∈ targets, Undotted ts x := fun x member =>
      whole ▸ (text.undotted later noDot x member).append _
    obtain ⟨isFrom, s₃, eats, tail⟩ := Walk.bind_eq_ok_iff.mp ending
    have eaten := poised₂.eat properLeft.right rfl eats
    cases isFrom with
    | true =>
      obtain ⟨word, rest, passed, isWord⟩ := eaten
      have noDot : ¬ BeginsWith [.symbol .dot] later := passed.split ▸ not_beginsWith_cons (TokenKind.ne_symbol_of_keyword isWord)
      have records : Walk.Leads (KnowsUndotted d p ts) (KnowsUndotted d p ts) (Walk.record (targets.foldl Walk.addTarget)) :=
        .records fun w ⟨before, left, whole, poised, knows⟩ =>
          ⟨before, left, whole, poised, fun ends => (knows ends).addTargets (undotted noDot)⟩
      have knows₃ : KnowsQualifiers d p ts s₃ := kept.eat rfl s₂ true s₃ eats ⟨_, later, whole₂, poised₂, accounted₂⟩
      exact (kept.tableReferences.bind fun _ => records.bind fun _ => kept.deleteEnd) s₃ v u tail knows₃
    | false =>
      obtain rfl : s₃ = s₂ := eaten
      obtain ⟨_, _, ⟨⟩, tail⟩ := Walk.bind_eq_ok_iff.mp tail
      exact kept.deleteEnd _ v u tail ⟨_, later, whole₂, poised₂, fun noDot => accounted₂.addTargets (undotted noDot)⟩

theorem knowsUndotted_delete :
    Walk.Leads (fun s => Poised d p [] ts s ∧ s.statement = .ofKind .delete) (KnowsUndotted d p ts) Walk.deleteStatement := by
  rintro s v u run ⟨poised, isStart⟩
  obtain ⟨_, s₁, expects, run⟩ := Walk.bind_eq_ok_iff.mp run
  obtain ⟨word, mid, passed₁, isDelete⟩ := poised.expect proper rfl expects
  obtain ⟨_, s₂, skips, run⟩ := Walk.bind_eq_ok_iff.mp run
  obtain ⟨modifiers, left, passed₂, areModifiers, -⟩ := passed₁.poised.skipAll (by decide) (passed₁.proper proper) skips
  obtain ⟨whole, poised₂, unchanged⟩ := passed₁.trans passed₂
  have words : ∀ t ∈ [word] ++ modifiers, t.kind ∈ [.keyword .delete, .keyword .lowPriority, .keyword .quick, .keyword .ignore] := by
    intro t member
    rcases List.mem_cons.mp member with rfl | isModifier
    · exact isDelete ▸ List.mem_cons_self
    · exact List.mem_cons_of_mem _ (areModifiers t isModifier)
  have isHead : DeleteHead ([word] ++ modifiers) := by
    have each : ∀ k ∈ [TokenKind.keyword .delete, .keyword .lowPriority, .keyword .quick, .keyword .ignore], k.endsClause = false := by
      decide
    exact .words ⟨word, modifiers, rfl, List.mem_singleton.mpr isDelete⟩ fun t member => each t.kind (words t member)
  have accounted : Accounted ts ([word] ++ modifiers) left s₂.statement := by
    have start : Accounted ts [] ([word] ++ modifiers ++ left) (.ofKind .delete) := whole ▸ .start .delete
    rw [unchanged, isStart]
    exact start.passed (.of_kinds (by decide) words) (.refl _)
  obtain ⟨isTop, _, ⟨⟩, run⟩ := Walk.bind_eq_ok_iff.mp run
  split at run
  · obtain ⟨_, s₃, tops, sources⟩ := Walk.bind_eq_ok_iff.mp run
    obtain ⟨top, later, rfl, poised₃, isTop, names⟩ := poised₂.topTokens (proper.rest whole) tops
    exact knowsUndotted_deleteSources proper (isHead.top isTop) (whole.trans (List.append_assoc ..).symm) poised₃
      (accounted.passed isTop.passesOver names) sources
  · exact knowsUndotted_deleteSources proper isHead whole poised₂ accounted run

theorem knowsQualifiers_wholeStatement {kind : StatementKind} (other : kind ≠ .definition) :
    Walk.Leads (fun s => Poised d p [] ts s ∧ s.statement = .ofKind kind) (KnowsQualifiers d p ts) (Walk.wholeStatement kind) := by
  have kept := knowsQualifiers_kept (d := d) (p := p) proper
  refine kept.wholeStatement ?_
  have start (s : WalkState) (starts : Poised d p [] ts s ∧ s.statement = .ofKind kind) : KnowsQualifiers d p ts s :=
    ⟨[], ts, rfl, starts.1, starts.2 ▸ .start kind⟩
  cases kind with
  | select => exact (kept.query true).weaken start
  | insert => exact kept.insertStatement.weaken start
  | update => exact kept.updateStatement.weaken start
  | delete => exact knowsUndotted_delete proper
  | definition => exact absurd rfl other

end

end SqlSharding.Sql
