import Mathlib.Data.List.Perm.Subperm
import SqlSharding.Proofs.Clauses

/-!
# What walks gather

Between two places of a text a walk adds conditions, a pagination and places of keys to its statement. Each of them is
spelled by tokens of the text. The placeholders that it refers to stand between the two places, and no two of them are
the same: every placeholder is passed once, and what is read of it is recorded at most once. As long as the conditions
stay usable, those found before stay in front.
-/

namespace SqlSharding.Sql

/-! ## Conditions in the text -/

/-- The tokens of some values with a comma after each. -/
inductive ItemsSpelled (n : Nat) : List Token → List Operand → Prop
  | nil : ItemsSpelled n [] []
  | snoc {ts us : List Token} {comma : Token} {vs : List Operand} {v : Operand} : ItemsSpelled n ts vs →
      v.Spelled (n + placeholders ts) us → comma.kind = .symbol .comma → ItemsSpelled n (ts ++ us ++ [comma]) (vs ++ [v])

/-- The tokens of some values with commas between them. -/
inductive ValuesSpelled (n : Nat) : List Token → List Operand → Prop
  | mk {ts us : List Token} {vs : List Operand} {v : Operand} : ItemsSpelled n ts vs →
      v.Spelled (n + placeholders ts) us → ValuesSpelled n (ts ++ us) (vs ++ [v])

/-- The tokens of a list of values in parentheses. -/
inductive ListSpelled (n : Nat) : List Token → List Operand → Prop
  | mk {opening closing : Token} {ts : List Token} {vs : List Operand} : opening.kind = .symbol .leftParen →
      ValuesSpelled n ts vs → closing.kind = .symbol .rightParen → ListSpelled n ([opening] ++ ts ++ [closing]) vs

/-- The tokens of two values with `AND` between them. -/
inductive RangeSpelled (n : Nat) : List Token → Operand → Operand → Prop
  | mk {lower upper : List Token} {word : Token} {v w : Operand} : v.Spelled n lower → word.kind = .keyword .and →
      w.Spelled (n + placeholders lower) upper → RangeSpelled n (lower ++ [word] ++ upper) v w

/-- The tokens that spell a condition after the given number of placeholders. -/
inductive Condition.Spelled (n : Nat) : List Token → Condition → Prop
  | equal {name value : List Token} {sign : Token} {x : Column} {v : Operand} : x.Spelled name →
      sign.kind ∈ [.symbol .eq, .symbol .eqEq] → v.Spelled n value → Spelled n (name ++ [sign] ++ value) ⟨x, .equal, [v]⟩
  | isIn {name list : List Token} {word : Token} {x : Column} {vs : List Operand} : x.Spelled name →
      word.kind = .keyword .in → ListSpelled n list vs → Spelled n (name ++ [word] ++ list) ⟨x, .isIn, vs⟩
  | between {name range : List Token} {word : Token} {x : Column} {v w : Operand} : x.Spelled name →
      word.kind = .keyword .between → RangeSpelled n range v w → Spelled n (name ++ [word] ++ range) ⟨x, .between, [v, w]⟩

/-- The numbers of the placeholders that a condition refers to. -/
def Condition.indices (c : Condition) : List Nat := c.values.flatMap Operand.indices

theorem ItemsSpelled.indices_eq {n : Nat} {ts : List Token} {vs : List Operand} (spelled : ItemsSpelled n ts vs) :
    vs.flatMap Operand.indices = List.range' n (placeholders ts) := by
  induction spelled with
  | nil => rfl
  | snoc _ last isComma ih =>
    rw [List.flatMap_append, ih, placeholders_append, placeholders_append, placeholders_other (by simp [isComma]),
      Nat.add_zero, ← List.range'_append_1, ← last.indices_eq]
    simp

theorem ValuesSpelled.indices_eq {n : Nat} {ts : List Token} {vs : List Operand} (spelled : ValuesSpelled n ts vs) :
    vs.flatMap Operand.indices = List.range' n (placeholders ts) := by
  obtain ⟨first, last⟩ := spelled
  rw [placeholders_append, ← List.range'_append_1, ← first.indices_eq, ← last.indices_eq]
  simp

theorem ListSpelled.indices_eq {n : Nat} {ts : List Token} {vs : List Operand} (spelled : ListSpelled n ts vs) :
    vs.flatMap Operand.indices = List.range' n (placeholders ts) := by
  obtain ⟨isOpening, values, isClosing⟩ := spelled
  rw [placeholders_append, placeholders_append, placeholders_other (by simp [isOpening]),
    placeholders_other (by simp [isClosing]), Nat.zero_add, Nat.add_zero, values.indices_eq]

theorem RangeSpelled.indices_eq {n : Nat} {ts : List Token} {v w : Operand} (spelled : RangeSpelled n ts v w) :
    v.indices ++ w.indices = List.range' n (placeholders ts) := by
  obtain ⟨first, isAnd, second⟩ := spelled
  rename_i lower upper word
  have counted : placeholders (lower ++ [word] ++ upper) = placeholders lower + placeholders upper := by
    simp only [placeholders_append, placeholders_other (t := word) (by simp [isAnd]), Nat.add_zero]
  rw [counted, ← List.range'_append_1, ← first.indices_eq, ← second.indices_eq]

theorem Condition.Spelled.indices_eq {n : Nat} {ts : List Token} {c : Condition} (spelled : c.Spelled n ts) :
    c.indices = List.range' n (placeholders ts) := by
  have counted {name operands : List Token} {word : Token} {x : Column} (column : x.Spelled name)
      (plain : word.kind ≠ .symbol .question) : placeholders (name ++ [word] ++ operands) = placeholders operands := by
    simp only [placeholders_append, placeholders_name column.name, placeholders_other plain, Nat.zero_add]
  cases spelled with
  | equal column isSign value =>
    rw [counted column (by intro same; simp [same] at isSign), ← value.indices_eq]
    simp [indices]
  | isIn column isWord list =>
    rw [counted column (by simp [isWord]), ← list.indices_eq]
    rfl
  | between column isWord range =>
    rw [counted column (by simp [isWord]), ← range.indices_eq]
    simp [indices]

/-- The tokens that spell a value of a row, between parentheses or commas. -/
structure RowItem (before ts after : List Token) (v : Operand) : Prop where
  spelled : v.Spelled (placeholders before) ts
  opens : ∃ t, before.getLast? = some t ∧ t.kind ∈ [.symbol .leftParen, .symbol .comma]
  closes : ∃ t, after.head? = some t ∧ t.kind ∈ [.symbol .comma, .symbol .rightParen]

/-- A condition of a text: a comparison, or an item of the only row of an `INSERT`. -/
def Condition.SpelledIn (ts : List Token) (c : Condition) : Prop :=
  ∃ before taken after, ts = before ++ taken ++ after ∧ (c.Spelled (placeholders before) taken ∨
    ∃ column v, c = ⟨⟨none, column⟩, .equal, [v]⟩ ∧ RowItem before taken after v)

/-- A pagination of a text. -/
def Limit.SpelledIn (ts : List Token) (l : Limit) : Prop :=
  ∃ before taken after rowCount offset, ts = before ++ taken ++ after ∧
    PageClause (placeholders before) taken rowCount offset ∧ l.rowCount = rowCount.map (·.bound) ∧
    l.offset = offset.map (·.bound)

/-- A literal bound of a pagination clause, or the place of a key with the number of the placeholders that begin before
the end of its row. -/
def RewritePoint.SpelledIn (ts : List Token) : RewritePoint → Prop
  | offset span i => ∃ before taken after rowCount, ts = before ++ taken ++ after ∧
      PageClause (placeholders before) taken rowCount (some ⟨.literal i, span⟩)
  | rowCount span i => ∃ before taken after offset, ts = before ++ taken ++ after ∧
      PageClause (placeholders before) taken (some ⟨.literal i, span⟩) offset
  | generatedKey _ valuesEnd i => i = placeholders (ts.filter fun t => t.span.start < valuesEnd)
  | table .. => True

/-- The pagination of a statement is spelled by a clause of a text, and the places of its literal bounds are recorded. -/
def Statement.Paged (ts : List Token) (s : Statement) : Prop :=
  ∃ before taken after rowCount offset rewritable, ts = before ++ taken ++ after ∧
    PageClause (placeholders before) taken rowCount offset ∧
    s.limit = some ⟨rowCount.map (·.bound), offset.map (·.bound), rewritable⟩ ∧
    boundPoints .offset offset ++ boundPoints .rowCount rowCount ⊆ s.points

theorem Statement.Paged.spelledIn {ts : List Token} {s : Statement} (paged : s.Paged ts) {l : Limit} (isLimit : s.limit = some l) :
    l.SpelledIn ts := by
  obtain ⟨before, taken, after, rowCount, offset, rewritable, whole, clause, isLimit', -⟩ := paged
  rw [isLimit] at isLimit'
  cases isLimit'
  exact ⟨before, taken, after, rowCount, offset, whole, clause, rfl, rfl⟩

/-- The numbers of the placeholders that a statement refers to in its conditions and its pagination. -/
def Statement.indices (s : Statement) : List Nat :=
  s.conditions.entries.flatMap Condition.indices ++ s.limit.elim [] Limit.indices

/-- Whether a point is a literal bound of a pagination clause. -/
def RewritePoint.isBound : RewritePoint → Bool
  | offset .. | rowCount .. => true
  | table .. | generatedKey .. => false

/-- The literal bounds that a statement has recorded, in the order in which it has. -/
def Statement.bounds (s : Statement) : List RewritePoint := s.points.filter RewritePoint.isBound

/-! ## From one statement to another -/

/-- What a statement gains between two places of a text, given the number of placeholders before the first place and
between the two. Some of the placeholders may be held back: they have been read and not been recorded yet. Only where it
is recorded, the pagination changes and literal bounds are added. -/
structure Gathered (ts : List Token) (isRecorded : Bool) (start count : Nat) (held : List Nat) (s u : Statement) : Prop
    where
  indices : (u.indices ++ held).Subperm (s.indices ++ List.range' start count)
  spelled : ∀ c ∈ u.conditions.entries, c ∈ s.conditions.entries ∨ c.SpelledIn ts
  points : ∀ q ∈ u.points, q ∈ s.points ∨ q.SpelledIn ts
  kept : s.points ⊆ u.points
  bounds : isRecorded = false → u.bounds = s.bounds
  limit : u.limit = s.limit ∨ isRecorded = true ∧ u.Paged ts
  grows : u.conditions.usable = true → s.conditions.usable = true ∧ s.conditions.entries <+: u.conditions.entries

namespace Gathered

variable {ts : List Token} {r : Bool} {start count more : Nat} {held held' : List Nat} {s t u : Statement}

/-- Conditions and pagination stay as they are. -/
theorem stays (conditions : u.conditions = s.conditions) (limit : u.limit = s.limit)
    (points : ∀ q ∈ u.points, q ∈ s.points ∨ q.SpelledIn ts) (kept : s.points ⊆ u.points) (bounds : u.bounds = s.bounds)
    (new : held.Subperm (List.range' start count)) : Gathered ts r start count held s u where
  indices := by
    rw [Statement.indices, conditions, limit]
    exact (List.subperm_append_left s.indices).mpr new
  spelled c member := .inl (conditions ▸ member)
  points := points
  kept := kept
  bounds _ := bounds
  limit := .inl limit
  grows usable := by
    rw [conditions] at usable ⊢
    exact ⟨usable, List.prefix_refl _⟩

/-- Nothing is gained but placeholders that are not recorded. -/
theorem idle (s : Statement) (new : held.Subperm (List.range' start count)) : Gathered ts r start count held s s :=
  stays rfl rfl (fun _ member => .inl member) (List.Subset.refl _) rfl new

theorem qualifiers (s : Statement) (qualifiers : List Identifier) (new : held.Subperm (List.range' start count)) :
    Gathered ts r start count held s { s with qualifiers } :=
  stays rfl rfl (fun _ member => .inl member) (List.Subset.refl _) rfl new

theorem trans (first : Gathered ts r start count held s t) (second : Gathered ts r (start + count) more held' t u) :
    Gathered ts r start (count + more) (held ++ held') s u where
  indices := by
    rw [← List.range'_append_1, ← List.append_assoc s.indices]
    have shifted : (u.indices ++ (held ++ held')).Perm ((u.indices ++ held') ++ held) := by
      rw [List.append_assoc]
      exact List.perm_append_comm.append_left u.indices
    have moved : ((t.indices ++ List.range' (start + count) more) ++ held).Perm
        ((t.indices ++ held) ++ List.range' (start + count) more) := by
      rw [List.append_assoc, List.append_assoc]
      exact List.perm_append_comm.append_left t.indices
    exact shifted.subperm.trans (((List.subperm_append_right held).mpr second.indices).trans
      (moved.subperm.trans ((List.subperm_append_right _).mpr first.indices)))
  spelled c member := by
    rcases second.spelled c member with old | new
    · exact first.spelled c old
    · exact .inr new
  points q member := by
    rcases second.points q member with old | new
    · exact first.points q old
    · exact .inr new
  kept := List.Subset.trans first.kept second.kept
  bounds unrecorded := (second.bounds unrecorded).trans (first.bounds unrecorded)
  limit := by
    rcases second.limit with same | new
    · rcases first.limit with same' | ⟨isRecorded, before, taken, after, rowCount, offset, rewritable, whole, clause, isLimit, recorded⟩
      · exact .inl (same.trans same')
      · refine .inr ⟨isRecorded, before, taken, after, rowCount, offset, rewritable, whole, clause, ?_, ?_⟩
        · rw [same, isLimit]
        · exact List.Subset.trans recorded second.kept
    · exact .inr new
  grows usable := by
    obtain ⟨between, later⟩ := second.grows usable
    obtain ⟨atStart, earlier⟩ := first.grows between
    exact ⟨atStart, earlier.trans later⟩

theorem mono (gathered : Gathered ts false start count held s u) : Gathered ts r start count held s u :=
  { gathered with
    bounds := fun _ => gathered.bounds rfl
    limit := gathered.limit.imp_right fun new => absurd new.1 (by simp) }

/-- Some of what was held back is given up. -/
theorem less (gathered : Gathered ts r start count held s u) (fewer : held'.Subperm held) :
    Gathered ts r start count held' s u where
  indices := ((List.subperm_append_left u.indices).mpr fewer).trans gathered.indices
  spelled := gathered.spelled
  points := gathered.points
  kept := gathered.kept
  bounds := gathered.bounds
  limit := gathered.limit
  grows := gathered.grows

/-- The conditions are given up for those of the beginning. -/
theorem restore (gathered : Gathered ts false start count held s u) :
    Gathered ts false start count [] s { u with conditions := s.conditions } where
  indices := by
    rcases gathered.limit with same | new
    · have unchanged : Statement.indices { u with conditions := s.conditions } = s.indices := by
        simp [Statement.indices, same]
      rw [unchanged, List.append_nil]
      exact (List.sublist_append_left _ _).subperm
    · cases new.1
  spelled _ member := .inl member
  points := gathered.points
  kept := gathered.kept
  bounds := gathered.bounds
  limit := gathered.limit
  grows usable := ⟨usable, List.prefix_refl _⟩

theorem unusable (s : Statement) : Gathered ts r start count [] s { s with conditions := s.conditions.markUnusable } where
  indices := by
    have fewer : (Statement.indices { s with conditions := s.conditions.markUnusable }).Sublist s.indices := by
      simp [Statement.indices, Conditions.markUnusable]
    rw [List.append_nil]
    exact (fewer.trans (List.sublist_append_left _ _)).subperm
  spelled _ member := nomatch member
  points _ member := .inl member
  kept := List.Subset.refl _
  bounds _ := rfl
  limit := .inl rfl
  grows usable := nomatch usable

end Gathered

/-- What a walk gains between two states of which the first stands between the given tokens. -/
def Gathers (d : Dialect) (p : Place) (ts : List Token) (r : Bool) (held : List Nat) (before left : List Token)
    (s u : WalkState) : Prop :=
  ∃ taken later, left = taken ++ later ∧ Poised d p (before ++ taken) later u ∧
    Gathered ts r (placeholders before) (placeholders taken) held s.statement u.statement

/-- Wherever a walk stands in a text, it gains what the text spells. -/
def Walk.Gathering (d : Dialect) (p : Place) (ts : List Token) (r : Bool) (m : Walk α) : Prop :=
  ∀ before left s a u, ts = before ++ left → Poised d p before left s → m s = .ok a u →
    Gathers d p ts r [] before left s u

variable {d : Dialect} {p : Place} {ts before left taken later : List Token} {r : Bool} {held held' : List Nat}
  {s t u : WalkState}

namespace Gathers

theorem of_passed (passed : Passed d p before left s taken later u)
    (new : held.Subperm (List.range' (placeholders before) (placeholders taken))) :
    Gathers d p ts r held before left s u := by
  refine ⟨taken, later, passed.split, passed.poised, ?_⟩
  rw [passed.unchanged]
  exact .idle _ new

theorem refl (poised : Poised d p before left s) : Gathers d p ts r [] before left s s :=
  of_passed (.refl poised) List.nil_subperm

theorem trans (whole : ts = before ++ left) (first : Gathers d p ts r held before left s t)
    (next : ∀ before' left', ts = before' ++ left' → Poised d p before' left' t →
      Gathers d p ts r held' before' left' t u) : Gathers d p ts r (held ++ held') before left s u := by
  obtain ⟨taken, mid, rfl, poised, gathered⟩ := first
  obtain ⟨taken', later, rfl, poised', gathered'⟩ := next (before ++ taken) mid (by simp [whole]) poised
  refine ⟨taken ++ taken', later, by simp, by simpa using poised', ?_⟩
  rw [placeholders_append] at gathered' ⊢
  exact gathered.trans gathered'

/-- A change of the statement alone after a walk. -/
theorem records {f : Statement → Statement} (gathers : Gathers d p ts r held before left s u)
    (records : ∀ {start count}, Gathered ts r start count held s.statement u.statement →
      Gathered ts r start count held' s.statement (f u.statement)) :
    Gathers d p ts r held' before left s { u with statement := f u.statement } := by
  obtain ⟨taken, later, split, poised, gathered⟩ := gathers
  exact ⟨taken, later, split, poised, records gathered⟩

theorem mono (gathers : Gathers d p ts false held before left s u) : Gathers d p ts r held before left s u := by
  obtain ⟨taken, later, split, poised, gathered⟩ := gathers
  exact ⟨taken, later, split, poised, gathered.mono⟩

theorem less (gathers : Gathers d p ts r held before left s u) (fewer : held'.Subperm held) :
    Gathers d p ts r held' before left s u := by
  obtain ⟨taken, later, split, poised, gathered⟩ := gathers
  exact ⟨taken, later, split, poised, gathered.less fewer⟩

/-- What was held back is given up. -/
theorem release (gathers : Gathers d p ts r held before left s u) : Gathers d p ts r [] before left s u :=
  gathers.less List.nil_subperm

end Gathers

namespace Walk.Gathering

variable {α β σ : Type} {m n : Walk α}

theorem mono (gathering : Gathering d p ts false m) : Gathering d p ts r m :=
  fun before left s a u whole poised run => (gathering before left s a u whole poised run).mono

theorem pure {a : α} : Gathering d p ts r (Pure.pure a) := by
  intro before left s b u _ poised run
  obtain ⟨-, rfl⟩ := pure_eq_ok_iff.mp run
  exact .refl poised

theorem bind {f : α → Walk β} (first : Gathering d p ts r m) (next : ∀ a, Gathering d p ts r (f a)) :
    Gathering d p ts r (m >>= f) := by
  intro before left s b u whole poised run
  obtain ⟨a, t, firstRun, nextRun⟩ := bind_eq_ok_iff.mp run
  exact (first before left s a t whole poised firstRun).trans whole fun before' left' whole' poised' =>
    next a before' left' t b u whole' poised' nextRun

theorem ite {c : Prop} [Decidable c] (yes : Gathering d p ts r m) (no : Gathering d p ts r n) :
    Gathering d p ts r (if c then m else n) := by
  split
  · exact yes
  · exact no

/-- A step before more steps that may be left out. -/
theorem perhaps {c : Prop} [Decidable c] {m : Walk Unit} {f : Unit → Walk β} (yes : Gathering d p ts r m)
    (next : Gathering d p ts r (f ())) : Gathering d p ts r (if c then m >>= f else f ()) :=
  .ite (yes.bind fun _ => next) next

theorem fails (never : Fails m) : Gathering d p ts r m :=
  fun _ _ s a u _ _ run => absurd run (never s a u)

theorem discards (gathering : Gathering d p ts r m) : Gathering d p ts r (discard m) := by
  intro before left s _ u whole poised run
  obtain ⟨a, run, -⟩ := map_eq_ok_iff.mp run
  exact gathering before left s a u whole poised run

theorem record {f : Statement → Statement}
    (gains : ∀ {start} s, Gathered ts r start 0 [] s (f s)) : Gathering d p ts r (record f) := by
  intro before left s _ u _ poised run
  cases run
  exact ⟨[], left, rfl, by rwa [List.append_nil], gains s.statement⟩

theorem repeatFrom {f : σ → Walk (Bool × σ)} (round : ∀ x, Gathering d p ts r (f x)) (x : σ) :
    Gathering d p ts r (repeatFrom x f) := by
  intro before left s y u whole poised run
  refine repeatFrom_invariant (J := fun _ u => Gathers d p ts r [] before left s u) ?_ run (.refl poised)
  intro x t z u gathers run
  exact gathers.trans whole fun before' left' whole' poised' => round x before' left' t z u whole' poised' run

theorem repeatWhile {m : Walk Bool} (round : Gathering d p ts r m) : Gathering d p ts r (repeatWhile m) := by
  refine repeatFrom (fun _ => ?_) ()
  intro before left s a u whole poised run
  obtain ⟨again, run, -⟩ := map_eq_ok_iff.mp run
  exact round before left s again u whole poised run

section Parts

variable (proper : Proper ts)

include proper

/-- A walk that records nothing. -/
theorem silent (keeps : ∀ {I : WalkState → Prop}, (Company.keeping I).InStep → Keeps I m) : Gathering d p ts r m := by
  intro before left s a u whole poised run
  obtain ⟨taken, later, passed⟩ := poised.silent (proper.rest whole) run keeps
  exact .of_passed passed List.nil_subperm

theorem advance : Gathering d p ts r advance := silent proper fun inStep => (inStep.advance (b := false)).keeps

theorem eat (k : TokenKind) : Gathering d p ts r (eat k) := silent proper fun inStep => (inStep.eat (b := false) k).keeps

theorem eatAny (ks : List TokenKind) : Gathering d p ts r (eatAny ks) :=
  silent proper fun inStep => (inStep.eatAny (b := false) ks).keeps

theorem expect (k : TokenKind) : Gathering d p ts r (discard (expect k)) :=
  silent proper fun inStep => (inStep.expect (b := false) k).keeps.discards

theorem column : Gathering d p ts r column := by
  intro before left s x u whole poised run
  obtain ⟨taken, later, qualifiers, split, poised, -, recorded, -⟩ :=
    poised.column (proper.rest whole) run
  refine ⟨taken, later, split, poised, ?_⟩
  rw [recorded]
  exact .qualifiers _ _ List.nil_subperm

end Parts

end Walk.Gathering

end SqlSharding.Sql
