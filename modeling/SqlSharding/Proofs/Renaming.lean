import SqlSharding.Proofs.RecordedNames
import SqlSharding.Proofs.TableNames
import SqlSharding.Proofs.Twins

/-!
# Renamed tables

When the tables of a statement get new names, its tokens stay as they are except for those that name tables, and for bounds. This
module says which tokens and which statements correspond, and follows the walks over names in both texts side by side. Which names
are those of tables is known only when the statement is complete, so the points of the complete statement tell it beforehand.
-/

namespace SqlSharding.Sql

/-- A kind with another name. -/
def TokenKind.rename (f : String → String) : TokenKind → TokenKind
  | identifier name => .identifier (f name)
  | quotedIdentifier name style => .quotedIdentifier (f name) style
  | k => k

theorem Tables.containsAlias_iff {ts : Tables} {name : String} : ts.containsAlias name = true ↔
    ∃ e ∈ ts.entries, ∃ a, e.aliasName = some a ∧ Text.sameName a name = true := by
  rw [containsAlias, List.any_eq_true]
  exact exists_congr fun e => and_congr_right fun _ => Option.any_eq_true _ _

/-- An alias that a table has stays the alias of a table. -/
theorem Tables.alias_insert {t e : TableRef} {known : List TableRef} {a : String} (member : e ∈ known)
    (has : e.aliasName = some a) : ∃ f ∈ insert t known, f.aliasName = some a := by
  induction known with
  | nil => cases member
  | cons first known ih =>
    rw [insert]
    rcases List.mem_cons.mp member with rfl | later
    · split
      · exact ⟨_, List.mem_cons_self, by simp [has]⟩
      · exact ⟨e, List.mem_cons_self, has⟩
    · split
      · exact ⟨e, List.mem_cons_of_mem _ later, has⟩
      · obtain ⟨f, inserted, has⟩ := ih later
        exact ⟨f, List.mem_cons_of_mem _ inserted, has⟩

/-- A target of a DELETE is recorded unless it is an alias and not also the name of a table. -/
theorem Walk.addTarget_eq (s : Statement) (x : Identifier) : addTarget s x =
    if s.tables.containsAlias x.name = false ∨ s.tables.containsName x.name = true then s.addTable x none else s := by
  have owner : (s.tables.resolveOwner? x.name).isNone =
      (!s.tables.containsAlias x.name && !s.tables.containsName x.name) := by
    rw [Tables.resolveOwner?, Option.isNone_map, Option.isNone_or, Bool.eq_iff_iff]
    simp [Tables.containsAlias, Tables.containsName]
  rw [addTarget, owner]
  cases s.tables.containsAlias x.name <;> cases s.tables.containsName x.name <;> rfl

/-- New names for the tables of a complete statement. -/
structure Renaming where
  points : List RewritePoint
  tables : Tables
  rename : String → String

namespace Renaming

variable (R : Renaming)

/-- Whether a token is the name of a table in the complete statement. -/
def Marks (t : Token) : Prop := t.kind.isIdentifier = true ∧ .ofTable (.ofToken t) ∈ R.points

/-- The new name that stands in the place of an identifier. -/
def nameOf (x : Identifier) : String := if .ofTable x ∈ R.points then R.rename x.name else x.name

/-- A token and the one in its place: names of tables are renamed, and numbers that are usable as bounds may differ. -/
inductive Twin (t t' : Token) : Prop
  | named (marked : R.Marks t) (renamed : t'.kind = t.kind.rename R.rename)
  | same (unmarked : ¬ R.Marks t) (equal : t'.kind = t.kind)
  | number {i j : Int64} (isNumber : t.kind = .integer i) (isNumber' : t'.kind = .integer j) (nonneg : 0 ≤ i) (nonneg' : 0 ≤ j)

/-- An identifier and the one in its place. -/
def SameName (x x' : Identifier) : Prop := x'.name = R.nameOf x

/-- The words that are told from other bare names. -/
def tellingWords : List String := ["LOCK", "PERCENT", "TIES"]

/-- What is asked of the new names. They are the same where the names were, and they are neither aliases of the statement nor
words with a meaning. -/
structure Sound : Prop where
  known : ∀ x, .ofTable x ∈ R.points → R.tables.containsName x.name = true
  same : ∀ a b, R.tables.containsName a = true → R.tables.containsName b = true →
    Text.sameName (R.rename a) (R.rename b) = Text.sameName a b
  fresh : ∀ a, R.tables.containsName a = true → R.tables.containsAlias (R.rename a) = false
  other : ∀ a, R.tables.containsName a = true → ∀ word ∈ tellingWords, Text.sameName (R.rename a) word = false

variable {R} {t t' : Token} {x x' : Identifier}

theorem sameName_total (x : Identifier) : ∃ x', R.SameName x x' := ⟨{ x with name := R.nameOf x }, rfl⟩

namespace Twin

theorem alike (twin : R.Twin t t') : t.kind.Alike t'.kind := by
  cases twin with
  | named _ renamed =>
    rw [renamed]
    generalize t.kind = k
    cases k with
    | identifier name => exact .identifier name _
    | quotedIdentifier name style => exact .quotedIdentifier name _ style
    | _ => exact .same _
  | same _ equal =>
    rw [equal]
    exact .same _
  | number isNumber isNumber' nonneg nonneg' =>
    rw [isNumber, isNumber']
    exact .integer _ _ ⟨fun _ => nonneg', fun _ => nonneg⟩

/-- The end of a text has no name. -/
theorem ends (p p' : Place) : R.Twin (Token.endAt p) (Token.endAt p') :=
  .same (fun marked => nomatch marked.1) rfl

/-- The name of a token in the place of an identifier. -/
theorem sameName (twin : R.Twin t t') (names : t.kind.isIdentifier = true) : R.SameName (.ofToken t) (.ofToken t') := by
  obtain ⟨kind, span, line, column⟩ := t
  obtain ⟨kind', span', line', column'⟩ := t'
  cases twin with
  | named marked renamed =>
    obtain rfl : kind' = kind.rename R.rename := renamed
    rw [SameName, nameOf, if_pos marked.2]
    cases kind with
    | identifier | quotedIdentifier => rfl
    | _ => cases names
  | same unmarked equal =>
    obtain rfl : kind' = kind := equal
    rw [SameName, nameOf, if_neg fun inPoints => unmarked ⟨names, inPoints⟩]
    cases kind' with
    | identifier | quotedIdentifier => rfl
    | _ => cases names
  | number isNumber =>
    obtain rfl : kind = _ := isNumber
    cases names

/-- A word with a meaning stays one unless it is the name of a table, and no other name becomes one. -/
theorem isWord_iff (sound : R.Sound) (twin : R.Twin t t') {word : String} (telling : word ∈ tellingWords) :
    t'.kind.isWord word = true ↔ t.kind.isWord word = true ∧ ¬ R.Marks t := by
  cases twin with
  | named marked renamed =>
    refine ⟨fun isWord => ?_, fun both => absurd marked both.2⟩
    have known := sound.known _ marked.2
    obtain ⟨kind, span, line, column⟩ := t
    rw [renamed] at isWord
    cases kind with
    | identifier name =>
      have other : Text.sameName (R.rename name) word = false := sound.other name known word telling
      have same : Text.sameName (R.rename name) word = true := isWord
      rw [other] at same
      cases same
    | _ => cases isWord
  | same unmarked equal =>
    rw [equal]
    exact ⟨fun isWord => ⟨isWord, unmarked⟩, (·.1)⟩
  | number isNumber isNumber' =>
    rw [isNumber, isNumber']
    exact ⟨nofun, fun both => nomatch both.1⟩

end Twin

/-! ## Corresponding states -/

/-- Two cursors on corresponding tokens. -/
def Parallel (R : Renaming) (d : Dialect) (p p' : Place) (ts : List Token) (c c' : Cursor) : Prop :=
  ∃ n rest rest', rest <:+ ts ∧ c = .along d p n rest ∧ c' = .along d p' n rest' ∧ List.Forall₂ R.Twin rest rest'

/-- A table with its new name. -/
def renamed (R : Renaming) (e : TableRef) : TableRef := { e with name := R.rename e.name }

/-- Two statements that agree but for the new names of tables of the complete statement. -/
structure Agree (R : Renaming) (s s' : Statement) : Prop where
  kind : s'.kind = s.kind
  rows : s'.insertRows = s.insertRows
  tables : s'.tables.entries = s.tables.entries.map R.renamed
  known : ∀ e ∈ s.tables.entries, R.tables.containsName e.name = true

/-- Statements with the same tables and rows agree with the same ones. -/
theorem Agree.of_tables {s s' u u' : Statement} (agree : R.Agree s s') (kind : u.kind = s.kind) (kind' : u'.kind = s'.kind)
    (tables : u.tables = s.tables) (tables' : u'.tables = s'.tables) (rows : u'.insertRows = u.insertRows) : R.Agree u u' where
  kind := by rw [kind, kind', agree.kind]
  rows := rows
  tables := by rw [tables, tables', agree.tables]
  known := tables ▸ agree.known

section Tables

variable (sound : R.Sound)

include sound

/-- Further occurrences of tables are found under the new names where they are found under the old ones. -/
theorem insert_renamed {entries : List TableRef} (known : ∀ e ∈ entries, R.tables.containsName e.name = true) {t : TableRef}
    (isKnown : R.tables.containsName t.name = true) :
    Tables.insert (R.renamed t) (entries.map R.renamed) = (Tables.insert t entries).map R.renamed := by
  induction entries with
  | nil => rfl
  | cons first entries ih =>
    have same : (R.renamed first).hasName (R.renamed t).name = first.hasName t.name :=
      sound.same _ _ (known first List.mem_cons_self) isKnown
    rw [List.map_cons, Tables.insert, Tables.insert, same]
    split
    · rfl
    · rw [ih fun e member => known e (List.mem_cons_of_mem first member), List.map_cons]

/-- A recorded table that belongs to the complete statement gets its new name. -/
theorem Agree.addTable {s s' : Statement} (agree : R.Agree s s') (same : R.SameName x x') (inPoints : .ofTable x ∈ R.points)
    (aliasName : Option String) : R.Agree (s.addTable x aliasName) (s'.addTable x' aliasName) where
  kind := agree.kind
  rows := agree.rows
  tables := by
    have name : x'.name = R.rename x.name := by
      rw [SameName, nameOf, if_pos inPoints] at same
      exact same
    have isKnown := sound.known x inPoints
    show Tables.insert ⟨x'.name, aliasName⟩ s'.tables.entries = (Tables.insert ⟨x.name, aliasName⟩ s.tables.entries).map R.renamed
    rw [← insert_renamed (t := ⟨x.name, aliasName⟩) sound agree.known isKnown, agree.tables, name]
    rfl
  known e member := by
    have inNames : e.name ∈ (Tables.insert ⟨x.name, aliasName⟩ s.tables.entries).map (·.name) := List.mem_map_of_mem member
    have old (inOld : e.name ∈ s.tables.entries.map (·.name)) : R.tables.containsName e.name = true := by
      obtain ⟨f, isEntry, same⟩ := List.mem_map.mp inOld
      exact same ▸ agree.known f isEntry
    rcases Tables.names_insert ⟨x.name, aliasName⟩ s.tables.entries with same | ⟨added, -⟩
    · exact old (same ▸ inNames)
    · rw [added] at inNames
      rcases List.mem_append.mp inNames with inOld | new
      · exact old inOld
      · rw [List.mem_singleton.mp new]
        exact sound.known x inPoints

omit sound in
theorem Agree.containsAlias_eq {s s' : Statement} (agree : R.Agree s s') (name : String) :
    s'.tables.containsAlias name = s.tables.containsAlias name := by
  rw [Tables.containsAlias, Tables.containsAlias, agree.tables, List.any_map]
  rfl

end Tables

/-! ## Strayed statements -/

/-- Something is recorded that the complete statement does not have: the place of a table, or an alias. -/
def Strayed (R : Renaming) (st : Statement) : Prop :=
  (∃ x, .ofTable x ∈ st.points ∧ .ofTable x ∉ R.points) ∨
    ∃ e ∈ st.tables.entries, ∃ a, e.aliasName = some a ∧ ∀ f ∈ R.tables.entries, f.aliasName ≠ some a

theorem Strayed.of_names {st st' : Statement} (names : SameNames st st') (strayed : R.Strayed st) : R.Strayed st' := by
  rcases strayed with ⟨x, member, noPoint⟩ | hasAlias
  · exact .inl ⟨x, (names.points x).mpr member, noPoint⟩
  · rw [← names.tables] at hasAlias
    exact .inr hasAlias

theorem Strayed.addTable {st : Statement} (strayed : R.Strayed st) (x : Identifier) (aliasName : Option String) :
    R.Strayed (st.addTable x aliasName) := by
  rcases strayed with ⟨y, member, noPoint⟩ | ⟨e, member, a, has, noAlias⟩
  · exact .inl ⟨y, Statement.mem_addTable.mpr (.inl member), noPoint⟩
  · obtain ⟨f, inserted, has⟩ := Tables.alias_insert (t := ⟨x.name, aliasName⟩) member has
    exact .inr ⟨f, inserted, a, has, noAlias⟩

/-- What is too much in a statement is not taken back. -/
theorem strayed_kept : Walk.KeptByRecords (fun s => R.Strayed s.statement) fun _ => True where
  records_false := trivial
  advance s _ u run strayed := by
    obtain ⟨next, -, -, rfl⟩ := Walk.advance_eq_ok_iff.mp run
    exact strayed
  conditions _ cs strayed := strayed.of_names (.conditions cs _)
  rows _ columns n strayed := strayed.of_names (.rows columns n _)
  qualifier _ _ strayed := strayed
  table _ x aliasName strayed := strayed.addTable x aliasName
  paginate _ _ _ rewritable _ strayed := strayed.of_names (.paginate _ _ rewritable _)

theorem Strayed.addTargets {st : Statement} (strayed : R.Strayed st) (targets : List Identifier) :
    R.Strayed (targets.foldl Walk.addTarget st) :=
  strayed_kept.addTargets targets ⟨default, st⟩ strayed

/-- The complete statement has the aliases of a statement that has not strayed. -/
theorem alias_of_straight {st : Statement} (straight : ¬ R.Strayed st) {name : String}
    (isAlias : st.tables.containsAlias name = true) : R.tables.containsAlias name = true := by
  obtain ⟨e, member, a, hasAlias, same⟩ := Tables.containsAlias_iff.mp isAlias
  by_contra none
  refine straight (.inr ⟨e, member, a, hasAlias, fun f isEntry other => none ?_⟩)
  exact Tables.containsAlias_iff.mpr ⟨f, isEntry, a, other, same⟩

section Targets

variable (sound : R.Sound) {st st' : Statement}

include sound

/-- A target that the complete statement has as a table is recorded under its new name. -/
theorem Agree.addTarget_table (agree : R.Agree st st') (straight : ¬ R.Strayed st) (same : R.SameName x x')
    (inPoints : .ofTable x ∈ R.points) : Walk.addTarget st' x' = st'.addTable x' none := by
  rw [SameName, nameOf, if_pos inPoints] at same
  rw [Walk.addTarget_eq, if_pos]
  refine .inl (Bool.eq_false_iff.mpr fun isAlias => ?_)
  rw [agree.containsAlias_eq, same] at isAlias
  exact Bool.eq_false_iff.mp (sound.fresh x.name (sound.known x inPoints)) (alias_of_straight straight isAlias)

/-- A target that is only an alias is none of the renamed tables. -/
theorem Agree.addTarget_alias (agree : R.Agree st st') (straight : ¬ R.Strayed st) (same : R.SameName x x')
    (noPoint : .ofTable x ∉ R.points) (isAlias : st.tables.containsAlias x.name = true) : Walk.addTarget st' x' = st' := by
  rw [SameName, nameOf, if_neg noPoint] at same
  rw [Walk.addTarget_eq, if_neg]
  rintro (noAlias | isName)
  · rw [agree.containsAlias_eq, same, isAlias] at noAlias
    cases noAlias
  · obtain ⟨_, member, named⟩ := List.any_eq_true.mp isName
    rw [agree.tables] at member
    obtain ⟨e, isEntry, rfl⟩ := List.mem_map.mp member
    obtain ⟨f, inTables, a, hasAlias, sameAlias⟩ := Tables.containsAlias_iff.mp (alias_of_straight straight isAlias)
    have named : Text.sameName x.name (R.rename e.name) = true := by
      rw [Text.sameName_comm, ← same]
      exact named
    refine Bool.eq_false_iff.mp (sound.fresh e.name (agree.known e isEntry)) ?_
    exact Tables.containsAlias_iff.mpr ⟨f, inTables, a, hasAlias, Text.sameName_trans sameAlias named⟩

/-- Recording the targets of both texts, the first statement strays, a target of it is missed, or the statements agree. -/
theorem Agree.addTargets {targets targets' : List Identifier} (same : List.Forall₂ R.SameName targets targets')
    (agree : R.Agree st st') (new : ∀ x ∈ targets, Unrecorded x.span.start st)
    (apart : targets.Pairwise fun x y => x.span.start ≠ y.span.start) :
    R.Strayed (targets.foldl Walk.addTarget st) ∨
      (∃ x ∈ targets, .ofTable x ∈ R.points ∧ Unrecorded x.span.start (targets.foldl Walk.addTarget st)) ∨
      R.Agree (targets.foldl Walk.addTarget st) (targets'.foldl Walk.addTarget st') := by
  induction same generalizing st st' with
  | nil => exact .inr (.inr agree)
  | @cons x x' targets targets' same _ ih =>
    obtain ⟨others, apart⟩ := List.pairwise_cons.mp apart
    have newLater (y) (member : y ∈ targets) : Unrecorded y.span.start st := new y (List.mem_cons_of_mem x member)
    -- the rest of the targets, once the first one is dealt with in both texts
    have rest {u u' : Statement} (agree : R.Agree u u') (new : ∀ y ∈ targets, Unrecorded y.span.start u) :
        R.Strayed (targets.foldl Walk.addTarget u) ∨
          (∃ y ∈ x :: targets, .ofTable y ∈ R.points ∧ Unrecorded y.span.start (targets.foldl Walk.addTarget u)) ∨
          R.Agree (targets.foldl Walk.addTarget u) (targets'.foldl Walk.addTarget u') := by
      rcases ih agree new apart with strayed | ⟨y, member, missed⟩ | agree
      · exact .inl strayed
      · exact .inr (.inl ⟨y, List.mem_cons_of_mem x member, missed⟩)
      · exact .inr (.inr agree)
    rw [List.foldl_cons, List.foldl_cons]
    by_cases straight : R.Strayed st
    · exact .inl (straight.addTargets (x :: targets))
    rw [Walk.addTarget_eq st]
    by_cases inPoints : .ofTable x ∈ R.points <;> split
    · rw [agree.addTarget_table sound straight same inPoints]
      exact rest (agree.addTable sound same inPoints none) fun y member => (newLater y member).addTable (others y member) none
    · refine .inr (.inl ⟨x, List.mem_cons_self, inPoints, ?_⟩)
      exact (new x List.mem_cons_self).addTargets fun y member => (others y member).symm
    · have strayed : R.Strayed (st.addTable x none) := .inl ⟨x, Statement.mem_addTable.mpr (.inr rfl), inPoints⟩
      exact .inl (strayed.addTargets targets)
    · next noTable =>
      have isAlias : st.tables.containsAlias x.name = true := by
        rw [← Bool.not_eq_false]
        exact fun noAlias => noTable (.inl noAlias)
      rw [agree.addTarget_alias sound straight same inPoints isAlias]
      exact rest agree newLater

end Targets

/-! ## Walks over corresponding tokens -/

variable {d : Dialect} {p p' : Place} {ts : List Token} {c c' : Cursor} {b : Bool} (proper : Proper ts)

theorem corresponding (R : Renaming) (p p' : Place) : Corresponding R.Twin p p' where
  alike := Twin.alike
  ends := .ends p p'

/-- What a cursor stands on corresponds. -/
theorem Parallel.twin (parallel : R.Parallel d p p' ts c c') : R.Twin c.current c'.current :=
  (R.corresponding p p').current parallel

include proper in
theorem Parallel.alike (parallel : R.Parallel d p p' ts c c') : c.Alike c' :=
  (R.corresponding p p').cursor proper parallel

include proper in
theorem Parallel.peek {k : TokenKind} (parallel : R.Parallel d p p' ts c c') (ahead : c.peek = .ok k) :
    ∃ t t', c'.peek = .ok t'.kind ∧ t.kind = k ∧ R.Twin t t' :=
  (R.corresponding p p').peek proper parallel ahead

/-- The company of a walk over the renamed text. A walk that records the same tables keeps it, whatever names it meets. -/
def core (R : Renaming) (d : Dialect) (p p' : Place) (ts : List Token) : Company where
  Beside s s' := R.Parallel d p p' ts s.cursor s'.cursor ∧ R.Agree s.statement s'.statement
  Lost _ _ := False
  Columns _ _ := True
  Operands _ _ := True
  Conditions _ _ := True
  loosen := id

/-- Qualifiers are not compared, because only their places matter. -/
theorem Agree.addQualifier {s s' : Statement} (agree : R.Agree s s') (x x' : Identifier) :
    R.Agree (s.addQualifier x) (s'.addQualifier x') :=
  ⟨agree.kind, agree.rows, agree.tables, agree.known⟩

section Core

include proper

theorem core_abreast : (R.core d p p' ts).Abreast := Company.sideBySide_abreast (R.corresponding p p') proper

theorem core_names : (R.core d p p' ts).Names R.SameName where
  toAbreast := core_abreast proper
  names_total := R.sameName_total
  identifier := Company.sideBySide_identifier (R.corresponding p p') proper Twin.sameName

theorem core_identifier :
    (R.core d p p' ts).Follows b Walk.identifier Walk.identifier (fun _ => true) R.SameName :=
  (core_names proper).identifier

theorem core_qualifiedName :
    (R.core d p p' ts).Follows b Walk.qualifiedName Walk.qualifiedName (fun _ => true) R.SameName :=
  (core_names proper).qualifiedName

/-- The names in a column make no difference to the walk. -/
theorem core_column :
    (R.core d p p' ts).Follows b Walk.column Walk.column (fun _ => false) (Option.Rel fun _ _ => True) := by
  refine (core_names proper).column (fun {x x'} _ => ?_) (fun _ => trivial) fun _ _ => trivial
  exact Company.sideBySide_record fun _ _ agree => agree.addQualifier x x'

theorem core_deleteTargets :
    (R.core d p p' ts).Follows b Walk.deleteTargets Walk.deleteTargets (fun _ => false) (List.Forall₂ R.SameName) :=
  (core_names proper).deleteTargets

end Core

end Renaming

end SqlSharding.Sql
