import SqlSharding.Proofs.Paging
import SqlSharding.Proofs.Statements

/-!
# Corresponding tokens

Two texts whose tokens correspond one by one are walked over side by side. This module follows the steps of both walks and the
walks over names, for any correspondence that a walk cannot see, and for anything that the recorded statements may have in common.
-/

namespace SqlSharding.Sql

variable {Twin : Token → Token → Prop} {d : Dialect} {p p' : Place} {ts : List Token} {c c' next : Cursor}

/-- A correspondence of tokens that a walk cannot see, in which the ends of two texts correspond. -/
structure Corresponding (Twin : Token → Token → Prop) (p p' : Place) : Prop where
  alike : ∀ {t t'}, Twin t t' → t.kind.Alike t'.kind
  ends : Twin (Token.endAt p) (Token.endAt p')

/-- Two cursors on corresponding tokens. -/
def Cursor.Parallel (Twin : Token → Token → Prop) (d : Dialect) (p p' : Place) (ts : List Token) (c c' : Cursor) : Prop :=
  ∃ n rest rest', rest <:+ ts ∧ c = .along d p n rest ∧ c' = .along d p' n rest' ∧ List.Forall₂ Twin rest rest'

namespace Corresponding

variable (corresponding : Corresponding Twin p p')

include corresponding

theorem proper {rest rest' : List Token} (proper : Proper rest) (twins : List.Forall₂ Twin rest rest') : Proper rest' := by
  induction twins with
  | nil => exact proper
  | cons twin _ ih =>
    intro u member
    rcases List.mem_cons.mp member with rfl | later
    · exact fun ended => proper.head ((corresponding.alike twin).endOfInput_iff.mpr ended)
    · exact ih proper.tail u later

/-- What a cursor stands on corresponds. -/
theorem current (parallel : Cursor.Parallel Twin d p p' ts c c') : Twin c.current c'.current := by
  obtain ⟨n, rest, rest', -, rfl, rfl, twins⟩ := parallel
  cases twins with
  | nil => exact corresponding.ends
  | cons twin => exact twin

variable (proper : Proper ts)

include proper

theorem cursor (parallel : Cursor.Parallel Twin d p p' ts c c') : c.Alike c' := by
  have kind := corresponding.alike (corresponding.current parallel)
  obtain ⟨n, rest, rest', suffix, rfl, rfl, twins⟩ := parallel
  have properRest : Proper rest := fun t member => proper t (suffix.subset member)
  refine ⟨kind, ?_, ?_, ?_⟩
  · rw [Cursor.along_dialect, Cursor.along_dialect]
  · rw [Cursor.along_remaining properRest, Cursor.along_remaining (corresponding.proper properRest twins), twins.length_eq]
  · rw [Cursor.along_parameterIndex, Cursor.along_parameterIndex]

theorem step (parallel : Cursor.Parallel Twin d p p' ts c c') (step : c.step = (none, next)) :
    ∃ next', c'.step = (none, next') ∧ Cursor.Parallel Twin d p p' ts next next' := by
  obtain ⟨n, rest, rest', suffix, rfl, rfl, twins⟩ := parallel
  have properRest : Proper rest := fun t member => proper t (suffix.subset member)
  cases twins with
  | nil =>
    rw [Cursor.along_step_nil] at step
    cases step
    exact ⟨_, Cursor.along_step_nil, n, [], [], suffix, rfl, rfl, .nil⟩
  | @cons t t' rest rest' twin twins =>
    rw [Cursor.along_step properRest] at step
    cases step
    refine ⟨_, Cursor.along_step (corresponding.proper properRest (.cons twin twins)), ?_⟩
    have counted : Cursor.countAfter n t'.kind = Cursor.countAfter n t.kind := by
      simp only [Cursor.countAfter, (corresponding.alike twin).symbol_iff]
    rw [counted]
    exact ⟨_, rest, rest', (List.suffix_cons t rest).trans suffix, rfl, rfl, twins⟩

theorem peek {k : TokenKind} (parallel : Cursor.Parallel Twin d p p' ts c c') (ahead : c.peek = .ok k) :
    ∃ t t', c'.peek = .ok t'.kind ∧ t.kind = k ∧ Twin t t' := by
  obtain ⟨n, rest, rest', suffix, rfl, rfl, twins⟩ := parallel
  have properRest : Proper rest := fun t member => proper t (suffix.subset member)
  have properRest' := corresponding.proper properRest twins
  cases twins with
  | nil =>
    cases ahead
    exact ⟨_, _, Cursor.along_peek_nil, rfl, corresponding.ends⟩
  | cons twin twins =>
    cases twins with
    | nil =>
      rw [Cursor.along_peek_last properRest] at ahead
      cases ahead
      exact ⟨_, _, Cursor.along_peek_last properRest', rfl, corresponding.ends⟩
    | @cons u u' rest rest' second twins =>
      rw [Cursor.along_peek properRest] at ahead
      cases ahead
      exact ⟨u, u', Cursor.along_peek properRest', rfl, second⟩

end Corresponding

/-! ## Parts of statements -/

/-- Passes a table name and what may be its alias, and records the table. -/
def Walk.tableThen (m : Walk (Option String)) : Walk Unit := do
  let name ← qualifiedName
  let aliasName ← m
  record (·.addTable name aliasName)

/-- Passes the tables after the targets of a DELETE. -/
def Walk.tablesAfter : Walk Unit := do
  if ← eat (.keyword .from) then tableReferences

theorem Walk.targetsEnd_eq : targetsEnd = (do
    let targets ← deleteTargets
    tablesAfter
    record (targets.foldl addTarget)) := by
  simp only [targetsEnd, tablesAfter, bind_assoc, ite_bind, pure_bind]

theorem Company.Steady.tablesAfter {C : Company} {Records : Bool → Prop} (steady : C.Steady Records) :
    C.Follows true Walk.tablesAfter Walk.tablesAfter (fun _ => false) Eq := by
  refine (steady.eat _).seq fun isFrom => .branch (fun h => ?_) fun _ => .pure rfl
  exact steady.tableReferences.weaken

theorem Walk.discard_tableName : discard tableName = tableThen (pure none) := by
  simp only [tableName, tableThen, discard, map_const, Function.comp_apply, map_bind, map_pure, pure_bind]
  rfl

/-! ## Walks side by side -/

namespace Company

/-- The company of a walk over corresponding tokens, from the relations between what both walks have recorded and read. -/
def sideBySide (Twin : Token → Token → Prop) (d : Dialect) (p p' : Place) (ts : List Token) (Agree : Statement → Statement → Prop)
    (Columns : Column → Column → Prop) (Operands : Operand → Operand → Prop) (Conditions : Sql.Conditions → Sql.Conditions → Prop) :
    Company where
  Beside s s' := Cursor.Parallel Twin d p p' ts s.cursor s'.cursor ∧ Agree s.statement s'.statement
  Lost _ _ := False
  Columns := Columns
  Operands := Operands
  Conditions := Conditions
  loosen := id

section sideBySide

variable {Agree : Statement → Statement → Prop} {Columns : Column → Column → Prop} {Operands : Operand → Operand → Prop}
  {Conditions : Sql.Conditions → Sql.Conditions → Prop} {b : Bool}

/-- No walk is lost, so it makes no difference how. -/
theorem sideBySide_flags {α : Type} {m m' : Walk α} {before before' : Bool} {after after' : α → Bool} {Same : α → α → Prop}
    (follows : (sideBySide Twin d p p' ts Agree Columns Operands Conditions).Follows before m m' after Same) :
    (sideBySide Twin d p p' ts Agree Columns Operands Conditions).Follows before' m m' after' Same :=
  follows

/-- Recording what leaves two statements in agreement. -/
theorem sideBySide_record {f f' : Statement → Statement} {after : Unit → Bool}
    (agree : ∀ s s', Agree s s' → Agree (f s) (f' s')) :
    (sideBySide Twin d p p' ts Agree Columns Operands Conditions).Follows b (Walk.record f) (Walk.record f') after Eq := by
  intro s _ t run
  cases run
  exact ⟨id, fun s' pair => .inr ⟨(), _, rfl, rfl, pair.1, agree _ _ pair.2⟩⟩

variable (corresponding : Corresponding Twin p p') (proper : Proper ts)

include corresponding proper

/-- Passing a token, the first walk passes the one that corresponds to what the second one passes. -/
theorem sideBySide_advance : (sideBySide Twin d p p' ts Agree Columns Operands Conditions).Follows b Walk.advance Walk.advance
    (fun _ => true) Twin := by
  intro s t u run
  obtain ⟨next, step, rfl, rfl⟩ := Walk.advance_eq_ok_iff.mp run
  refine ⟨id, fun s' ⟨parallel, agree⟩ => .inr ?_⟩
  obtain ⟨next', step', parallel'⟩ := corresponding.step proper parallel step
  exact ⟨_, _, Walk.advance_eq_ok_iff.mpr ⟨next', step', rfl, rfl⟩, corresponding.current parallel, parallel', agree⟩

theorem sideBySide_abreast : (sideBySide Twin d p p' ts Agree Columns Operands Conditions).Abreast where
  tighten lost := lost.elim
  alike pair := corresponding.cursor proper pair.1
  looksAhead pair ahead := by
    obtain ⟨t, t', ahead', rfl, twin⟩ := corresponding.peek proper pair.1 ahead
    exact ⟨t'.kind, ahead', corresponding.alike twin⟩
  advances s t u run := by
    obtain ⟨lost, beside⟩ := sideBySide_advance (b := false) corresponding proper s t u run
    refine ⟨lost, fun s' pair => ?_⟩
    obtain lost | ⟨t', u', run', twin, pair⟩ := beside s' pair
    · exact .inl lost
    · exact .inr ⟨t', u', run', corresponding.alike twin, pair⟩

theorem sideBySide_identifier {Same : Identifier → Identifier → Prop}
    (same : ∀ {t t'}, Twin t t' → t.kind.isIdentifier = true → Same (.ofToken t) (.ofToken t')) :
    (sideBySide Twin d p p' ts Agree Columns Operands Conditions).Follows b Walk.identifier Walk.identifier (fun _ => true)
      Same := by
  intro s x u run
  refine ⟨id, fun s' pair => ?_⟩
  obtain ⟨_, _, ⟨⟩, run⟩ := Walk.bind_eq_ok_iff.mp run
  split at run
  · next names =>
    obtain ⟨t, advances, rfl⟩ := Walk.map_eq_ok_iff.mp run
    obtain ⟨next, -, current, -⟩ := Walk.advance_eq_ok_iff.mp advances
    obtain lost | ⟨t', u', advances', twin, pair'⟩ :=
      (sideBySide_advance (b := b) corresponding proper s t u advances).2 s' pair
    · exact lost.elim
    have names' : s'.cursor.kind.isIdentifier = true :=
      (corresponding.cursor proper pair.1).kind.isIdentifier_eq.symm.trans names
    refine .inr ⟨.ofToken t', u', ?_, same twin (current ▸ names), pair'⟩
    refine Walk.bind_eq_ok_iff.mpr ⟨_, s', rfl, ?_⟩
    rw [if_pos names']
    exact Walk.map_eq_ok_iff.mpr ⟨t', advances', rfl⟩
  · cases run

end sideBySide

/-! ## Names -/

/-- An alias is passed if names that are not recorded are the same in both texts. -/
theorem InStep.alias? {C : Company} {b : Bool} (walks : C.InStep)
    (named : ∀ {b}, C.Follows b Walk.identifier Walk.identifier (fun _ => true) fun x x' => x'.name = x.name) :
    C.Follows b Walk.alias? Walk.alias? (fun _ => false) Eq := by
  have alone {b : Bool} : C.Follows b (do return some (← Walk.identifier).name) (do return some (← Walk.identifier).name)
      (fun _ => false) Eq :=
    named.bind (fun x => ⟨x, rfl⟩) fun x x' same => .pure (congrArg some same.symm)
  refine (walks.eat _).seq fun isAs => .branch (fun _ => alone) fun _ => ?_
  refine walks.kind.bind (fun k => ⟨k, .same k⟩) fun k k' alike => ?_
  rw [alike.isIdentifier_eq]
  refine .branch (fun _ => ?_) fun _ => .pure rfl
  exact walks.seesLock.anywhere.seq fun isLock => .branch (fun _ => .pure rfl) fun _ => alone

/-- The facts from which walks over names follow, when names of both texts are related. -/
structure Names (C : Company) (Same : Identifier → Identifier → Prop) : Prop extends C.Abreast where
  names_total : ∀ x, ∃ x', Same x x'
  identifier : ∀ {b}, C.Follows b Walk.identifier Walk.identifier (fun _ => true) Same

namespace Names

variable {C : Company} {Same : Identifier → Identifier → Prop} {b : Bool} (names : C.Names Same)

/-- The parts of a dotted name with the mark of its star. -/
def SameParts (Same : Identifier → Identifier → Prop) (parts parts' : List Identifier × Bool) : Prop :=
  List.Forall₂ Same parts.1 parts'.1 ∧ parts.2 = parts'.2

include names

theorem total (xs : List Identifier) : ∃ xs', List.Forall₂ Same xs xs' := by
  induction xs with
  | nil => exact ⟨[], .nil⟩
  | cons x xs ih =>
    obtain ⟨xs', same⟩ := ih
    obtain ⟨x', first⟩ := names.names_total x
    exact ⟨x' :: xs', .cons first same⟩

theorem parts_total (parts : List Identifier × Bool) : ∃ parts', SameParts Same parts parts' := by
  obtain ⟨xs, same⟩ := names.total parts.1
  exact ⟨(xs, parts.2), same, rfl⟩

theorem qualifiedName : C.Follows b Walk.qualifiedName Walk.qualifiedName (fun _ => true) Same := by
  refine names.identifier.bind names.names_total fun x x' same => (names.eat _).seq fun isDot => ?_
  exact .branch (fun _ => names.identifier) fun _ => .pure same

theorem nameParts {first first' : Identifier} (same : Same first first') :
    C.Follows b (Walk.nameParts first) (Walk.nameParts first') (fun _ => false) (SameParts Same) := by
  have single : SameParts Same ([first], false) ([first'], false) := ⟨.cons same .nil, rfl⟩
  refine (names.repeatFrom (b := false) names.parts_total ?_ single).anywhere
  rintro ⟨parts, _⟩ ⟨parts', _⟩ ⟨same, -⟩
  refine (names.eat _).seq fun isDot => .branch (fun _ => ?_) fun _ => .pure ⟨rfl, same, rfl⟩
  refine names.kind.bind (fun k => ⟨k, .same k⟩) fun k k' alike => ?_
  rw [alike.isIdentifier_eq]
  refine .branch (fun _ => ?_) fun _ => .ite (alike.symbol_iff _) (fun _ => ?_) fun _ => Abreast.failExpected
  · exact names.identifier.bind names.names_total fun part part' one => .pure ⟨rfl, List.rel_append same (.cons one .nil), rfl⟩
  · exact names.advance.discard.seq fun _ => .pure ⟨rfl, same, rfl⟩

/-- A column is passed if its qualifier is recorded and its names are those of related columns. -/
theorem column (qualifies : ∀ {x x'}, Same x x' → C.Follows false (Walk.record (·.addQualifier x))
      (Walk.record (·.addQualifier x')) (fun _ => false) Eq)
    (bare : ∀ {x x'}, Same x x' → C.Columns ⟨none, x.name⟩ ⟨none, x'.name⟩)
    (qualified : ∀ {x x' y y'}, Same x x' → Same y y' → C.Columns ⟨some x.name, y.name⟩ ⟨some x'.name, y'.name⟩) :
    C.Follows b Walk.column Walk.column (fun _ => false) (Option.Rel C.Columns) := by
  refine names.identifier.bind names.names_total fun first first' same => ?_
  refine (names.nameParts same).bind names.parts_total ?_
  rintro ⟨parts, star⟩ ⟨parts', _⟩ ⟨same, rfl⟩
  have backward : List.Forall₂ Same parts.reverse parts'.reverse := List.rel_reverse same
  cases star with
  | true =>
    dsimp only
    rw [if_pos rfl, if_pos rfl, List.getLast?_eq_head?_reverse, List.getLast?_eq_head?_reverse]
    generalize parts.reverse = xs at backward
    generalize parts'.reverse = xs' at backward
    cases backward with
    | nil => exact .pure .none
    | cons owner => exact (qualifies owner).seq fun _ => .pure .none
  | false =>
    dsimp only
    generalize parts.reverse = xs at backward
    generalize parts'.reverse = xs' at backward
    cases backward with
    | nil => exact .pure .none
    | cons last others =>
      cases others with
      | nil => exact .pure (.some (bare last))
      | cons owner => exact (qualifies owner).seq fun _ => .pure (.some (qualified owner last))

theorem deleteTargets : C.Follows b Walk.deleteTargets Walk.deleteTargets (fun _ => false) (List.Forall₂ Same) := by
  refine names.qualifiedName.bind names.names_total fun first first' same => ?_
  refine (names.repeatFrom (b := false) names.total (fun targets targets' same => ?_) (.cons same .nil)).anywhere
  refine (names.eat _).seq fun isComma => .branch (fun _ => ?_) fun _ => .pure ⟨rfl, same⟩
  exact names.qualifiedName.bind names.names_total fun x x' one => .pure ⟨rfl, List.rel_append same (.cons one .nil)⟩

end Names

end Company

end SqlSharding.Sql
