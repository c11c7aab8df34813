import SqlSharding.Proofs.Paging
import SqlSharding.Proofs.Statements

/-!
# Invariants of walks

A property of states that the smallest walks keep is kept by whole statements. A property is a company of which nothing
but a way to be lost is asked, so the walks over queries and statements need not be gone through again. A property of the
cursor alone is kept if single steps keep it.
-/

namespace SqlSharding.Sql

/-- Whatever a walk ends with, it keeps a property of the state. -/
def Walk.Keeps (I : WalkState → Prop) (m : Walk α) : Prop := ∀ s a t, m s = .ok a t → I s → I t

/-- The company of walks that keep a property. -/
def Company.keeping (I : WalkState → Prop) : Company where
  Beside _ _ := False
  Lost _ := I
  Columns _ _ := True
  Operands _ _ := True
  Conditions _ _ := True
  loosen := id

variable {α : Type} {I : WalkState → Prop} {Records : Bool → Prop}

theorem Walk.Keeps.follows {m m' : Walk α} (keeps : Keeps I m) {b : Bool} {after : α → Bool} {Same : α → α → Prop} :
    (Company.keeping I).Follows b m m' after Same :=
  fun s a t run => ⟨keeps s a t run, fun _ pair => pair.elim⟩

theorem Company.Follows.keeps {m m' : Walk α} {b : Bool} {after : α → Bool} {Same : α → α → Prop}
    (follows : (Company.keeping I).Follows b m m' after Same) : Walk.Keeps I m :=
  fun s a t run => (follows s a t run).1

namespace Walk

namespace Keeps

variable {β σ : Type} {m n : Walk α}

theorem of_stays (stays : ∀ s a t, m s = .ok a t → t = s) : Keeps I m :=
  fun s a t run holds => stays s a t run ▸ holds

theorem pure {a : α} : Keeps I (Pure.pure a) := of_stays fun _ _ _ run => (pure_eq_ok_iff.mp run).2.symm

theorem bind {f : α → Walk β} (first : Keeps I m) (next : ∀ a, Keeps I (f a)) : Keeps I (m >>= f) := by
  intro s b u run holds
  obtain ⟨a, t, firstRun, nextRun⟩ := bind_eq_ok_iff.mp run
  exact next a t b u nextRun (first s a t firstRun holds)

theorem ite {c : Prop} [Decidable c] (yes : Keeps I m) (no : Keeps I n) : Keeps I (if c then m else n) := by
  split
  · exact yes
  · exact no

theorem discards (keeps : Keeps I m) : Keeps I (discard m) := by
  intro s _ t run holds
  obtain ⟨a, run, -⟩ := map_eq_ok_iff.mp run
  exact keeps s a t run holds

theorem records {f : Statement → Statement} (keeps : ∀ s, I s → I { s with statement := f s.statement }) :
    Keeps I (record f) := by
  intro s _ t run holds
  cases run
  exact keeps s holds

theorem of_discard (keeps : Keeps I (discard m)) : Keeps I m :=
  fun s a t run => keeps s () t (map_eq_ok_iff.mpr ⟨a, run, rfl⟩)

end Keeps

/-- Whatever a walk ends with, it leads from one property of the state to another one. -/
def Leads (I J : WalkState → Prop) (m : Walk α) : Prop := ∀ s a t, m s = .ok a t → I s → J t

namespace Leads

variable {β σ : Type} {I J K : WalkState → Prop} {m n : Walk α}

theorem bind {f : α → Walk β} (first : Leads I J m) (next : ∀ a, Leads J K (f a)) : Leads I K (m >>= f) := by
  intro s b u run holds
  obtain ⟨a, t, firstRun, nextRun⟩ := bind_eq_ok_iff.mp run
  exact next a t b u nextRun (first s a t firstRun holds)

/-- Less is known at the beginning. -/
theorem weaken (leads : Leads J K m) (weaker : ∀ s, I s → J s) : Leads I K m :=
  fun s a t run holds => leads s a t run (weaker s holds)

theorem branch {c : Prop} [Decidable c] (yes : c → Leads I J m) (no : ¬ c → Leads I J n) : Leads I J (if c then m else n) := by
  split
  · next holds => exact yes holds
  · next fails => exact no fails

theorem ite {c : Prop} [Decidable c] (yes : Leads I J m) (no : Leads I J n) : Leads I J (if c then m else n) :=
  branch (fun _ => yes) fun _ => no

/-- A step that is left out or keeps the property. -/
theorem perhaps {c : Prop} [Decidable c] {m : Walk Unit} {f : Unit → Walk β} (yes : Keeps I m) (next : Leads I J (f ())) :
    Leads I J (if c then m >>= f else f ()) :=
  ite (bind yes fun _ => next) next

theorem pure {a : α} (weaker : ∀ s, I s → J s) : Leads I J (Pure.pure a) := by
  intro s _ t run holds
  obtain ⟨-, rfl⟩ := pure_eq_ok_iff.mp run
  exact weaker s holds

theorem of_stays (stays : ∀ s a t, m s = .ok a t → t = s) : Leads I I m := fun s a t run holds => stays s a t run ▸ holds

theorem discards (leads : Leads I J m) : Leads I J (discard m) := by
  intro s _ t run holds
  obtain ⟨a, run, -⟩ := map_eq_ok_iff.mp run
  exact leads s a t run holds

theorem fails (never : Fails m) : Leads I J m := fun s a t run => absurd run (never s a t)

theorem records {f : Statement → Statement} (keeps : ∀ s, I s → J { s with statement := f s.statement }) :
    Leads I J (record f) := by
  intro s _ t run holds
  cases run
  exact keeps s holds

/-- What each round keeps, a loop keeps. -/
theorem repeatFrom {f : σ → Walk (Bool × σ)} (round : ∀ x, Leads I I (f x)) (x : σ) : Leads I I (repeatFrom x f) :=
  fun _ _ _ run holds => repeatFrom_invariant (J := fun _ => I) (fun x s r t holds run => round x s r t run holds) run holds

theorem repeatWhile {m : Walk Bool} (round : Leads I I m) : Leads I I (repeatWhile m) := by
  refine repeatFrom (fun _ => ?_) ()
  intro s r t run holds
  obtain ⟨again, run, -⟩ := map_eq_ok_iff.mp run
  exact round s again t run holds

end Leads

/-- Looking for a locking clause moves nothing, and such a clause begins with a bare word. -/
theorem atLock_stays {s t : WalkState} {r : Bool} (run : atLock s = .ok r t) :
    t = s ∧ (r = true → s.cursor.kind.isWord "LOCK" = true) := by
  obtain ⟨_, _, ⟨⟩, run⟩ := bind_eq_ok_iff.mp run
  split at run
  · next isWord =>
    obtain ⟨_, u, ahead, run⟩ := bind_eq_ok_iff.mp run
    exact ⟨(pure_eq_ok_iff.mp run).2.symm.trans (peek_eq_ok_iff.mp ahead).2, fun _ => isWord⟩
  · obtain ⟨rfl, rfl⟩ := pure_eq_ok_iff.mp run
    exact ⟨rfl, (absurd · Bool.false_ne_true)⟩

theorem atConditionEnd_stays {s u : WalkState} {ended : Bool} (run : atConditionEnd s = .ok ended u) : u = s := by
  obtain ⟨k, _, ⟨⟩, run⟩ := bind_eq_ok_iff.mp run
  split at run
  · exact (pure_eq_ok_iff.mp run).2.symm
  obtain ⟨isJoin, s₁, joins, ending⟩ := bind_eq_ok_iff.mp run
  obtain ⟨rfl, -⟩ := atJoin_stays joins
  split at ending
  · exact (pure_eq_ok_iff.mp ending).2.symm
  · exact (atLock_stays ending).1

/-- The smallest walks of queries keep a property. -/
structure KeptByParts (I : WalkState → Prop) (Records : Bool → Prop) : Prop where
  advance : Keeps I advance
  conditions : ∀ s cs, I s → I { s with statement := { s.statement with conditions := cs } }
  column : Keeps I column
  table : Keeps I aliasedTable
  records_false : Records false
  limit : ∀ r, Records r → Keeps I (limitClause r)
  offsetFetch : ∀ r, Records r → Keeps I (offsetFetchClause r)
  top : ∀ r, Keeps I (topClause r)

end Walk

namespace Company

theorem keeping_inStep (advance : Walk.Keeps I Walk.advance) : (keeping I).InStep where
  tighten lost _ := lost
  alike pair := pair.elim
  looksAhead pair := pair.elim
  advances := advance.follows
  seesLock := Walk.Keeps.follows (.of_stays fun _ _ _ run => (Walk.atLock_stays run).1)

theorem keeping_steady (kept : Walk.KeptByParts I Records) : (keeping I).Steady Records where
  toInStep := keeping_inStep kept.advance
  columns_total x := ⟨x, trivial⟩
  operands_total x := ⟨x, trivial⟩
  conditions_total x := ⟨x, trivial⟩
  lost_conditions cs lost := kept.conditions _ cs lost
  conditions pair := pair.elim
  setConditions pair := pair.elim
  addCondition _ _ := trivial
  markUnusable _ := trivial
  readsColumn := kept.column.follows
  readsValue := ((keeping_inStep kept.advance).value? (b := false)).keeps.follows
  readsTable := kept.table.follows
  records_false := kept.records_false
  readsLimit r records := (kept.limit r records).follows
  readsOffsetFetch r records := (kept.offsetFetch r records).follows
  readsTop r := (kept.top r).follows

end Company

theorem Statement.foldl_addCondition (cs : List Condition) (s : Statement) :
    cs.foldl Statement.addCondition s = { s with conditions := cs.foldl Conditions.add s.conditions } := by
  induction cs generalizing s with
  | nil => rfl
  | cons c cs ih => rw [List.foldl_cons, ih]; rfl

namespace Walk

/-- The smallest walks of statements keep a property. -/
structure KeptByStatements (I : WalkState → Prop) (Records : Bool → Prop) : Prop extends KeptByParts I Records where
  rows : ∀ s columns n, I s → I { s with statement := { s.statement with insertColumns := columns, insertRows := n } }
  name : Keeps I tableName
  targets : Keeps I targetsEnd

end Walk

theorem Company.keeping_settled (kept : Walk.KeptByStatements I Records) : (keeping I).Settled Records where
  toSteady := keeping_steady kept.toKeptByParts
  readsName := kept.name.discards.follows
  recordColumn _ := (Walk.Keeps.records fun s holds => kept.rows s _ s.statement.insertRows holds).follows
  countRow := (Walk.Keeps.records fun s holds => kept.rows s s.statement.insertColumns _ holds).follows
  singleRow := (Walk.Keeps.records fun s holds => kept.rows s s.statement.insertColumns _ holds).follows
  insertRows pair := pair.elim
  recordRow _ := (Walk.Keeps.records fun s holds => by
    rw [Statement.foldl_addCondition]
    exact kept.conditions s _ holds).follows
  readsTargets := kept.targets.follows

/-- A property that is kept by recording a key is kept wherever the key is. -/
theorem Company.keeping_keyPoints (keeps : ∀ columnsEnd valuesEnd n,
    Walk.Keeps I (Walk.record (·.addPoint (.generatedKey columnsEnd valuesEnd n)))) :
    (keeping I).KeyPoints fun _ _ => True where
  toPlaces := .any _
  records n _ _ := (keeps _ _ n).follows

theorem Walk.passWord_keeps (abreast : (Company.keeping I).Abreast) (word : String) : Keeps I (passWord word) := by
  refine .bind (.of_stays (by rintro s a t ⟨⟩; rfl)) fun k => ?_
  dsimp only
  exact .ite (.bind (abreast.advance (b := false)).keeps.discards fun _ => .pure) .pure

theorem Walk.passTies_keeps (abreast : (Company.keeping I).Abreast) : Keeps I passTies := by
  have once : Keeps I (discard advance) := (abreast.advance (b := false)).keeps.discards
  refine .bind (abreast.check (b := false) _).keeps fun _ => .ite ?_ .pure
  exact .bind (abreast.peek (b := false)).keeps fun _ => .ite (once.bind fun _ => once) .pure

/-! ## Words that are passed -/

theorem Walk.passWord_eq_ok_iff {s t : WalkState} {word : String} {r : Bool} : passWord word s = .ok r t ↔
    s.cursor.kind.isWord word = false ∧ r = false ∧ t = s ∨
      s.cursor.kind.isWord word = true ∧ r = true ∧ ∃ x, advance s = .ok x t := by
  rw [passWord, bind_eq_ok_iff]
  cases isWord : s.cursor.kind.isWord word with
  | false =>
    constructor
    · rintro ⟨_, _, ⟨⟩, run⟩
      rw [isWord] at run
      obtain ⟨rfl, rfl⟩ := pure_eq_ok_iff.mp run
      exact .inl ⟨rfl, rfl, rfl⟩
    · rintro (⟨-, rfl, rfl⟩ | ⟨⟨⟩, -⟩)
      refine ⟨_, t, rfl, ?_⟩
      rw [isWord]
      rfl
  | true =>
    constructor
    · rintro ⟨_, _, ⟨⟩, run⟩
      rw [isWord] at run
      obtain ⟨_, u, passes, ending⟩ := bind_eq_ok_iff.mp run
      obtain ⟨x, advances, -⟩ := map_eq_ok_iff.mp passes
      obtain ⟨rfl, rfl⟩ := pure_eq_ok_iff.mp ending
      exact .inr ⟨rfl, rfl, x, advances⟩
    · rintro (⟨⟨⟩, -⟩ | ⟨-, rfl, x, advances⟩)
      refine ⟨_, s, rfl, ?_⟩
      rw [isWord]
      exact bind_eq_ok_iff.mpr ⟨(), t, map_eq_ok_iff.mpr ⟨x, advances, rfl⟩, rfl⟩

/-- The token that was next is the current one after a step. -/
theorem Cursor.peek_of_step {c next : Cursor} (steps : c.step = (none, next)) : c.peek = .ok next.kind := by
  rw [step] at steps
  rw [peek]
  split at steps
  · next atEnd =>
    cases steps
    rw [if_pos atEnd]
    exact congrArg _ (of_decide_eq_true atEnd).symm
  · next inside =>
    rw [if_neg inside]
    revert steps
    cases c.ahead with
    | token | finished =>
      rintro ⟨⟩
      rfl
    | fault | stuck =>
      intro same
      cases same

theorem Walk.peek_of_advance {s u : WalkState} {t : Token} (run : advance s = .ok t u) : s.cursor.peek = .ok u.cursor.kind := by
  obtain ⟨next, step, -, rfl⟩ := advance_eq_ok_iff.mp run
  exact Cursor.peek_of_step step

/-- `WITH` without `TIES` behind it is left where it is. -/
theorem Walk.passTies_eq_ok_iff {s t : WalkState} {r : Unit} : passTies s = .ok r t ↔
    (s.cursor.check (.keyword .with) = false ∨
      s.cursor.check (.keyword .with) = true ∧ ∃ k, s.cursor.peek = .ok k ∧ k.isWord "TIES" = false) ∧ t = s ∨
    s.cursor.check (.keyword .with) = true ∧ ∃ k, s.cursor.peek = .ok k ∧ k.isWord "TIES" = true ∧
      ∃ x u y, advance s = .ok x u ∧ advance u = .ok y t := by
  rw [passTies, bind_eq_ok_iff]
  constructor
  · rintro ⟨isWith, _, ⟨⟩, run⟩
    split at run
    · next isWith =>
      obtain ⟨k, u, ahead, rest⟩ := bind_eq_ok_iff.mp run
      obtain ⟨found, rfl⟩ := peek_eq_ok_iff.mp ahead
      split at rest
      · next isTies =>
        obtain ⟨_, u, passes, ending⟩ := bind_eq_ok_iff.mp rest
        obtain ⟨x, first, -⟩ := map_eq_ok_iff.mp passes
        obtain ⟨y, second, -⟩ := map_eq_ok_iff.mp ending
        exact .inr ⟨isWith, k, found, isTies, x, u, y, first, second⟩
      · next noTies =>
        obtain ⟨-, rfl⟩ := pure_eq_ok_iff.mp rest
        exact .inl ⟨.inr ⟨isWith, k, found, Bool.eq_false_iff.mpr noTies⟩, rfl⟩
    · next noWith =>
      obtain ⟨-, rfl⟩ := pure_eq_ok_iff.mp run
      exact .inl ⟨.inl (Bool.eq_false_iff.mpr noWith), rfl⟩
  · rintro (⟨noWith | ⟨isWith, k, ahead, noTies⟩, rfl⟩ | ⟨isWith, k, ahead, isTies, x, u, y, first, second⟩)
    · refine ⟨_, t, rfl, ?_⟩
      rw [noWith]
      rfl
    · refine ⟨_, t, rfl, ?_⟩
      rw [isWith]
      refine bind_eq_ok_iff.mpr ⟨k, t, peek_eq_ok_iff.mpr ⟨ahead, rfl⟩, ?_⟩
      rw [noTies]
      rfl
    · refine ⟨_, s, rfl, ?_⟩
      rw [isWith]
      refine bind_eq_ok_iff.mpr ⟨k, s, peek_eq_ok_iff.mpr ⟨ahead, rfl⟩, ?_⟩
      rw [isTies]
      exact bind_eq_ok_iff.mpr ⟨(), u, map_eq_ok_iff.mpr ⟨x, first, rfl⟩, map_eq_ok_iff.mpr ⟨y, second, rfl⟩⟩

/-! ## Properties that do not depend on which names are recorded -/

/-- The steps of walks keep a property, and recording keeps it, whatever is recorded. Offsets are asked for only where
they may be recorded. -/
structure Walk.KeptByRecords (I : WalkState → Prop) (Records : Bool → Prop) : Prop where
  records_false : Records false
  advance : Keeps I advance
  conditions : ∀ s cs, I s → I { s with statement := { s.statement with conditions := cs } }
  rows : ∀ s columns n, I s → I { s with statement := { s.statement with insertColumns := columns, insertRows := n } }
  qualifier : ∀ s x, I s → I { s with statement := s.statement.addQualifier x }
  table : ∀ s x aliasName, I s → I { s with statement := s.statement.addTable x aliasName }
  paginate : ∀ s rowCount offset rewritable, (offset.isSome = true → Records true) → I s →
    I { s with statement := s.statement.paginate rowCount offset rewritable }

namespace Walk.KeptByRecords

variable (kept : KeptByRecords I Records)

include kept

theorem inStep : (Company.keeping I).InStep := Company.keeping_inStep kept.advance

theorem abreast : (Company.keeping I).Abreast := kept.inStep.toAbreast

theorem paging : (Company.keeping I).WordPaging Records fun _ _ => True where
  toAbreast := kept.abreast
  bounds_total x := ⟨x, trivial⟩
  bound := kept.abreast.bound
  paginates records _ _ := Keeps.follows (.records fun s => kept.paginate s _ _ _ records)
  passesPercent := (passWord_keeps kept.abreast _).follows
  passesTies := (passTies_keeps kept.abreast).follows

theorem qualifiedName : Keeps I qualifiedName := by
  have names : Keeps I identifier := (kept.inStep.identifier (b := false)).keeps
  exact names.bind fun _ => .bind (kept.inStep.eat (b := false) _).keeps fun _ => .ite names .pure

theorem column : Keeps I column := by
  have names : Keeps I identifier := (kept.inStep.identifier (b := false)).keeps
  have dots : Keeps I (eat (.symbol .dot)) := (kept.inStep.eat (b := false) _).keeps
  have qualifies (owner : Identifier) : Keeps I (record (·.addQualifier owner)) :=
    .records fun s => kept.qualifier s owner
  have parts (first : Identifier) : Keeps I (nameParts first) := by
    refine Leads.repeatFrom (fun (parts, _) => dots.bind fun _ => .ite ?_ .pure) _
    refine .bind (kept.inStep.kind (b := false)).keeps fun k => .ite (names.bind fun _ => .pure) (.ite ?_ ?_)
    · exact .bind kept.advance.discards fun _ => .pure
    · exact fun _ _ _ run => nomatch run
  refine names.bind fun first => (parts first).bind fun (names, star) => .ite ?_ ?_
  · cases names.getLast? with
    | none => exact .pure
    | some owner => exact (qualifies owner).bind fun _ => .pure
  · split
    · exact .pure
    · exact .pure
    · exact (qualifies _).bind fun _ => .pure

theorem parts : KeptByParts I Records where
  advance := kept.advance
  conditions := kept.conditions
  column := kept.column
  table := by
    have aliases : Keeps I alias? := .of_discard (kept.inStep.discard_alias? (b := false)).keeps
    exact kept.qualifiedName.bind fun x => aliases.bind fun a => .records fun s => kept.table s x a
  records_false := kept.records_false
  limit _ records := (kept.paging.limitClause records (b := false)).keeps
  offsetFetch _ records := (kept.paging.offsetFetchClause records (b := false)).keeps
  top r := (kept.paging.topClause r (b := false)).keeps

theorem addTargets (targets : List Identifier) (s : WalkState) (holds : I s) :
    I { s with statement := targets.foldl addTarget s.statement } := by
  induction targets generalizing s with
  | nil => exact holds
  | cons x targets ih =>
    refine ih { s with statement := addTarget s.statement x } ?_
    rw [addTarget]
    split
    · exact kept.table s x none holds
    · exact holds

theorem deleteTargets : Keeps I deleteTargets := by
  refine kept.qualifiedName.bind fun first => Leads.repeatFrom (fun targets => ?_) _
  exact (kept.inStep.eat (b := false) _).keeps.bind fun _ => .ite (kept.qualifiedName.bind fun _ => .pure) .pure

theorem statements : KeptByStatements I Records where
  toKeptByParts := kept.parts
  rows := kept.rows
  name := kept.qualifiedName.bind fun x => .bind (.records fun s => kept.table s x none) fun _ => .pure
  targets := by
    have steady := Company.keeping_steady kept.parts
    have records (targets : List Identifier) : Keeps I (record (targets.foldl addTarget)) :=
      .records (kept.addTargets targets)
    exact kept.deleteTargets.bind fun targets => .bind (kept.inStep.eat (b := false) _).keeps fun _ =>
      .ite (steady.tableReferences.keeps.bind fun _ => records targets) (records targets)

/-- The walks over statements keep it, too. -/
theorem settled : (Company.keeping I).Settled Records := Company.keeping_settled kept.statements

end Walk.KeptByRecords

/-- What the steps of a cursor keep, every walk over a statement keeps. -/
theorem Walk.keptByRecords_of_steps {P : Cursor → Prop} (steps : ∀ c next, c.step = (none, next) → P c → P next) :
    KeptByRecords (fun s => P s.cursor) fun _ => True where
  records_false := trivial
  advance s _ u run holds := by
    obtain ⟨next, step, -, rfl⟩ := advance_eq_ok_iff.mp run
    exact steps _ _ step holds
  conditions _ _ := id
  rows _ _ _ := id
  qualifier _ _ := id
  table _ _ _ := id
  paginate _ _ _ _ _ := id

theorem Walk.wholeStatement_keeps {P : Cursor → Prop} (steps : ∀ c next, c.step = (none, next) → P c → P next)
    (kind : StatementKind) : Keeps (fun s => P s.cursor) (wholeStatement kind) :=
  ((keptByRecords_of_steps steps).settled.wholeStatement (b := false)
    (Company.keeping_keyPoints fun _ _ _ => .records fun _ => id) trivial kind).keeps

end SqlSharding.Sql
