import SqlSharding.Proofs.Operands

/-!
# Walks that read names

A name is passed by a walk that reads a column, a table or an alias, or by one that passes over a part of the text whatever stands
in it. All other steps pass tokens that are no names. So a property of the state is kept by whole statements if these walks keep it
and single steps keep it where no name stands. Behind the name of a table or an alias a weaker property may hold, from which the
first one follows unless a dot stands next.
-/

namespace SqlSharding.Sql

namespace TokenKind

/-- Whether a kind is a keyword, or a sign other than a dot: no name goes on with it. -/
def endsName : TokenKind → Bool
  | keyword _ => true
  | symbol s => s ≠ .dot
  | _ => false

variable {k : TokenKind}

theorem isFixed_of_endsName (ends : k.endsName = true) : k.isFixed = true := by
  cases k with
  | keyword | symbol => rfl
  | _ => cases ends

theorem isIdentifier_of_endsName (ends : k.endsName = true) : k.isIdentifier = false := by
  cases k with
  | identifier | quotedIdentifier => cases ends
  | _ => rfl

theorem ne_dot_of_endsName (ends : k.endsName = true) : k ≠ .symbol .dot := by
  rintro rfl
  cases ends

end TokenKind

theorem Cursor.endsName_of_check {c : Cursor} {k : TokenKind} (ends : k.endsName = true) (found : c.check k = true) :
    c.kind.endsName = true := by
  rwa [show c.kind = k from (TokenKind.sameShape_fixed (TokenKind.isFixed_of_endsName ends)).mp found]

theorem Cursor.endsName_of_checkAny {c : Cursor} {ks : List TokenKind} (ends : ∀ k ∈ ks, k.endsName = true)
    (found : c.checkAny ks = true) : c.kind.endsName = true :=
  ends _ (kind_mem_of_checkAny (fun k member => TokenKind.isFixed_of_endsName (ends k member)) found)

namespace Walk

variable {α β : Type} {I J K : WalkState → Prop}

theorem passIf_run {test : Cursor → Bool} {s t : WalkState} {found : Bool} (run : passIf test s = .ok found t) :
    test s.cursor = found ∧ if found then ∃ x, advance s = .ok x t else t = s := by
  obtain ⟨_, _, ⟨⟩, run⟩ := bind_eq_ok_iff.mp run
  cases tested : test s.cursor with
  | false =>
    rw [tested] at run
    obtain ⟨rfl, rfl⟩ := pure_eq_ok_iff.mp run
    exact ⟨rfl, rfl⟩
  | true =>
    rw [tested] at run
    obtain ⟨_, _, passes, run⟩ := bind_eq_ok_iff.mp run
    obtain ⟨x, advances, -⟩ := map_eq_ok_iff.mp passes
    obtain ⟨rfl, rfl⟩ := pure_eq_ok_iff.mp run
    exact ⟨rfl, x, advances⟩

/-- A property holds where a token of the given kind stands. -/
def At (k : TokenKind) (I : WalkState → Prop) (s : WalkState) : Prop := s.cursor.kind = k ∧ I s

/-- The current token is known by its kind. -/
theorem Leads.kind {f : TokenKind → Walk β} (each : ∀ k, Leads (At k I) J (f k)) : Leads I J (kind >>= f) := by
  intro s b t run holds
  obtain ⟨k, _, ⟨⟩, run⟩ := bind_eq_ok_iff.mp run
  exact each s.cursor.kind s b t run ⟨rfl, holds⟩

theorem Leads.checkAt {k : TokenKind} {f : Bool → Walk β} (fixed : k.isFixed = true) (yes : Leads (At k I) J (f true))
    (no : Leads I J (f false)) : Leads I J (check k >>= f) := by
  intro s b t run holds
  obtain ⟨found, _, ⟨⟩, run⟩ := bind_eq_ok_iff.mp run
  cases found : s.cursor.check k with
  | false => exact no s b t (found ▸ run) holds
  | true => exact yes s b t (found ▸ run) ⟨(TokenKind.sameShape_fixed fixed).mp found, holds⟩

/-- The smallest walks keep a property, and single steps keep it where no name stands. A weaker property may hold behind tables,
aliases and locking clauses. -/
structure KeptByNames (I J : WalkState → Prop) : Prop where
  loosen : ∀ s, I s → J s
  tighten : ∀ s, s.cursor.kind ≠ .symbol .dot → J s → I s
  advance : ∀ s x t, Walk.advance s = .ok x t → s.cursor.kind.isIdentifier = false → I s → I t
  lock : ∀ s x t, Walk.advance s = .ok x t → atLock s = .ok true s → I s → I t
  conditions : ∀ s cs, I s → I { s with statement := { s.statement with conditions := cs } }
  paginate : ∀ s rowCount offset rewritable, I s → I { s with statement := s.statement.paginate rowCount offset rewritable }
  column : Leads I I column
  table : Leads I J aliasedTable
  aliases : Leads I J (discard alias?)
  hints : Leads J J tableHints
  grouped : ∀ s t u, eat (.keyword .using) s = .ok true t → skipParentheses t = .ok () u → I s → I u
  top : ∀ r, Leads I I (topClause r)
  locking : Leads J J lockingClause

namespace KeptByNames

variable (kept : KeptByNames I J)

include kept

theorem loosened {m : Walk α} (leads : Leads K I m) : Leads K J m := fun s a t run holds => kept.loosen t (leads s a t run holds)

theorem tightened {m : Walk α} (leads : Leads J K m) : Leads I K m := fun s a t run holds => leads s a t run (kept.loosen s holds)

theorem skips : Leads I J (pure () : Walk Unit) := .pure kept.loosen

/-! ## Looking and passing -/

theorem advances {s t : WalkState} {v : Unit} (run : discard Walk.advance s = .ok v t)
    (other : s.cursor.kind.isIdentifier = false) (holds : I s) : I t := by
  obtain ⟨x, run, -⟩ := map_eq_ok_iff.mp run
  exact kept.advance s x t run other holds

theorem passes {k : TokenKind} (other : k.isIdentifier = false) : Leads (At k I) I (discard Walk.advance) :=
  fun _ _ _ run ⟨here, holds⟩ => kept.advances run (here ▸ other) holds

/-- A join word is no name. -/
theorem joinWord : Leads I I (do
    if ← Walk.atJoin then
      discard Walk.advance
      return true
    else return false) := by
  intro s again t run holds
  obtain ⟨isJoin, u, joins, ending⟩ := bind_eq_ok_iff.mp run
  obtain ⟨rfl, isWord⟩ := atJoin_stays joins
  split at ending
  · next found =>
    obtain ⟨_, v, advances, ending⟩ := bind_eq_ok_iff.mp ending
    obtain ⟨-, rfl⟩ := pure_eq_ok_iff.mp ending
    obtain ⟨w, same⟩ := isWord found
    exact kept.advances advances (by rw [same]; rfl) holds
  · obtain ⟨-, rfl⟩ := pure_eq_ok_iff.mp ending
    exact holds

/-- The columns that a join names in parentheses. -/
theorem usingThen {f : Unit → Walk β} (next : Leads J K (f ())) :
    Leads J K (Walk.eat (.keyword .using) >>= fun isUsing => if isUsing = true then skipParentheses >>= f else f ()) := by
  intro s b t run holds
  obtain ⟨isUsing, u, eats, ending⟩ := bind_eq_ok_iff.mp run
  obtain ⟨found, ended⟩ := passIf_run (show Walk.passIf (·.check (.keyword .using)) s = .ok isUsing u from eats)
  cases isUsing with
  | false =>
    obtain rfl : u = s := ended
    exact next u b t ending holds
  | true =>
    obtain ⟨_, v, skips, ending⟩ := bind_eq_ok_iff.mp ending
    have isWord : s.cursor.kind = .keyword .using := TokenKind.sameShape_keyword.mp found
    have here : I s := kept.tighten s (TokenKind.ne_symbol_of_keyword isWord) holds
    exact next v b t ending (kept.loosen v (kept.grouped s u v eats skips here))

/-- Where a test says that no dot stands next, the first property holds. -/
theorem looks {m : Walk Bool} {f : Bool → Walk β}
    (stays : ∀ s a t, m s = .ok a t → t = s ∧ (a = true → s.cursor.kind ≠ .symbol .dot)) (yes : Leads I K (f true))
    (no : Leads J K (f false)) : Leads J K (m >>= f) := by
  intro s b t run holds
  obtain ⟨found, u, looking, next⟩ := bind_eq_ok_iff.mp run
  obtain ⟨rfl, other⟩ := stays s found u looking
  cases found with
  | false => exact no u b t next holds
  | true => exact yes u b t next (kept.tighten u (other rfl) holds)

theorem checkThen {k : TokenKind} {f : Bool → Walk β} (ends : k.endsName = true) (yes : Leads (At k I) K (f true))
    (no : Leads J K (f false)) : Leads J K (Walk.check k >>= f) := by
  refine .checkAt (TokenKind.isFixed_of_endsName ends) (yes.weaken ?_) no
  rintro s ⟨here, holds⟩
  exact ⟨here, kept.tighten s (here ▸ TokenKind.ne_dot_of_endsName ends) holds⟩

theorem checkAnyThen {ks : List TokenKind} {f : Bool → Walk β} (ends : ∀ k ∈ ks, k.endsName = true) (yes : Leads I K (f true))
    (no : Leads J K (f false)) : Leads J K (Walk.checkAny ks >>= f) := by
  refine kept.looks ?_ yes no
  rintro s _ t ⟨⟩
  exact ⟨rfl, fun found => TokenKind.ne_dot_of_endsName (Cursor.endsName_of_checkAny ends found)⟩

theorem atJoinThen {f : Bool → Walk β} (yes : Leads I K (f true)) (no : Leads J K (f false)) : Leads J K (Walk.atJoin >>= f) := by
  refine kept.looks ?_ yes no
  intro s a t run
  obtain ⟨rfl, isWord⟩ := atJoin_stays run
  refine ⟨rfl, fun found => ?_⟩
  obtain ⟨w, same⟩ := isWord found
  exact TokenKind.ne_symbol_of_keyword same

theorem passIf {test : Cursor → Bool} (ends : ∀ c, test c = true → c.kind.endsName = true) : Leads I I (Walk.passIf test) := by
  intro s found t run holds
  obtain ⟨tested, ended⟩ := passIf_run run
  cases found with
  | false =>
    obtain rfl : t = s := ended
    exact holds
  | true =>
    obtain ⟨x, advances⟩ := ended
    exact kept.advance s x t advances (TokenKind.isIdentifier_of_endsName (ends s.cursor tested)) holds

/-- Where a token has been passed the first property holds, otherwise the one from before. -/
theorem passIfThen {test : Cursor → Bool} {f : Bool → Walk β} (ends : ∀ c, test c = true → c.kind.endsName = true)
    (yes : Leads I K (f true)) (no : Leads J K (f false)) : Leads J K (Walk.passIf test >>= f) := by
  intro s b t run holds
  obtain ⟨found, u, passes, next⟩ := bind_eq_ok_iff.mp run
  obtain ⟨tested, ended⟩ := passIf_run passes
  cases found with
  | false =>
    obtain rfl : u = s := ended
    exact no u b t next holds
  | true =>
    have here : I s := kept.tighten s (TokenKind.ne_dot_of_endsName (ends s.cursor tested)) holds
    exact yes u b t next (kept.passIf ends s true u passes here)

theorem eat {k : TokenKind} (ends : k.endsName = true) : Leads I I (Walk.eat k) :=
  kept.passIf fun _ => Cursor.endsName_of_check ends

theorem eatThen {k : TokenKind} {f : Bool → Walk β} (ends : k.endsName = true) (yes : Leads I K (f true)) (no : Leads J K (f false)) :
    Leads J K (Walk.eat k >>= f) :=
  kept.passIfThen (fun _ => Cursor.endsName_of_check ends) yes no

theorem eatAny {ks : List TokenKind} (ends : ∀ k ∈ ks, k.endsName = true) : Leads I I (Walk.eatAny ks) :=
  kept.passIf fun _ => Cursor.endsName_of_checkAny ends

theorem eatAnyThen {ks : List TokenKind} {f : Bool → Walk β} (ends : ∀ k ∈ ks, k.endsName = true) (yes : Leads I K (f true))
    (no : Leads J K (f false)) : Leads J K (Walk.eatAny ks >>= f) :=
  kept.passIfThen (fun _ => Cursor.endsName_of_checkAny ends) yes no

theorem skipAll {ks : List TokenKind} (ends : ∀ k ∈ ks, k.endsName = true) : Leads I I (Walk.skipAll ks) :=
  .repeatWhile (kept.eatAny ends)

/-- A token that is asked for is no dot. -/
theorem expect {k : TokenKind} (ends : k.endsName = true) : Leads J I (discard (Walk.expect k)) := by
  intro s v t run holds
  obtain ⟨x, run, -⟩ := map_eq_ok_iff.mp run
  obtain ⟨found, _, ⟨⟩, run⟩ := bind_eq_ok_iff.mp run
  split at run
  · next found =>
    have here := Cursor.endsName_of_check ends found
    exact kept.advance s x t run (TokenKind.isIdentifier_of_endsName here) (kept.tighten s (TokenKind.ne_dot_of_endsName here) holds)
  · cases run

theorem expectAny {ks : List TokenKind} (ends : ∀ k ∈ ks, k.endsName = true) {what : Expectation} :
    Leads J I (discard (Walk.expectAny ks what)) := by
  intro s v t run holds
  obtain ⟨x, run, -⟩ := map_eq_ok_iff.mp run
  obtain ⟨found, _, ⟨⟩, run⟩ := bind_eq_ok_iff.mp run
  split at run
  · next found =>
    have here := Cursor.endsName_of_checkAny ends found
    exact kept.advance s x t run (TokenKind.isIdentifier_of_endsName here) (kept.tighten s (TokenKind.ne_dot_of_endsName here) holds)
  · cases run

/-! ## Values and bounds -/

theorem value? : Leads I I Walk.value? := by
  intro s v? t run holds
  obtain ⟨k, _, ⟨⟩, run⟩ := bind_eq_ok_iff.mp run
  have passes {s t : WalkState} {x v? : Option Operand} (other : s.cursor.kind.isIdentifier = false)
      (run : (do discard Walk.advance; return x) s = .ok v? t) (holds : I s) : I t := by
    obtain ⟨_, u, advances, run⟩ := bind_eq_ok_iff.mp run
    obtain ⟨-, rfl⟩ := pure_eq_ok_iff.mp run
    exact kept.advances advances other holds
  generalize isKind : s.cursor.kind = k at run
  cases k with
  | integer | float | string => exact passes (by rw [isKind]; rfl) run holds
  | symbol sign =>
    cases sign with
    | question =>
      obtain ⟨index, _, ⟨⟩, run⟩ := bind_eq_ok_iff.mp run
      exact passes (by rw [isKind]; rfl) run holds
    | minus =>
      obtain ⟨_, u, advances, run⟩ := bind_eq_ok_iff.mp run
      have after : I u := kept.advances advances (by rw [isKind]; rfl) holds
      obtain ⟨k, _, ⟨⟩, run⟩ := bind_eq_ok_iff.mp run
      cases negated : negated? u.cursor.kind with
      | none =>
        simp only [negated] at run
        obtain ⟨-, rfl⟩ := pure_eq_ok_iff.mp run
        exact after
      | some v =>
        simp only [negated] at run
        refine passes ?_ run after
        generalize u.cursor.kind = k at negated ⊢
        cases k with
        | integer | float => rfl
        | _ => cases negated
    | _ =>
      obtain ⟨-, rfl⟩ := pure_eq_ok_iff.mp run
      exact holds
  | _ =>
    obtain ⟨-, rfl⟩ := pure_eq_ok_iff.mp run
    exact holds

theorem equality? (x : Column) : Leads I I (Walk.equality? x) := .bind kept.value? fun _ => .pure fun _ => id

theorem between? (x : Column) : Leads I I (Walk.between? x) := by
  refine .bind kept.value? fun lower? => ?_
  cases lower? with
  | none => exact .pure fun _ => id
  | some lower =>
    exact .bind (kept.eat rfl) fun isRange => .ite (.bind kept.value? fun _ => .pure fun _ => id) (.pure fun _ => id)

theorem bound : Leads I I Walk.bound := by
  intro s b t run holds
  obtain ⟨c, _, ⟨⟩, run⟩ := bind_eq_ok_iff.mp run
  have passes {x : PlacedBound} (other : s.cursor.kind.isIdentifier = false)
      (run : (do discard Walk.advance; return x) s = .ok b t) : I t := by
    obtain ⟨_, u, advances, run⟩ := bind_eq_ok_iff.mp run
    obtain ⟨-, rfl⟩ := pure_eq_ok_iff.mp run
    exact kept.advances advances other holds
  generalize isKind : s.cursor.kind = k at run
  cases k with
  | integer =>
    dsimp only at run
    split at run
    · exact passes (by rw [isKind]; rfl) run
    · cases run
  | symbol sign =>
    cases sign with
    | question => exact passes (by rw [isKind]; rfl) run
    | _ => cases run
  | _ => cases run

/-! ## Pagination -/

theorem recordIf (r : Bool) (rowCount offset : Option PlacedBound) (rewritable : Bool) :
    Leads I I (do if r then record (·.paginate rowCount offset rewritable)) :=
  .ite (.records fun s => kept.paginate s rowCount offset rewritable) (.pure fun _ => id)

theorem limitClause (r : Bool) : Leads I I (Walk.limitClause r) := by
  have bounds (first : PlacedBound) : Leads I I (Walk.limitBounds first) := by
    refine .bind (kept.eat rfl) fun isPair => .ite (.bind kept.bound fun _ => .pure fun _ => id) ?_
    exact .bind (kept.eat rfl) fun hasOffset => .ite (.bind kept.bound fun _ => .pure fun _ => id) (.pure fun _ => id)
  refine .bind (kept.tightened (kept.expect rfl)) fun _ => .bind kept.bound fun first => .bind (bounds first) fun (rowCount, offset) => ?_
  exact kept.recordIf r (some rowCount) offset true

theorem offsetFetchClause (r : Bool) : Leads I I (Walk.offsetFetchClause r) := by
  have ending (offset rowCount : Option PlacedBound) : Leads I I (Walk.offsetFetchEnd r offset rowCount) :=
    .ite (.bind (.fails failExpected_fails) fun _ => kept.recordIf r rowCount offset true) (kept.recordIf r rowCount offset true)
  have fetch (offset : Option PlacedBound) : Leads I I (Walk.fetchEnd r offset) := by
    refine .bind (kept.eat rfl) fun isFetch => .ite ?_ (ending offset none)
    refine .bind (kept.tightened (kept.expectAny (by decide))) fun _ => .bind kept.bound fun b => ?_
    refine .bind (kept.tightened (kept.expectAny (by decide))) fun _ => .bind (kept.tightened (kept.expect rfl)) fun _ => ?_
    exact ending offset (some b)
  refine .bind (kept.eat rfl) fun hasOffset => .ite ?_ (fetch none)
  refine .bind kept.bound fun b => .bind (kept.eatAny (by decide)).discards fun _ => ?_
  exact fetch (some b)

/-- A pagination clause begins with a keyword. -/
theorem pagination (r : Bool) : Leads J J (Walk.pagination r) := by
  have none : Leads J J (pure () : Walk Unit) := .pure fun _ => id
  refine kept.checkThen rfl ((kept.loosened (kept.limitClause r)).weaken fun _ => And.right) (kept.checkAnyThen (by decide) ?_ none)
  exact .bind (.of_stays (by rintro s a t ⟨⟩; rfl)) fun c => .ite (kept.loosened (kept.offsetFetchClause r)) kept.skips

end KeptByNames

/-! ## The nested readers -/

/-- Before a name an expression ends only at a locking clause. -/
theorem atLock_of_expressionWithin {depth : Nat} {ends : TokenKind → Bool} (noName : ∀ k, k.isIdentifier = true → ends k = false)
    {s t : WalkState} {v : Unit} (run : expressionWithin depth ends s = .ok v t) (isName : t.cursor.kind.isIdentifier = true) :
    atLock t = .ok true t := by
  rcases expressionWithin_stops run with ended | ⟨w, isKeyword⟩ | isLock
  · rw [noName t.cursor.kind isName, Bool.or_false] at ended
    generalize t.cursor.kind = k at ended isName
    cases k with
    | identifier | quotedIdentifier => cases ended
    | _ => cases isName
  · rw [isKeyword] at isName
    cases isName
  · exact isLock

/-- As long as no more than the given depth is needed, the walks that contain one another keep the property. Tables and queries end
with the weaker one. -/
structure NestedNames (I J : WalkState → Prop) (depth : Nat) : Prop where
  expression : ∀ ends, Leads I I (expressionWithin depth ends)
  group : Leads I I (groupWithin depth)
  cases : Leads (At (.keyword .case) I) I (caseWithin depth)
  membership : ∀ x, Leads I I (membershipWithin depth x)
  condition : Leads I I (conditionWithin depth)
  conditions : Leads I I (conditionsWithin depth)
  tableFactor : Leads I J (tableFactorWithin depth)
  tableReferences : Leads I J (tableReferencesWithin depth)
  select : ∀ r, Leads I J (selectWithin depth r)
  query : ∀ r, Leads I J (queryWithin depth r)

namespace NestedNames

variable {depth : Nat}

theorem zero : NestedNames I J 0 where
  expression _ := .fails failTooDeep_fails
  group := .fails failTooDeep_fails
  cases := .fails failTooDeep_fails
  membership _ := .fails failTooDeep_fails
  condition := .fails failTooDeep_fails
  conditions := .fails failTooDeep_fails
  tableFactor := .fails failTooDeep_fails
  tableReferences := .fails failTooDeep_fails
  select _ := .fails failTooDeep_fails
  query _ := .fails failTooDeep_fails

variable (kept : KeptByNames I J) (nested : NestedNames I J depth)

include kept nested

theorem expression_succ (ends : TokenKind → Bool) : Leads I I (expressionWithin (depth + 1) ends) := by
  rw [expressionWithin]
  refine .repeatWhile (.kind fun k => ?_)
  have stops : Leads (At k I) I (pure false) := .pure fun _ => And.right
  have goesOn {m : Walk Unit} (leads : Leads (At k I) I m) : Leads (At k I) I (do m; return true) :=
    leads.bind fun _ => .pure fun _ => id
  refine .ite stops (.bind (.of_stays fun _ _ _ run => (atJoin_stays run).1) fun _ => .ite stops ?_)
  refine .bind (.of_stays fun _ _ _ run => (atLock_stays run).1) fun _ => .ite stops ?_
  refine .ite (goesOn (nested.group.weaken fun _ => And.right)) (.branch (fun isCase => ?_) fun _ => ?_)
  · subst isCase
    exact goesOn nested.cases
  · refine .branch (fun _ => goesOn (kept.column.discards.weaken fun _ => And.right)) fun noName => ?_
    exact goesOn (kept.passes (Bool.eq_false_iff.mpr noName))

theorem group_succ : Leads I I (groupWithin (depth + 1)) := by
  rw [groupWithin]
  have closes : Leads J I (discard (expect (.symbol .rightParen))) := kept.expect rfl
  refine .bind (kept.tightened (kept.expect rfl)) fun _ => .bind (.of_stays (by rintro s a t ⟨⟩; rfl)) fun isQuery => .ite ?_ ?_
  · exact (nested.query false).bind fun _ => closes
  · exact .bind (.repeatWhile ((nested.expression _).bind fun _ => kept.joinWord)) fun _ => kept.tightened closes

/-- Inside a `CASE` a name on which an expression ends is the word of a locking clause. -/
theorem cases_succ : Leads (At (.keyword .case) I) I (caseWithin (depth + 1)) := by
  rw [caseWithin]
  have opens : Leads (At (.keyword .case) I) I advance := by
    rintro s x t run ⟨here, holds⟩
    exact kept.advance s x t run (by rw [here]; rfl) holds
  refine opens.bind fun opening => .repeatWhile ?_
  intro s again t run holds
  obtain ⟨_, u, passed, run⟩ := bind_eq_ok_iff.mp run
  have after : I u := nested.expression _ s () u passed holds
  have passes {goesOn : Bool} (run : (do discard advance; return goesOn) u = .ok again t) : I t := by
    obtain ⟨_, w, advances, run⟩ := bind_eq_ok_iff.mp run
    obtain ⟨-, rfl⟩ := pure_eq_ok_iff.mp run
    obtain ⟨x, advances, -⟩ := map_eq_ok_iff.mp advances
    cases names : u.cursor.kind.isIdentifier with
    | false => exact kept.advance u x w advances names after
    | true =>
      refine kept.lock u x w advances (atLock_of_expressionWithin ?_ passed names) after
      intro k isName
      cases k with
      | identifier | quotedIdentifier => rfl
      | _ => cases isName
  obtain ⟨k, _, ⟨⟩, run⟩ := bind_eq_ok_iff.mp run
  split at run
  · exact passes run
  split at run
  · cases run
  · exact passes run

theorem membership_succ (x : Column) : Leads I I (membershipWithin (depth + 1) x) := by
  rw [membershipWithin]
  have none : Leads I I (pure none : Walk (Option Condition)) := .pure fun _ => id
  refine .checkAt rfl (.branch (fun never => by cases never) fun _ => ?_) (.branch (fun _ => none) fun never => absurd rfl never)
  refine .bind (.of_stays fun _ _ _ run => (peek_eq_ok_iff.mp run).2) fun next => .ite ?_ ?_
  · exact (nested.group.weaken fun _ => And.right).bind fun _ => none
  refine (kept.passes rfl).bind fun _ => .bind (.repeatFrom (fun values? => ?_) _) fun values? => ?_
  · refine .bind kept.value? fun v? => .bind (.of_stays (by rintro s a t ⟨⟩; rfl)) fun ends => ?_
    exact .perhaps (nested.expression _) (.bind (kept.eat rfl) fun isComma => .pure fun _ => id)
  · exact .bind (kept.tightened (kept.expect rfl)) fun _ => .pure fun _ => id

theorem conditionEnd (c? : Option Condition) : Leads I I (conditionEnd depth c?) := by
  have rest := nested.expression TokenKind.endsCondition
  cases c? with
  | none => exact rest
  | some c =>
    have records : Leads I I (record (·.addCondition c)) := .records fun s => kept.conditions s _
    exact .bind (.of_stays fun _ _ _ => atConditionEnd_stays) fun ended => .perhaps records rest

theorem comparison (x : Column) : Leads I I (comparison depth x) := by
  have ending := conditionEnd kept nested
  refine .bind (kept.eatAny (by decide)) fun isEqual => .ite (.bind (kept.equality? x) ending) ?_
  refine .bind (kept.eat rfl) fun isIn => .ite (.bind (nested.membership x) ending) ?_
  exact .bind (kept.eat rfl) fun isBetween => .ite (.bind (kept.between? x) ending) (ending none)

theorem condition_succ : Leads I I (conditionWithin (depth + 1)) := by
  rw [conditionWithin]
  have rest := nested.expression TokenKind.endsCondition
  refine .kind fun k => .branch (fun isNot => ?_) fun _ => .branch (fun isGroup => ?_) fun _ => .ite ?_ (rest.weaken fun _ => And.right)
  · subst isNot
    refine .bind (.of_stays (by rintro s a t ⟨⟩; rfl)) fun before => (kept.passes rfl).bind fun _ => nested.condition.bind fun _ => ?_
    exact .records fun s => kept.conditions s _
  · subst isGroup
    refine .bind (.of_stays fun _ _ _ run => (peek_eq_ok_iff.mp run).2) fun next => .ite ?_ ?_
    · exact (nested.group.weaken fun _ => And.right).bind fun _ => rest
    · refine (kept.passes rfl).bind fun _ => nested.conditions.bind fun _ => ?_
      exact .bind (kept.tightened (kept.expect rfl)) fun _ => rest
  · refine (kept.column.weaken fun _ => And.right).bind fun x? => ?_
    cases x? with
    | none => exact rest
    | some x => exact comparison kept nested x

theorem conditions_succ : Leads I I (conditionsWithin (depth + 1)) := by
  rw [conditionsWithin]
  have goesOn {again : Bool} : Leads I I (pure again) := .pure fun _ => id
  refine .repeatWhile (nested.condition.bind fun _ => .bind (kept.eat rfl) fun isAnd => .ite goesOn ?_)
  refine .bind (kept.eat rfl) fun isOr => .ite (.bind ?_ fun _ => goesOn) goesOn
  exact .records fun s => kept.conditions s _

theorem tableFactor_succ : Leads I J (tableFactorWithin (depth + 1)) := by
  rw [tableFactorWithin]
  refine .checkAt rfl (.bind (.of_stays fun _ _ _ run => (peek_eq_ok_iff.mp run).2) fun next => .ite ?_ ?_) ?_
  · exact (nested.group.weaken fun _ => And.right).bind fun _ => kept.aliases
  · exact (kept.passes rfl).bind fun _ => nested.tableReferences.bind fun _ => kept.loosened (kept.expect rfl)
  · have regroup : (do
        let name ← qualifiedName
        let aliasName ← alias?
        record (·.addTable name aliasName)
        tableHints) = (do aliasedTable; tableHints) := by
      simp only [aliasedTable, bind_assoc]
    have leads : Leads I J (do aliasedTable; tableHints) := kept.table.bind fun _ => kept.hints
    exact regroup ▸ leads

theorem tableReferences_succ : Leads I J (tableReferencesWithin (depth + 1)) := by
  rw [tableReferencesWithin]
  have goesOn {again : Bool} : Leads J J (pure again) := .pure fun _ => id
  refine nested.tableFactor.bind fun _ => .repeatWhile (kept.eatThen rfl (nested.tableFactor.bind fun _ => goesOn) ?_)
  refine kept.atJoinThen (.bind (kept.skipAll (by decide)) fun _ => nested.tableFactor.bind fun _ => ?_) goesOn
  exact kept.eatThen rfl ((kept.loosened (nested.expression _)).bind fun _ => goesOn) (kept.usingThen goesOn)

theorem selectEnd : Leads I J (selectEnd depth) := by
  have having : Leads J J (havingEnd depth) := kept.eatThen rfl (kept.loosened (nested.expression _)) (.pure fun _ => id)
  have grouping : Leads J J (do
      if ← eat (.keyword .group) then
        discard (expect (.keyword .by))
        expressionWithin depth TokenKind.endsClause
      havingEnd depth) := by
    refine kept.eatThen rfl (.bind (kept.tightened (kept.expect rfl)) fun _ => ?_) having
    exact (nested.expression _).bind fun _ => kept.tightened having
  refine (nested.expression _).bind fun _ => .bind (kept.eat rfl) fun isFrom => ?_
  have rest : Leads J J (do
      if ← eat (.keyword .where) then conditionsWithin depth
      if ← eat (.keyword .group) then
        discard (expect (.keyword .by))
        expressionWithin depth TokenKind.endsClause
      havingEnd depth) := kept.eatThen rfl (nested.conditions.bind fun _ => kept.tightened grouping) grouping
  exact .ite (nested.tableReferences.bind fun _ => rest) (kept.tightened rest)

theorem select_succ (r : Bool) : Leads I J (selectWithin (depth + 1) r) := by
  rw [selectWithin_succ]
  refine .bind (kept.tightened (kept.expect rfl)) fun _ => .bind (kept.skipAll (by decide)) fun _ => ?_
  exact .bind (.of_stays (by rintro s a t ⟨⟩; rfl)) fun isTop => .perhaps (kept.top r) (selectEnd kept nested)

theorem queryEnd (r : Bool) : Leads J J (queryEnd depth r) := by
  have ending : Leads J J (paginationEnd r) := .bind (kept.pagination r) fun _ => kept.locking
  refine kept.eatAnyThen (by decide) (.bind (kept.eatAny (by decide)).discards fun _ => nested.query false) ?_
  refine kept.eatThen rfl (.bind (kept.tightened (kept.expect rfl)) fun _ => ?_) ending
  exact (nested.expression _).bind fun _ => kept.tightened ending

theorem query_succ (r : Bool) : Leads I J (queryWithin (depth + 1) r) := by
  rw [queryWithin]
  have ending := queryEnd kept nested r
  refine .bind (kept.eat rfl) fun isGroup => .ite ?_ ((nested.select r).bind fun _ => ending)
  exact (nested.query r).bind fun _ => .bind (kept.expect rfl) fun _ => kept.tightened ending

theorem succ : NestedNames I J (depth + 1) where
  expression := expression_succ kept nested
  group := group_succ kept nested
  cases := cases_succ kept nested
  membership := membership_succ kept nested
  condition := condition_succ kept nested
  conditions := conditions_succ kept nested
  tableFactor := tableFactor_succ kept nested
  tableReferences := tableReferences_succ kept nested
  select := select_succ kept nested
  query := query_succ kept nested

omit nested in
/-- However deep they are nested. -/
theorem all : ∀ depth, NestedNames I J depth
  | 0 => zero
  | depth + 1 => succ kept (all depth)

end NestedNames

end Walk

end SqlSharding.Sql
