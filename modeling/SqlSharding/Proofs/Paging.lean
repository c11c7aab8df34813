import SqlSharding.Proofs.Queries

/-!
# Values and bounds in company

Plain values and the bounds of a pagination are passed by their first token alone, so companies that are in step pass
them alike. The pagination clauses follow if, besides, recording related bounds keeps the company.
-/

namespace SqlSharding.Sql

namespace Company.Abreast

variable {C : Company} {b : Bool} (abreast : C.Abreast)

include abreast

/-- A number, a string or a placeholder is passed, whatever it is. -/
theorem value? : C.Follows b Walk.value? Walk.value? (fun _ => false) (Option.Rel fun _ _ => True) := by
  have passed {b : Bool} (v v' : Operand) : C.Follows b (do discard Walk.advance; return some v)
      (do discard Walk.advance; return some v') (fun _ => false) (Option.Rel fun _ _ => True) :=
    abreast.advance.discard.seq fun _ => .pure (.some trivial)
  refine abreast.kind.bind (fun k => ⟨k, .same k⟩) fun k k' alike => ?_
  cases alike with
  | identifier | quotedIdentifier => exact .pure .none
  | integer i j => exact passed (.literal (.integer i)) (.literal (.integer j))
  | same k =>
    cases k with
    | integer | float | string => exact passed _ _
    | symbol s =>
      cases s with
      | question =>
        have index : C.Follows b Walk.parameterIndex Walk.parameterIndex (fun _ => b) Eq :=
          .look (by rintro s a t ⟨⟩; rfl) fun s s' a pair run => by
            cases run
            exact ⟨_, rfl, (abreast.alike pair).parameterIndex⟩
        exact index.seq fun _ => passed _ _
      | minus =>
        refine abreast.advance.discard.seq fun _ => abreast.kind.bind (fun k => ⟨k, .same k⟩) fun k k' alike => ?_
        cases alike with
        | identifier | quotedIdentifier => exact .pure .none
        | integer i j => exact passed (.literal (.integer (-i))) (.literal (.integer (-j)))
        | same k =>
          cases k with
          | integer | float => exact passed _ _
          | _ => exact .pure .none
      | _ => exact .pure .none
    | _ => exact .pure .none

/-- A bound of a pagination is passed, whatever it is. -/
theorem bound : C.Follows b Walk.bound Walk.bound (fun _ => true) fun _ _ => True := by
  refine abreast.cursor.bind (fun c => ⟨c, .same _, rfl, rfl, rfl⟩) fun c c' alike => ?_
  obtain ⟨kind, -, -, -⟩ := alike
  revert kind
  generalize c.kind = k
  generalize c'.kind = k'
  intro kind
  have passed {b : Bool} (x x' : PlacedBound) : C.Follows b (do discard Walk.advance; return x)
      (do discard Walk.advance; return x') (fun _ => true) fun _ _ => True :=
    abreast.advance.discard.seq fun _ => .pure trivial
  cases kind with
  | identifier | quotedIdentifier => exact failExpected
  | integer i j sign => exact .ite sign (fun _ => passed _ _) fun _ => failExpected
  | same k =>
    cases k with
    | integer i => exact .branch (fun _ => passed _ _) fun _ => failExpected
    | symbol s =>
      cases s with
      | question => exact passed _ _
      | _ => exact failExpected
    | _ => exact failExpected

end Company.Abreast

/-! ## Pagination clauses -/

namespace Walk

/-- Passes a bare word if it stands here, and tells whether it did. -/
def passWord (word : String) : Walk Bool := do
  let found := (← kind).isWord word
  if found then discard advance
  return found

/-- Passes `WITH TIES` if it stands here. -/
def passTies : Walk Unit := do
  if ← check (.keyword .with) then
    if (← peek).isWord "TIES" then
      discard advance
      discard advance

/-- Records an offset and a row count, of which one must be there. -/
def offsetFetchEnd (isRecorded : Bool) (offset rowCount : Option PlacedBound) : Walk Unit := do
  if offset.isNone && rowCount.isNone then failExpected .offsetOrFetch
  if isRecorded then record (·.paginate rowCount offset true)

/-- Passes `FETCH NEXT n ROWS ONLY`, if it stands here, and records the bounds. -/
def fetchEnd (isRecorded : Bool) (offset : Option PlacedBound) : Walk Unit := do
  if ← eat (.keyword .fetch) then
    discard (expectAny [.keyword .first, .keyword .next] .firstOrNext)
    let b ← bound
    discard (expectAny [.keyword .row, .keyword .rows] .rowOrRows)
    discard (expect (.keyword .only))
    offsetFetchEnd isRecorded offset (some b)
  else offsetFetchEnd isRecorded offset none

/-- Passes what follows the bound of a `TOP` clause, and records the bound if there is one. -/
def topEnd (isRecorded : Bool) (rowCount : Option PlacedBound) : Walk Unit := do
  let percent ← passWord "PERCENT"
  passTies
  if isRecorded then
    match rowCount with
    | some b => record (·.paginate (some b) none (!percent))
    | none => pure ()

theorem ite_bind {α β : Type} {c : Prop} [Decidable c] (m n : Walk α) (f : α → Walk β) :
    (if c then m else n) >>= f = if c then m >>= f else n >>= f := by
  split <;> rfl

theorem topClause_eq (isRecorded : Bool) : topClause isRecorded = (do
    discard (expect (.keyword .top))
    if ← check (.symbol .leftParen) then topEnd isRecorded (← topGroup)
    else topEnd isRecorded (← some <$> bound)) := by
  simp only [topClause]
  refine bind_congr fun _ => bind_congr fun isGroup => ?_
  split
  all_goals
    refine bind_congr fun rowCount => ?_
    cases rowCount <;> simp only [topEnd, passWord, passTies, bind_assoc, ite_bind, pure_bind]

end Walk

/-- The facts from which the pagination clauses at the end of a query follow, when bounds of both texts are related. An offset is
asked for only where it may be recorded. -/
structure Company.Paging (C : Company) (Records : Bool → Prop) (Bounds : PlacedBound → PlacedBound → Prop) : Prop
    extends C.Abreast where
  bounds_total : ∀ x, ∃ x', Bounds x x'
  bound : ∀ {b}, C.Follows b Walk.bound Walk.bound (fun _ => true) Bounds
  paginates : ∀ {b rowCount offset rewritable rowCount' offset'}, (offset.isSome = true → Records true) →
    Option.Rel Bounds rowCount rowCount' → Option.Rel Bounds offset offset' →
    C.Follows b (Walk.record (·.paginate rowCount offset rewritable))
      (Walk.record (·.paginate rowCount' offset' rewritable)) (fun _ => b) Eq

/-- The facts from which all pagination clauses follow. -/
structure Company.WordPaging (C : Company) (Records : Bool → Prop) (Bounds : PlacedBound → PlacedBound → Prop) : Prop
    extends C.Paging Records Bounds where
  passesPercent : ∀ {b}, C.Follows b (Walk.passWord "PERCENT") (Walk.passWord "PERCENT") (fun _ => b) Eq
  passesTies : ∀ {b}, C.Follows b Walk.passTies Walk.passTies (fun _ => b) Eq

theorem isNone_eq_of_rel {α : Type} {R : α → α → Prop} {x x' : Option α} (same : Option.Rel R x x') :
    x.isNone = x'.isNone := by
  cases same <;> rfl

namespace Company.Paging

variable {C : Company} {Records : Bool → Prop} {Bounds : PlacedBound → PlacedBound → Prop} {b r : Bool}
  (paging : C.Paging Records Bounds)

include paging

theorem bound_total? (x : Option PlacedBound) : ∃ x', Option.Rel Bounds x x' := by
  cases x with
  | none => exact ⟨none, .none⟩
  | some x =>
    obtain ⟨x', same⟩ := paging.bounds_total x
    exact ⟨some x', .some same⟩

theorem limitClause (records : Records r) :
    C.Follows b (Walk.limitClause r) (Walk.limitClause r) (fun _ => false) Eq := by
  refine (paging.expect _).discard.seq fun _ => ?_
  refine paging.bound.bind paging.bounds_total fun x x' first => ?_
  have bounds : C.Follows true (Walk.limitBounds x) (Walk.limitBounds x') (fun _ => false) fun y y' =>
      Bounds y.1 y'.1 ∧ Option.Rel Bounds y.2 y'.2 := by
    refine (paging.eat _).seq fun isComma => .branch (fun _ => ?_) fun _ => ?_
    · exact paging.bound.bind paging.bounds_total fun _ _ second => .pure ⟨second, .some first⟩
    refine (paging.eat _).seq fun isOffset => .branch (fun _ => ?_) fun _ => .pure ⟨first, .none⟩
    exact paging.bound.bind paging.bounds_total fun _ _ second => .pure ⟨first, .some second⟩
  refine bounds.bind (fun (y, z) => ?_) fun _ _ same => ?_
  · obtain ⟨y', first⟩ := paging.bounds_total y
    obtain ⟨z', second⟩ := paging.bound_total? z
    exact ⟨(y', z'), first, second⟩
  · refine .branch (fun isRecorded => ?_) fun _ => .pure rfl
    exact paging.paginates (fun _ => isRecorded ▸ records) (.some same.1) same.2

theorem offsetFetchEnd (records : Records r) {x x' y y' : Option PlacedBound} (offset : Option.Rel Bounds x x')
    (rowCount : Option.Rel Bounds y y') :
    C.Follows b (Walk.offsetFetchEnd r x y) (Walk.offsetFetchEnd r x' y') (fun _ => false) Eq := by
  rw [Walk.offsetFetchEnd, Walk.offsetFetchEnd, isNone_eq_of_rel offset, isNone_eq_of_rel rowCount]
  refine .perhaps (x := false) (fun _ => Abreast.failExpected) (.branch (fun isRecorded => ?_) fun _ => .pure rfl)
  exact paging.paginates (fun _ => isRecorded ▸ records) rowCount offset

theorem fetchEnd (records : Records r) {x x' : Option PlacedBound} (offset : Option.Rel Bounds x x') :
    C.Follows b (Walk.fetchEnd r x) (Walk.fetchEnd r x') (fun _ => false) Eq := by
  refine (paging.eat _).seq fun isFetch => .branch (fun _ => ?_) fun _ => paging.offsetFetchEnd records offset .none
  refine (paging.expectAny _ _).discard.seq fun _ => paging.bound.bind paging.bounds_total fun y y' rowCount => ?_
  refine (paging.expectAny _ _).discard.seq fun _ => (paging.expect _).discard.seq fun _ => ?_
  exact paging.offsetFetchEnd records offset (.some rowCount)

theorem offsetFetchClause (records : Records r) :
    C.Follows b (Walk.offsetFetchClause r) (Walk.offsetFetchClause r) (fun _ => false) Eq := by
  refine (paging.eat _).seq fun isOffset => .branch (fun _ => ?_) fun _ => paging.fetchEnd records .none
  refine paging.bound.bind paging.bounds_total fun x x' offset => ?_
  have fetches : C.Follows false (Walk.fetchEnd r (some x)) (Walk.fetchEnd r (some x')) (fun _ => false) Eq :=
    paging.fetchEnd records (.some offset)
  exact (paging.eatAny _).forget.discard.seq fun _ => fetches

theorem topGroup : C.Follows true Walk.topGroup Walk.topGroup (fun _ => true) (Option.Rel Bounds) := by
  refine paging.peek.bind (fun k => ⟨k, .same k⟩) fun k k' alike => ?_
  rw [alike.sameShape_eq]
  simp only [alike.symbol_iff]
  refine .branch (fun _ => ?_) fun _ => paging.skipParentheses.seq fun _ => .pure .none
  refine paging.advance.discard.seq fun _ => paging.bound.bind paging.bounds_total fun x x' same => ?_
  refine (paging.eat _).seq fun closed => .branch (fun _ => .pure (.some same)) fun _ => ?_
  exact (paging.closeParentheses 1 Walk.failExpected_fails).seq fun _ => .pure .none

end Company.Paging

namespace Company.WordPaging

variable {C : Company} {Records : Bool → Prop} {Bounds : PlacedBound → PlacedBound → Prop} {b : Bool}
  (paging : C.WordPaging Records Bounds)

include paging

/-- What follows the bound of a `TOP` clause. -/
theorem topEnd (r : Bool) {x x' : Option PlacedBound} (same : Option.Rel Bounds x x') :
    C.Follows true (Walk.topEnd r x) (Walk.topEnd r x') (fun _ => true) Eq := by
  refine paging.passesPercent.seq fun percent => paging.passesTies.seq fun _ => ?_
  refine .branch (fun _ => ?_) fun _ => .pure rfl
  cases same with
  | none => exact .pure rfl
  | some rowCount => exact paging.paginates nofun (.some rowCount) .none

theorem topClause (r : Bool) : C.Follows b (Walk.topClause r) (Walk.topClause r) (fun _ => true) Eq := by
  rw [Walk.topClause_eq]
  refine (paging.expect _).discard.seq fun _ => (paging.check _).seq fun isGroup => ?_
  refine .branch (fun _ => ?_) fun _ => ?_
  · exact paging.topGroup.bind paging.bound_total? fun x x' same => paging.topEnd r same
  · have single : C.Follows true (some <$> Walk.bound) (some <$> Walk.bound) (fun _ => true) (Option.Rel Bounds) :=
      paging.bound.map fun _ _ same => .some same
    exact single.bind paging.bound_total? fun x x' same => paging.topEnd r same

end Company.WordPaging

end SqlSharding.Sql
