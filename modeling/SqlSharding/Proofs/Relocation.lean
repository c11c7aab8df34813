import Mathlib.Logic.Function.Basic
import SqlSharding.Proofs.Clauses
import SqlSharding.Proofs.Edits
import SqlSharding.Proofs.Tiling
import SqlSharding.Proofs.Twins

/-!
# Moved tokens

No walk looks at the places of tokens, except to record them. So the walk over a text with the same tokens at other places ends
in the same way, and what it leaves behind is the statement with every place moved (`wholeStatement_moved`).
-/

namespace SqlSharding.Sql

/-! ## Moved statements -/

variable {f : Nat → Span}

/-- A name at another place. Where the token is that begins at an offset is told by the function. -/
def Identifier.move (f : Nat → Span) (x : Identifier) : Identifier := { x with span := f x.span.start }

def PlacedBound.move (f : Nat → Span) (b : PlacedBound) : PlacedBound := { b with span := f b.span.start }

def RewritePoint.move (f : Nat → Span) : RewritePoint → RewritePoint
  | table span name quote => .table (f span.start) name quote
  | offset span n => .offset (f span.start) n
  | rowCount span n => .rowCount (f span.start) n
  | generatedKey columnsEnd valuesEnd parameterIndex =>
    .generatedKey (f columnsEnd).start (f valuesEnd).start parameterIndex

/-- A statement with all its places moved. -/
def Statement.move (f : Nat → Span) (s : Statement) : Statement :=
  { s with points := s.points.map (·.move f), qualifiers := s.qualifiers.map (·.move f) }

theorem RewritePoint.position_move (q : RewritePoint) : (q.move f).position = (f q.position).start := by
  cases q <;> rfl

theorem Statement.addPoint_move (s : Statement) (q : RewritePoint) : (s.addPoint q).move f = (s.move f).addPoint (q.move f) := by
  simp only [addPoint, move, List.map_append, List.map_cons, List.map_nil]

theorem Statement.addQualifier_move (s : Statement) (x : Identifier) :
    (s.addQualifier x).move f = (s.move f).addQualifier (x.move f) := by
  simp only [addQualifier, move, List.map_append, List.map_cons, List.map_nil]

theorem Statement.addTable_move (s : Statement) (x : Identifier) (aliasName : Option String) :
    (s.addTable x aliasName).move f = (s.move f).addTable (x.move f) aliasName := by
  simp only [addTable, move, List.map_append, List.map_cons, List.map_nil]
  rfl

theorem Walk.addTarget_move (s : Statement) (x : Identifier) : (addTarget s x).move f = addTarget (s.move f) (x.move f) := by
  have same : addTarget (s.move f) (x.move f) = if (s.tables.resolveOwner? x.name).isNone || s.tables.containsName x.name then
      (s.move f).addTable (x.move f) none else s.move f := rfl
  rw [same, addTarget]
  split
  · exact Statement.addTable_move s x none
  · rfl

theorem Walk.addTargets_move (targets : List Identifier) (s : Statement) :
    (targets.foldl addTarget s).move f = (targets.map (·.move f)).foldl addTarget (s.move f) := by
  induction targets generalizing s with
  | nil => rfl
  | cons x targets ih => rw [List.foldl_cons, ih, addTarget_move, List.map_cons, List.foldl_cons]

theorem boundPoints_move {point : Span → Int64 → RewritePoint}
    (moves : ∀ span n, (point span n).move f = point (f span.start) n) (b : Option PlacedBound) :
    (boundPoints point b).map (·.move f) = boundPoints point (b.map (·.move f)) := by
  match b with
  | some ⟨.literal n, span⟩ => exact congrArg (fun q => [q]) (moves span n)
  | some ⟨.placeholder _, _⟩ | none => rfl

theorem Statement.paginate_move (rowCount offset : Option PlacedBound) (rewritable : Bool) (s : Statement) :
    (s.paginate rowCount offset rewritable).move f =
      (s.move f).paginate (rowCount.map (·.move f)) (offset.map (·.move f)) rewritable := by
  have bound (b : Option PlacedBound) : (b.map (·.move f)).map (·.bound) = b.map (·.bound) := by cases b <;> rfl
  rw [paginate_eq, paginate_eq, bound, bound, ← boundPoints_move fun _ _ => rfl, ← boundPoints_move fun _ _ => rfl]
  simp only [move, List.map_append]
  rfl

/-! ## Moved tokens -/

/-- The token at its new place. -/
structure Token.Moves (f : Nat → Span) (t t' : Token) : Prop where
  kind : t'.kind = t.kind
  span : t'.span = f t.span.start

theorem Token.Moves.ofToken {t t' : Token} (moves : t.Moves f t') : Identifier.ofToken t' = (Identifier.ofToken t).move f := by
  obtain ⟨kind, span⟩ := moves
  rw [Identifier.ofToken, Identifier.ofToken, kind, span]
  cases t.kind <;> rfl

theorem eq_map_of_rel {α : Type} {g : α → α} {x x' : Option α} (same : Option.Rel (fun a a' => a' = g a) x x') :
    x' = x.map g := by
  cases same with
  | some same => rw [same, Option.map_some]
  | none => rfl

theorem eq_map_of_forall₂ {α : Type} {g : α → α} {xs xs' : List α} (same : List.Forall₂ (fun a a' => a' = g a) xs xs') :
    xs' = xs.map g := by
  induction same with
  | nil => rfl
  | cons first _ ih => rw [first, ih, List.map_cons]

/-- The company of a walk over moved tokens: what it reads is the same, and what it records is moved. -/
def Company.moving (f : Nat → Span) (d : Dialect) (p p' : Place) (ts : List Token) : Company :=
  sideBySide (Token.Moves f) d p p' ts (fun s s' => s' = s.move f) Eq Eq Eq

namespace Company

section Moving

variable {d : Dialect} {p p' : Place} {ts : List Token} {b : Bool}

/-- Recording what is the moved thing. -/
theorem moving_record {g g' : Statement → Statement} {after : Unit → Bool} (moves : ∀ s, g' (s.move f) = (g s).move f) :
    (moving f d p p' ts).Follows b (Walk.record g) (Walk.record g') after Eq :=
  sideBySide_record fun s s' moved => by rw [moved, moves]

variable (ends : (Token.endAt p).Moves f (Token.endAt p')) (proper : Proper ts)

include ends

theorem moving_corresponding : Corresponding (Token.Moves f) p p' where
  alike moves := moves.kind ▸ .same _
  ends := ends

/-! ### Looking at tokens -/

theorem moving_kind : (moving f d p p' ts).Follows b Walk.kind Walk.kind (fun _ => b) Eq :=
  .look (by rintro s a t ⟨⟩; rfl) fun s s' a pair run => by
    cases run
    exact ⟨_, rfl, ((moving_corresponding ends).current pair.1).kind.symm⟩

include proper

theorem moving_abreast : (moving f d p p' ts).Abreast := sideBySide_abreast (moving_corresponding ends) proper

theorem moving_peek : (moving f d p p' ts).Follows b Walk.peek Walk.peek (fun _ => b) Eq :=
  .look (fun s k t run => (Walk.peek_eq_ok_iff.mp run).2) fun s s' k pair run => by
    obtain ⟨ahead, -⟩ := Walk.peek_eq_ok_iff.mp run
    obtain ⟨t, t', ahead', rfl, moves⟩ := (moving_corresponding ends).peek proper pair.1 ahead
    exact ⟨_, Walk.peek_eq_ok_iff.mpr ⟨ahead', rfl⟩, moves.kind.symm⟩

theorem moving_inStep : (moving f d p p' ts).InStep where
  toAbreast := moving_abreast ends proper
  seesLock := (moving_kind ends).seq fun _ => .branch (fun _ => (moving_peek ends proper).seq fun _ => .pure rfl) fun _ => .pure rfl

/-! ### Names -/

theorem moving_names : (moving f d p p' ts).Names fun x x' => x' = x.move f where
  toAbreast := moving_abreast ends proper
  names_total x := ⟨x.move f, rfl⟩
  identifier := sideBySide_identifier (moving_corresponding ends) proper fun moves _ => moves.ofToken

theorem moving_column : (moving f d p p' ts).Follows b Walk.column Walk.column (fun _ => true) (Option.Rel Eq) := by
  have column : (moving f d p p' ts).Follows b Walk.column Walk.column (fun _ => false) (Option.Rel Eq) := by
    refine (moving_names ends proper).column (fun {x x'} same => ?_) ?_ ?_
    · exact moving_record fun s => by rw [same, Statement.addQualifier_move]
    · rintro x _ rfl
      rfl
    · rintro x _ y _ rfl rfl
      rfl
  exact sideBySide_flags column

theorem moving_alias? : (moving f d p p' ts).Follows b Walk.alias? Walk.alias? (fun _ => false) Eq :=
  (moving_inStep ends proper).alias? <| sideBySide_identifier (moving_corresponding ends) proper fun moves _ => by
    rw [moves.ofToken]
    rfl

/-- A table is recorded with its alias. -/
theorem moving_tableThen {m : Walk (Option String)} (aliases : (moving f d p p' ts).Follows true m m (fun _ => false) Eq) :
    (moving f d p p' ts).Follows b (Walk.tableThen m) (Walk.tableThen m) (fun _ => false) Eq := by
  refine (moving_names ends proper).qualifiedName.bind (fun x => ⟨x.move f, rfl⟩) fun x x' same => ?_
  refine aliases.seq fun aliasName => moving_record fun s => ?_
  rw [same, Statement.addTable_move]

/-! ### Values and bounds -/

theorem moving_value? : (moving f d p p' ts).Follows b Walk.value? Walk.value? (fun _ => false) (Option.Rel Eq) := by
  have abreast : (moving f d p p' ts).Abreast := moving_abreast ends proper
  have passed {b : Bool} (v : Operand) : (moving f d p p' ts).Follows b (do discard Walk.advance; return some v)
      (do discard Walk.advance; return some v) (fun _ => false) (Option.Rel Eq) :=
    abreast.advance.discard.seq fun _ => .pure (.some rfl)
  refine (moving_kind ends).seq fun k => ?_
  cases k with
  | integer | float | string => exact passed _
  | symbol s =>
    cases s with
    | question =>
      have index : (moving f d p p' ts).Follows b Walk.parameterIndex Walk.parameterIndex (fun _ => b) Eq :=
        .look (by rintro s a t ⟨⟩; rfl) fun s s' a pair run => by
          cases run
          exact ⟨_, rfl, (abreast.alike pair).parameterIndex⟩
      exact index.seq fun _ => passed _
    | minus =>
      refine abreast.advance.discard.seq fun _ => (moving_kind ends).seq fun k => ?_
      cases Walk.negated? k with
      | none => exact .pure .none
      | some v => exact passed _
    | _ => exact .pure .none
  | _ => exact .pure .none

theorem moving_bound : (moving f d p p' ts).Follows b Walk.bound Walk.bound (fun _ => true) fun x x' => x' = x.move f := by
  have abreast : (moving f d p p' ts).Abreast := moving_abreast ends proper
  have here : (moving f d p p' ts).Follows b Walk.cursor Walk.cursor (fun _ => b) fun c c' =>
      c.current.Moves f c'.current ∧ c'.parameterIndex = c.parameterIndex :=
    .look (by rintro s a t ⟨⟩; rfl) fun s s' a pair run => by
      cases run
      exact ⟨_, rfl, (moving_corresponding ends).current pair.1, (abreast.alike pair).parameterIndex.symm⟩
  have passed {b : Bool} {x x' : PlacedBound} (moved : x' = x.move f) :
      (moving f d p p' ts).Follows b (do discard Walk.advance; return x) (do discard Walk.advance; return x')
        (fun _ => true) fun x x' => x' = x.move f :=
    abreast.advance.discard.seq fun _ => .pure moved
  refine here.bind (fun c => ⟨{ c with current := { c.current with span := f c.current.span.start } }, ⟨rfl, rfl⟩, rfl⟩) ?_
  rintro c c' ⟨moves, index⟩
  have same : c'.kind = c.kind := moves.kind
  rw [same]
  cases c.kind with
  | integer n =>
    refine .branch (fun _ => passed ?_) fun _ => Abreast.failExpected
    rw [moves.span]
    rfl
  | symbol s =>
    cases s with
    | question =>
      refine passed ?_
      rw [moves.span, index]
      rfl
    | _ => exact Abreast.failExpected
  | _ => exact Abreast.failExpected

theorem moving_passWord (word : String) :
    (moving f d p p' ts).Follows b (Walk.passWord word) (Walk.passWord word) (fun _ => b) Eq := by
  have abreast : (moving f d p p' ts).Abreast := moving_abreast ends proper
  have passed : (moving f d p p' ts).Follows false (Walk.passWord word) (Walk.passWord word) (fun _ => false) Eq :=
    (moving_kind ends).seq fun k => .perhaps (fun _ => abreast.advance.forget.discard) (.pure rfl)
  exact sideBySide_flags passed

theorem moving_passTies : (moving f d p p' ts).Follows b Walk.passTies Walk.passTies (fun _ => b) Eq := by
  have abreast : (moving f d p p' ts).Abreast := moving_abreast ends proper
  have passed : (moving f d p p' ts).Follows false Walk.passTies Walk.passTies (fun _ => false) Eq := by
    refine (abreast.check _).seq fun isWith => .branch (fun _ => ?_) fun _ => .pure rfl
    refine (moving_peek ends proper).seq fun k => .branch (fun _ => ?_) fun _ => .pure rfl
    exact abreast.advance.discard.seq fun _ => abreast.advance.forget.discard
  exact sideBySide_flags passed

theorem moving_paging : (moving f d p p' ts).WordPaging (fun _ => True) fun x x' => x' = x.move f where
  toAbreast := moving_abreast ends proper
  bounds_total x := ⟨x.move f, rfl⟩
  bound := moving_bound ends proper
  paginates _ rowCount offset := moving_record fun s => by
    rw [eq_map_of_rel rowCount, eq_map_of_rel offset, Statement.paginate_move]
  passesPercent := moving_passWord ends proper _
  passesTies := moving_passTies ends proper

/-! ### Statements -/

theorem moving_steady : (moving f d p p' ts).Steady fun _ => True where
  toInStep := moving_inStep ends proper
  columns_total x := ⟨x, rfl⟩
  operands_total x := ⟨x, rfl⟩
  conditions_total x := ⟨x, rfl⟩
  lost_conditions _ := False.elim
  conditions pair := by
    rw [pair.2]
    rfl
  setConditions := by
    rintro s s' cs _ ⟨parallel, moved⟩ rfl
    refine ⟨parallel, ?_⟩
    rw [moved]
    rfl
  addCondition := by
    rintro cs _ x x' rfl same
    have values : x.values = x'.values := List.forall₂_eq_eq_eq ▸ same.values
    have equal : x = x' := by
      obtain ⟨column, operator, _⟩ := x
      obtain ⟨rfl, rfl, -⟩ := same
      exact congrArg _ values
    exact congrArg cs.add equal
  markUnusable same := congrArg _ same
  readsColumn := moving_column ends proper
  readsValue := moving_value? ends proper
  readsTable := moving_tableThen ends proper (moving_alias? ends proper)
  records_false := trivial
  readsLimit _ _ := (moving_paging ends proper).limitClause trivial
  readsOffsetFetch _ _ := (moving_paging ends proper).offsetFetchClause trivial
  readsTop r := (moving_paging ends proper).topClause r

theorem moving_targetsEnd : (moving f d p p' ts).Follows b Walk.targetsEnd Walk.targetsEnd (fun _ => false) Eq := by
  have steady : (moving f d p p' ts).Steady fun _ => True := moving_steady ends proper
  have names : (moving f d p p' ts).Names fun x x' => x' = x.move f := moving_names ends proper
  have tables : (moving f d p p' ts).Follows false Walk.tablesAfter Walk.tablesAfter (fun _ => false) Eq :=
    sideBySide_flags steady.tablesAfter
  rw [Walk.targetsEnd_eq]
  refine names.deleteTargets.bind names.total fun targets targets' same => tables.seq fun _ => moving_record fun s => ?_
  rw [eq_map_of_forall₂ same, Walk.addTargets_move]

theorem moving_settled : (moving f d p p' ts).Settled fun _ => True where
  toSteady := moving_steady ends proper
  readsName := by
    rw [Walk.discard_tableName]
    exact moving_tableThen ends proper (.pure rfl)
  recordColumn same := moving_record fun s => by
    rw [same]
    rfl
  countRow := moving_record fun _ => rfl
  singleRow := moving_record fun _ => rfl
  insertRows pair := by
    rw [pair.2]
    rfl
  recordRow {values values'} same := moving_record fun s => by
    have equal : values = values' := by
      refine List.forall₂_eq_eq_eq ▸ same.imp fun v v' both => ?_
      cases both with
      | some equal => exact congrArg some equal
      | none => rfl
    rw [equal, Statement.foldl_addCondition, Statement.foldl_addCondition]
    rfl
  readsTargets := moving_targetsEnd ends proper

omit proper in
theorem moving_keyPoints : (moving f d p p' ts).KeyPoints fun n n' => n' = (f n).start where
  total n := ⟨(f n).start, rfl⟩
  here pair := congrArg Span.start ((moving_corresponding ends).current pair.1).span
  records n columnsEnd valuesEnd := moving_record fun s => by
    rw [columnsEnd, valuesEnd, Statement.addPoint_move]
    rfl

end Moving

end Company

/-- The walk over moved tokens ends with the moved statement. -/
theorem wholeStatement_moved {d : Dialect} {p p' : Place} {ts ts' : List Token} (ends : (Token.endAt p).Moves f (Token.endAt p'))
    (proper : Proper ts) (moves : List.Forall₂ (Token.Moves f) ts ts') {kind : StatementKind} {n : Nat} {s : Statement}
    (run : Walk.wholeStatement kind ⟨.along d p 0 ts, .ofKind kind⟩ = .ok () ⟨.along d p n [], s⟩) :
    Walk.wholeStatement kind ⟨.along d p' 0 ts', .ofKind kind⟩ = .ok () ⟨.along d p' n [], s.move f⟩ := by
  have settled : (Company.moving f d p p' ts).Settled fun _ => True := Company.moving_settled ends proper
  have start : (Company.moving f d p p' ts).Beside ⟨.along d p 0 ts, .ofKind kind⟩ ⟨.along d p' 0 ts', .ofKind kind⟩ :=
    ⟨⟨0, ts, ts', List.suffix_refl ts, rfl, rfl, moves⟩, rfl⟩
  have keys : (Company.moving f d p p' ts).KeyPoints fun n n' => n' = (f n).start := Company.moving_keyPoints ends
  obtain lost | ⟨_, ⟨_, _⟩, run', -, ⟨m, rest, rest', suffix, same, rfl, left⟩, rfl⟩ :=
    (settled.wholeStatement (b := false) keys trivial kind _ _ _ run).2 _ start
  · exact lost.elim
  have properRest : Proper rest := fun t member => proper t (suffix.subset member)
  have ended : Proper [] := fun t member => nomatch member
  have same : Cursor.along d p n [] = .along d p m rest := same
  obtain rfl := Cursor.along_injective ended properRest same
  cases left
  have counted : n = m := by simpa using congrArg Cursor.parameterIndex same
  rwa [counted]

/-! ## Where tokens are moved to -/

/-- Tokens of which no two begin at the same place are moved to those of the same kinds in another text. -/
theorem exists_moves {us us' : List Token} (kinds : us'.map (·.kind) = us.map (·.kind))
    (apart : us.Pairwise fun t u => t.span.start ≠ u.span.start) : ∃ f, List.Forall₂ (Token.Moves f) us us' := by
  induction us generalizing us' with
  | nil =>
    rw [List.map_eq_nil_iff.mp kinds]
    exact ⟨fun _ => default, .nil⟩
  | cons t us ih =>
    obtain ⟨t', us', rfl, kind, kinds⟩ := List.map_eq_cons_iff.mp kinds
    obtain ⟨others, apart⟩ := List.pairwise_cons.mp apart
    obtain ⟨f, moves⟩ := ih kinds apart
    refine ⟨Function.update f t.span.start t'.span, .cons ⟨kind, (Function.update_self t.span.start t'.span f).symm⟩ ?_⟩
    refine List.forall₂_iff_zip.mpr ⟨moves.length_eq, fun {u u'} pair => ?_⟩
    have moved : u.Moves f u' := List.forall₂_zip moves pair
    refine ⟨moved.kind, moved.span.trans ?_⟩
    rw [Function.update_of_ne (others u (List.of_mem_zip pair).1).symm]

/-- Every token is moved to one of the other text. -/
theorem exists_moved {ts ts' : List Token} (moves : List.Forall₂ (Token.Moves f) ts ts') {t : Token} (member : t ∈ ts) :
    ∃ t', (t, t') ∈ ts.zip ts' ∧ t'.span = f t.span.start := by
  induction moves with
  | nil => cases member
  | @cons u u' ts ts' moved _ ih =>
    rcases List.mem_cons.mp member with rfl | later
    · exact ⟨u', List.mem_cons_self, moved.span⟩
    · obtain ⟨t', pair, spot⟩ := ih later
      exact ⟨t', List.mem_cons_of_mem _ pair, spot⟩

theorem spans_of_moves {ts ts' : List Token} (moves : List.Forall₂ (Token.Moves f) ts ts') :
    ts'.map (·.span) = ts.map fun t => f t.span.start := by
  induction moves with
  | nil => rfl
  | cons moved _ ih => rw [List.map_cons, List.map_cons, moved.span, ih]

theorem Spaced.ordered {ts : List Token} (spaced : Spaced ts) : ts.Pairwise fun t u => t.span.start < u.span.start :=
  spaced.apart.imp_of_mem fun {t _} member _ before => Nat.lt_of_lt_of_le (spaced.nonempty t member) before

/-- The tokens of both texts stand in the same order. -/
theorem order_of_moves {ts ts' : List Token} (spaced : Spaced ts) (spaced' : Spaced ts')
    (moves : List.Forall₂ (Token.Moves f) ts ts') {t u : Token} (first : t ∈ ts) (second : u ∈ ts) :
    (f t.span.start).start ≤ (f u.span.start).start ↔ t.span.start ≤ u.span.start := by
  have ordered' : ts.Pairwise fun t u => (f t.span.start).start < (f u.span.start).start := by
    have spans : (ts'.map (·.span)).Pairwise fun s s' => s.start < s'.start := List.pairwise_map.mpr spaced'.ordered
    rwa [spans_of_moves moves, List.pairwise_map] at spans
  have both := spaced.ordered.and ordered'
  have ahead : ts.Pairwise fun t u => (f t.span.start).start ≤ (f u.span.start).start ↔ t.span.start ≤ u.span.start :=
    both.imp fun lt => by omega
  have behind : ts.Pairwise fun t u => (f u.span.start).start ≤ (f t.span.start).start ↔ u.span.start ≤ t.span.start :=
    both.imp fun lt => by omega
  exact ahead.forall_of_forall_of_flip (fun _ _ => by simp) behind first second

/-! ## Complete statements -/

theorem RewritePoint.StandsIn.exists_token {ts : List Token} {q : RewritePoint} (stands : q.StandsIn ts) :
    ∃ t ∈ ts, q.position = t.span.start := by
  rcases stands with ⟨t, member, placed⟩ | placed
  · exact ⟨t, member, placed.position_eq⟩
  · obtain ⟨before, t, between, u, after, i, rfl, -, -, rfl⟩ := parentheses_of_keyAt placed
    exact ⟨t, by simp, rfl⟩

namespace Statement

theorem dropRepeated_map {α β : Type} [DecidableEq α] [DecidableEq β] {g : α → β} {xs : List α}
    (injective : ∀ x ∈ xs, ∀ y ∈ xs, g x = g y → x = y) : dropRepeated (xs.map g) = (dropRepeated xs).map g := by
  fun_induction dropRepeated xs with
  | case1 | case2 => rfl
  | case3 y rest ih =>
    rw [List.map_cons, List.map_cons, dropRepeated, if_pos rfl, ← List.map_cons, ih]
    exact fun x first y second => injective x (List.mem_cons_of_mem _ first) y (List.mem_cons_of_mem _ second)
  | case4 x y rest different ih =>
    have apart : g x ≠ g y := fun same => different (injective x List.mem_cons_self y (by simp) same)
    rw [List.map_cons, List.map_cons, dropRepeated, if_neg apart, ← List.map_cons, ih, List.map_cons]
    exact fun x first y second => injective x (List.mem_cons_of_mem _ first) y (List.mem_cons_of_mem _ second)

/-- Points that are moved in their order are sorted before or afterwards. -/
theorem sortPoints_map {g : RewritePoint → RewritePoint} {points : List RewritePoint}
    (order : ∀ q ∈ points, ∀ r ∈ points, (g q).position ≤ (g r).position ↔ q.position ≤ r.position)
    (injective : ∀ q ∈ points, ∀ r ∈ points, g q = g r → q = r) : sortPoints (points.map g) = (sortPoints points).map g := by
  have sorted : (points.map g).mergeSort (fun q r => q.position ≤ r.position) =
      (points.mergeSort fun q r => q.position ≤ r.position).map g :=
    (List.map_mergeSort fun q first r second => decide_eq_decide.mpr (order q first r second).symm).symm
  rw [sortPoints, sorted, dropRepeated_map]
  · rfl
  · exact fun q first r second => injective q (List.mem_mergeSort.mp first) r (List.mem_mergeSort.mp second)

/-- The qualifiers that name tables and are no aliases. -/
def owners (s : Statement) : List Identifier :=
  s.qualifiers.filter fun x => !s.tables.containsAlias x.name && s.tables.containsName x.name

/-- The places that are sorted when a statement is completed. -/
def recordedPoints (s : Statement) : List RewritePoint := s.points ++ s.owners.map .ofTable

theorem finish_eq (s : Statement) (n : Nat) : s.finish n =
    { s with
      parameterCount := n
      qualifiers := []
      conditions := s.conditions.resolveOwners s.tables
      points := sortPoints s.recordedPoints } := rfl

theorem owners_move (s : Statement) : (s.move f).owners = s.owners.map (·.move f) :=
  List.filter_map

theorem recordedPoints_move (s : Statement) : (s.move f).recordedPoints = s.recordedPoints.map (·.move f) := by
  rw [recordedPoints, recordedPoints, owners_move, List.map_append, List.map_map, List.map_map]
  rfl

/-- Completing a statement and moving its places can be exchanged. -/
theorem finish_move {ts : List Token} {s : Statement} {n : Nat} (sited : Sited ts (s.finish n).points)
    (order : ∀ t ∈ ts, ∀ u ∈ ts, (f t.span.start).start ≤ (f u.span.start).start ↔ t.span.start ≤ u.span.start) :
    (s.move f).finish n = (s.finish n).move f := by
  have position {q : RewritePoint} (member : q ∈ s.recordedPoints) : ∃ t ∈ ts, q.position = t.span.start :=
    (sited.stands q (mem_sortPoints.mpr member)).exists_token
  have inOrder : ∀ q ∈ s.recordedPoints, ∀ r ∈ s.recordedPoints,
      (q.move f).position ≤ (r.move f).position ↔ q.position ≤ r.position := by
    intro q first r second
    obtain ⟨t, inText, here⟩ := position first
    obtain ⟨u, inText', here'⟩ := position second
    rw [RewritePoint.position_move, RewritePoint.position_move, here, here']
    exact order t inText u inText'
  have injective : ∀ q ∈ s.recordedPoints, ∀ r ∈ s.recordedPoints, q.move f = r.move f → q = r := by
    intro q first r second same
    have le := (inOrder q first r second).mp (Nat.le_of_eq (congrArg _ same))
    have ge := (inOrder r second q first).mp (Nat.le_of_eq (congrArg _ same.symm))
    exact sited.eq_of_position (mem_sortPoints.mpr first) (mem_sortPoints.mpr second) (Nat.le_antisymm le ge)
  have points : sortPoints (s.move f).recordedPoints = (sortPoints s.recordedPoints).map (·.move f) := by
    rw [recordedPoints_move, sortPoints_map inOrder injective]
  rw [finish_eq, finish_eq, points]
  rfl

end Statement

/-! ## Corresponding places -/

/-- Places of two texts at tokens that correspond to each other. -/
inductive RewritePoint.Moved (ts ts' : List Token) : RewritePoint → RewritePoint → Prop
  | table {t t' : Token} (twins : (t, t') ∈ ts.zip ts') (name : String) (quote : Option QuoteStyle) :
    Moved ts ts' (.table t.span name quote) (.table t'.span name quote)
  | offset {t t' : Token} (twins : (t, t') ∈ ts.zip ts') (n : Int64) : Moved ts ts' (.offset t.span n) (.offset t'.span n)
  | rowCount {t t' : Token} (twins : (t, t') ∈ ts.zip ts') (n : Int64) : Moved ts ts' (.rowCount t.span n) (.rowCount t'.span n)
  | generatedKey {t t' u u' : Token} (columns : (t, t') ∈ ts.zip ts') (values : (u, u') ∈ ts.zip ts') (parameterIndex : Nat) :
    Moved ts ts' (.generatedKey t.span.start u.span.start parameterIndex)
      (.generatedKey t'.span.start u'.span.start parameterIndex)

/-- A place that stands for tokens is moved to the same place of the other text. -/
theorem RewritePoint.StandsIn.moved {ts ts' : List Token} {q : RewritePoint} (stands : q.StandsIn ts)
    (moves : List.Forall₂ (Token.Moves f) ts ts') : q.Moved ts ts' (q.move f) := by
  rcases stands with ⟨t, member, placed⟩ | placed
  · obtain ⟨t', twins, spot⟩ := exists_moved moves member
    cases q with
    | table span name quote =>
      obtain rfl : t.span = span := placed.1
      rw [move, ← spot]
      exact .table twins name quote
    | offset span n =>
      obtain rfl : t.span = span := placed.1
      rw [move, ← spot]
      exact .offset twins n
    | rowCount span n =>
      obtain rfl : t.span = span := placed.1
      rw [move, ← spot]
      exact .rowCount twins n
    | generatedKey => cases placed
  · obtain ⟨before, t, between, u, after, i, rfl, -, -, rfl⟩ := parentheses_of_keyAt placed
    obtain ⟨t', columns, spot⟩ := exists_moved (t := t) moves (by simp)
    obtain ⟨u', values, spot'⟩ := exists_moved (t := u) moves (by simp)
    rw [move, ← spot, ← spot']
    exact .generatedKey columns values i

/-! ## Texts with the same tokens -/

variable {d : Dialect} {sql sql' : String} {e e' : Place} {ts ts' : List Token}

/-- The tokens of a text with its end are moved to those of the same kinds. -/
theorem Reads.exists_moves (reads : Reads d .start sql.toList ts e) (kinds : ts'.map (·.kind) = ts.map (·.kind)) (e' : Place) :
    ∃ f, (Token.endAt e).Moves f (Token.endAt e') ∧ List.Forall₂ (Token.Moves f) ts ts' := by
  have tiled := tiled_of_tokenize (tokenize_of_reads reads)
  obtain ⟨inText, -, atEnd⟩ := List.pairwise_append.mp tiled.apart
  have apart : (Token.endAt e :: ts).Pairwise fun t u => t.span.start ≠ u.span.start := by
    refine .cons (fun t member => ?_) (inText.imp fun before => ?_)
    · have := atEnd t member _ List.mem_cons_self
      omega
    · omega
  have same : (Token.endAt e' :: ts').map (·.kind) = (Token.endAt e :: ts).map (·.kind) := by
    rw [List.map_cons, List.map_cons, kinds]
    rfl
  obtain ⟨f, moves⟩ := Sql.exists_moves same apart
  exact ⟨f, List.forall₂_cons.mp moves⟩

/-- A text with the tokens of a statement is the same statement, with its places at the corresponding tokens. -/
theorem parse_of_kinds {stmt : Statement} (parsed : parse d sql = .ok stmt) (reads : Reads d .start sql.toList ts e)
    (reads' : Reads d .start sql'.toList ts' e') (kinds : ts'.map (·.kind) = ts.map (·.kind)) :
    ∃ stmt', parse d sql' = .ok stmt' ∧ stmt' = { stmt with points := stmt'.points } ∧
      List.Forall₂ (RewritePoint.Moved ts ts') stmt.points stmt'.points := by
  obtain ⟨f, ends, moves⟩ := reads.exists_moves kinds e'
  obtain ⟨p, us, again, sited⟩ := sited_of_parse parsed
  obtain rfl : ts = us := reads.eq_of_tokenize (tokenize_of_reads again)
  obtain ⟨kind, q, us, n, s, again', first, run, rfl⟩ := parse_eq_ok_iff.mp parsed
  obtain rfl : ts = us := reads.eq_of_tokenize (tokenize_of_reads again')
  obtain rfl : e = q := reads.end_eq_of_tokenize (tokenize_of_reads again')
  have first' : StatementKind.ofFirst? (Cursor.along d e' 0 ts').kind = some kind := by
    have parallel : Cursor.Parallel (Token.Moves f) d e e' ts (.along d e 0 ts) (.along d e' 0 ts') :=
      ⟨0, ts, ts', List.suffix_refl ts, rfl, rfl, moves⟩
    have moved := (Company.moving_corresponding ends).current parallel
    rw [← first]
    exact congrArg _ moved.kind
  have finished : (s.move f).finish n = (s.finish n).move f :=
    Statement.finish_move sited fun t inText u inText' =>
      order_of_moves (laid_of_reads reads).spaced (laid_of_reads reads').spaced moves inText inText'
  refine ⟨(s.finish n).move f, ?_, rfl, ?_⟩
  · rw [← finished]
    exact parse_eq_ok_iff.mpr ⟨kind, e', ts', n, s.move f, reads', first', wholeStatement_moved ends reads.proper moves run, rfl⟩
  · show List.Forall₂ _ _ ((s.finish n).points.map (·.move f))
    rw [List.forall₂_map_right_iff, List.forall₂_same]
    exact fun q member => (sited.stands q member).moved moves

end SqlSharding.Sql
