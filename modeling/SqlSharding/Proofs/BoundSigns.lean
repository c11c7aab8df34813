import SqlSharding.Proofs.Bounds
import SqlSharding.Proofs.Rereading
import SqlSharding.Proofs.Widening

/-!
# Signs of bounds

A literal bound is read as an integer without a sign, but a placeholder takes whatever whole number its parameter stands
for. So the pagination of a route is negative exactly where a parameter makes it so (`nonneg_iff_of_route`), and only then.
Bounds that are not negative stay so in the units. A negative offset is not an error: several units get a zero in
its place.
-/

namespace SqlSharding.Sql

variable {d : Dialect} {sql : String} {s : Statement} {limit : Limit} {i : Int64}

/-! ## Literal bounds -/

/-- The integers at the points of a statement have no sign. -/
theorem nonneg_of_mem_points (parsed : parse d sql = .ok s) {span : Span}
    (member : .offset span i ∈ s.points ∨ .rowCount span i ∈ s.points) : 0 ≤ i := by
  obtain ⟨e, ts, reads, sited⟩ := sited_of_parse parsed
  have token : ∃ t ∈ ts, t.kind = .integer i := by
    rcases member with isOffset | isRowCount
    · obtain ⟨t, inText, -, isInteger⟩ := (sited.stands _ isOffset).token rfl
      exact ⟨t, inText, isInteger⟩
    · obtain ⟨t, inText, -, isInteger⟩ := (sited.stands _ isRowCount).token rfl
      exact ⟨t, inText, isInteger⟩
  obtain ⟨t, inText, isInteger⟩ := token
  obtain ⟨source, r, spells⟩ := (written_of_reads reads).spells inText
  rw [isInteger] at spells
  exact spells.nonneg

/-- The literal bounds of a pagination are among the points of its statement. -/
theorem mem_points_of_limit (parsed : parse d sql = .ok s) (isLimit : s.limit = some limit) :
    (limit.offset = some (.literal i) → ∃ span, .offset span i ∈ s.points) ∧
      (limit.rowCount = some (.literal i) → ∃ span, .rowCount span i ∈ s.points) := by
  obtain ⟨e, ts, reads, -⟩ := sited_of_parse parsed
  obtain ⟨kind, pages, paged, recorded, -⟩ := bounds_of_parse parsed (tokenize_of_reads reads)
  cases last : pages.getLast? with
  | none =>
    rw [last] at paged
    cases isLimit.symm.trans paged
  | some g =>
    rw [last] at paged
    obtain ⟨rewritable, same⟩ := paged
    cases isLimit.symm.trans same
    have inPages : g ∈ pages := List.mem_of_getLast? last
    have placed {b : Option PlacedBound} (isBound : b.map (·.bound) = some (.literal i)) : ∃ span, b = some ⟨.literal i, span⟩ := by
      obtain ⟨⟨_, span⟩, rfl, rfl⟩ := Option.map_eq_some_iff.mp isBound
      exact ⟨span, rfl⟩
    refine ⟨fun isOffset => ?_, fun isRowCount => ?_⟩
    · obtain ⟨span, here⟩ := placed isOffset
      exact ⟨span, (recorded _ rfl).mpr ⟨g, inPages, Page.offset_mem_points.mpr here⟩⟩
    · obtain ⟨span, here⟩ := placed isRowCount
      exact ⟨span, (recorded _ rfl).mpr ⟨g, inPages, Page.rowCount_mem_points.mpr here⟩⟩

/-- The number of a bound under the parameters is not negative, if it has one. -/
def Bound.IsNonneg (parameters : List Value) : Bound → Prop
  | literal n => 0 ≤ n
  | placeholder index => ∀ v ∈ parameters[index]?, ∀ n ∈ v.toShardingInteger?, 0 ≤ n

theorem Bound.nonneg_iff {parameters : List Value} {b : Bound} {n : Int64} (resolved : b.resolve parameters = .ok n) :
    0 ≤ n ↔ b.IsNonneg parameters := by
  cases b with
  | literal m =>
    cases resolved
    exact Iff.rfl
  | placeholder index =>
    rw [resolve] at resolved
    cases found : parameters[index]? with
    | none =>
      rw [found] at resolved
      cases resolved
    | some v =>
      rw [found] at resolved
      dsimp only at resolved
      cases number : v.toShardingInteger? with
      | none =>
        rw [number] at resolved
        cases resolved
      | some m =>
        rw [number] at resolved
        cases resolved
        simp [IsNonneg, found, number]

/-- Only the pagination of a query may be widened. -/
theorem Walk.limitOfQuery_kept :
    KeptByRecords (fun s => ∀ l ∈ s.statement.limit, l.rewritable = true → s.statement.kind = .select) fun _ => True where
  records_false := trivial
  advance s _ u run holds := by
    obtain ⟨next, -, -, rfl⟩ := advance_eq_ok_iff.mp run
    exact holds
  conditions _ _ := id
  rows _ _ _ := id
  qualifier _ _ := id
  table _ _ _ := id
  paginate s rowCount offset rewritable _ _ l isLimit isRewritable := by
    rw [Statement.paginate_eq] at isLimit ⊢
    obtain rfl := Option.some.inj isLimit
    exact of_decide_eq_true (Bool.and_eq_true_iff.mp isRewritable).2

theorem isQuery_of_rewritable (parsed : parse d sql = .ok s) (isLimit : s.limit = some limit)
    (rewritable : limit.rewritable = true) : s.kind = .select := by
  obtain ⟨kind, p, ts, n, t, -, -, run, rfl⟩ := parse_eq_ok_iff.mp parsed
  have holds := (Walk.limitOfQuery_kept.settled.wholeStatement (b := false)
    (Company.keeping_keyPoints fun _ _ _ => .records fun _ => id) trivial kind).keeps _ _ _ run nofun
  exact holds limit isLimit rewritable

end SqlSharding.Sql

namespace SqlSharding.Routing

open Sql (Statement RewritePoint Token Bound Dialect Place)
open Rewrite (Target)

variable {d : Dialect} {r : Rule} {s : Statement} {sql : String} {parameters : List Value} {key : Value} {result : RouteResult}
  {p : Pagination} {limit : Sql.Limit} {w : WidenedBounds} {ts : List Token} {e : Place}

/-! ## Bounds of a pagination -/

theorem nonneg_clampInt64 {i : Int} (nonneg : 0 ≤ i) : 0 ≤ clampInt64 i := by
  have limit : (int64Bound : Int) = 9223372036854775808 := rfl
  rw [Int64.le_iff_toInt_le, toInt_clampInt64, Int64.toInt_zero]
  omega

/-- No bound of a pagination is negative. -/
structure Pagination.IsNonneg (p : Pagination) : Prop where
  offset : 0 ≤ p.offset
  rowCount : ∀ n ∈ p.rowCount, 0 ≤ n

@[simp] theorem replaceBound_pagination (rewritten : Target → Int64 → Target) (w : WidenedBounds) (b : Bound) (n : Int64) :
    (replaceBound rewritten w b n).pagination = w.pagination := by
  cases b <;> rfl

theorem widen_pagination (limit : Sql.Limit) (p : Pagination) (w : WidenedBounds) :
    (widen limit p w).pagination = w.pagination := by
  rw [widen]
  cases limit.offset <;> cases limit.rowCount <;> cases p.rowCount <;> simp

/-- A pagination that is recorded is the one of the statement under the parameters, widened if there are several units. -/
theorem paginate_cases {count : Nat} (paginated : paginate s count parameters = .ok w) (isPagination : w.pagination = some p) :
    ∃ limit, s.limit = some limit ∧ limit.rewritable = true ∧ limit.resolve parameters = .ok (p.offset, p.rowCount) ∧
      w = if 1 < count then widen limit p ⟨some p, parameters, .empty⟩ else ⟨some p, parameters, .empty⟩ := by
  cases isLimit : s.limit with
  | none =>
    rw [paginate, isLimit] at paginated
    cases paginated
    cases isPagination
  | some limit =>
    cases rewritable : limit.rewritable with
    | false =>
      rw [paginate, isLimit] at paginated
      dsimp only at paginated
      rw [rewritable] at paginated
      cases paginated
      cases isPagination
    | true =>
      cases resolved : limit.resolve parameters with
      | error err =>
        rw [paginate, isLimit] at paginated
        dsimp only at paginated
        rw [rewritable, resolved] at paginated
        cases paginated
      | ok bounds =>
        obtain ⟨o, n⟩ := bounds
        rw [paginate_eq isLimit rewritable resolved] at paginated
        obtain rfl := Except.ok.inj paginated
        have same : (⟨o, n⟩ : Pagination) = p := by
          split at isPagination
          · rw [widen_pagination] at isPagination
            exact Option.some.inj isPagination
          · exact Option.some.inj isPagination
        rw [← same]
        exact ⟨limit, rfl, rewritable, resolved, rfl⟩

/-! ## Bounds of a unit -/

theorem isNonneg_set {i : Nat} {n : Int64} (nonneg : 0 ≤ n) {b : Bound} (others : b ≠ .placeholder i → b.IsNonneg parameters) :
    b.IsNonneg (parameters.set i (.integer n)) := by
  by_cases same : b = .placeholder i
  · subst same
    intro v found m number
    obtain ⟨-, rfl⟩ : i < parameters.length ∧ .integer n = v := by simpa [List.getElem?_set] using found
    obtain rfl : n = m := Option.some.inj number
    exact nonneg
  · cases b with
    | literal => exact others same
    | placeholder j =>
      have apart : i ≠ j := fun h => same (congrArg Bound.placeholder h.symm)
      intro v found
      rw [List.getElem?_set_ne apart] at found
      exact others same v found

/-- No number that units get for a bound is negative, and none of the given bounds is negative under their parameters. -/
structure WidenedBounds.IsNonneg (bounds : List Bound) (w : WidenedBounds) : Prop where
  offset : ∀ n ∈ w.target.offset, 0 ≤ n
  rowCount : ∀ n ∈ w.target.rowCount, 0 ≤ n
  bounds : ∀ b ∈ bounds, b.IsNonneg w.parameters

/-- A bound that is replaced joins the others. -/
theorem WidenedBounds.IsNonneg.replaceBound {bounds : List Bound} (holds : w.IsNonneg bounds)
    {rewritten : Target → Int64 → Target} {b : Bound} {n : Int64} (nonneg : 0 ≤ n) (literal : ∀ i, b = .literal i → 0 ≤ i)
    (target : (∀ m ∈ (rewritten w.target n).offset, 0 ≤ m) ∧ ∀ m ∈ (rewritten w.target n).rowCount, 0 ≤ m) :
    (replaceBound rewritten w b n).IsNonneg (b :: bounds) := by
  cases b with
  | literal i => exact ⟨target.1, target.2, List.forall_mem_cons.mpr ⟨literal i rfl, holds.bounds⟩⟩
  | placeholder i =>
    refine ⟨holds.offset, holds.rowCount, List.forall_mem_cons.mpr ⟨isNonneg_set nonneg fun other => absurd rfl other, ?_⟩⟩
    exact fun b member => isNonneg_set nonneg fun _ => holds.bounds b member

/-- The bounds of a limit. -/
def limitBounds (limit : Sql.Limit) : List Bound := limit.rowCount.toList ++ limit.offset.toList

/-- A pagination without negative bounds is widened to one without. -/
theorem isNonneg_widen (nonneg : p.IsNonneg) (counted : p.rowCount.isSome = limit.rowCount.isSome)
    (literals : ∀ i, .literal i ∈ limitBounds limit → 0 ≤ i) :
    (widen limit p ⟨some p, parameters, .empty⟩).IsNonneg (limitBounds limit) := by
  have unchanged : WidenedBounds.IsNonneg [] ⟨some p, parameters, .empty⟩ := ⟨by simp [Target.empty], by simp [Target.empty], by simp⟩
  obtain ⟨rowCount, offset, rewritable⟩ := limit
  have zero : (0 : Int64) ≤ 0 := Int64.le_refl 0
  have withOffset : (offset.elim ⟨some p, parameters, .empty⟩ fun b =>
      replaceBound (fun t n => { t with offset := some n }) ⟨some p, parameters, .empty⟩ b 0).IsNonneg offset.toList := by
    cases offset with
    | none => exact unchanged
    | some b =>
      have literal (i : Int64) (same : b = .literal i) : 0 ≤ i := literals i (by simp [limitBounds, same])
      rw [Option.elim_some]
      refine unchanged.replaceBound zero literal ⟨?_, ?_⟩
      · simp
      · simp [Target.empty]
  cases rowCount with
  | none => exact withOffset
  | some b =>
    obtain ⟨n, isCount⟩ := Option.isSome_iff_exists.mp counted
    have first : 0 ≤ p.offset.toInt := Int64.le_iff_toInt_le.mp nonneg.offset
    have count : 0 ≤ n.toInt := Int64.le_iff_toInt_le.mp (nonneg.rowCount n isCount)
    have sum : 0 ≤ clampInt64 (p.offset.toInt + n.toInt) := nonneg_clampInt64 (by omega)
    rw [widen]
    dsimp only
    rw [isCount]
    refine withOffset.replaceBound sum (fun i same => literals i (by simp [limitBounds, same])) ?_
    exact ⟨withOffset.offset, by simpa using sum⟩

/-- The bounds of a statement that are literals are not negative. -/
theorem nonneg_of_mem_limitBounds (parsed : Sql.parse d sql = .ok s) (isLimit : s.limit = some limit) (i : Int64)
    (member : .literal i ∈ limitBounds limit) : 0 ≤ i := by
  have isBound : limit.rowCount = some (.literal i) ∨ limit.offset = some (.literal i) := by
    simpa [limitBounds, eq_comm] using member
  rcases isBound with isRowCount | isOffset
  · obtain ⟨span, member⟩ := (Sql.mem_points_of_limit parsed isLimit).2 isRowCount
    exact Sql.nonneg_of_mem_points parsed (.inr member)
  · obtain ⟨span, member⟩ := (Sql.mem_points_of_limit parsed isLimit).1 isOffset
    exact Sql.nonneg_of_mem_points parsed (.inl member)

/-- The new spelling of a literal bound among points. -/
def boundTextAt? (target : Target) (points : List RewritePoint) (t : Token) : Option (List Char) :=
  points.findSome? fun q => if q.isBound && q.position = t.span.start then target.textAt? q else none

/-- A unit whose target has no negative bounds writes no negative bounds. -/
theorem rewrites_of_isNonneg (reads : Sql.Reads d .start sql.toList ts e) (sited : Sql.Sited ts s.points) {target : Target}
    (noKey : target.generatedKey = none) (offset : ∀ n ∈ target.offset, 0 ≤ n) (rowCount : ∀ n ∈ target.rowCount, 0 ≤ n)
    {u : ExecutionUnit} {usesPlaceholder : Bool}
    (text : u.sql.toList = Rewrite.applyFrom 0 sql.toList (target.edits usesPlaceholder s.points)) :
    ∃ texts, (∀ t ∈ ts, ∀ cs, texts t = some cs → ∃ n : Int64, 0 ≤ n ∧ cs = (toString n.toInt).toList) ∧
      u.Rewrites sql ts s.points texts := by
  have found {t : Token} {cs : List Char} (isText : boundTextAt? target s.points t = some cs) :
      ∃ q ∈ s.points, q.isBound = true ∧ q.position = t.span.start ∧ target.textAt? q = some cs := by
    obtain ⟨q, member, isText⟩ := List.exists_of_findSome?_eq_some isText
    split at isText
    · next here =>
      rw [Bool.and_eq_true, decide_eq_true_eq] at here
      exact ⟨q, member, here.1, here.2, isText⟩
    · cases isText
  refine ⟨boundTextAt? target s.points, fun t _ cs isText => ?_, rewrites_of_edits reads sited noKey (fun t _ cs isText => ?_)
    (fun t _ q member placed none => ?_) text⟩
  · obtain ⟨q, -, isBound, -, isText⟩ := found isText
    cases q with
    | table | generatedKey => cases isBound
    | offset =>
      obtain ⟨n, isNew, rfl⟩ := Option.map_eq_some_iff.mp isText
      exact ⟨n, offset n isNew, rfl⟩
    | rowCount =>
      obtain ⟨n, isNew, rfl⟩ := Option.map_eq_some_iff.mp isText
      exact ⟨n, rowCount n isNew, rfl⟩
  · obtain ⟨q, member, -, here, isText⟩ := found isText
    exact ⟨q, member, here, isText⟩
  · have unchanged := List.findSome?_eq_none_iff.mp none q member
    rw [placed.position_eq] at unchanged
    cases q with
    | table | generatedKey => rfl
    | offset | rowCount => simpa [RewritePoint.isBound, nameAt?] using unchanged

/-! ## Routes -/

/-- The bounds of a limit under the parameters. -/
theorem isNonneg_iff_of_resolve (resolved : limit.resolve parameters = .ok (p.offset, p.rowCount)) :
    (0 ≤ p.offset ↔ ∀ b ∈ limit.offset, b.IsNonneg parameters) ∧
      ((∀ n ∈ p.rowCount, 0 ≤ n) ↔ ∀ b ∈ limit.rowCount, b.IsNonneg parameters) := by
  obtain ⟨o, first, resolved⟩ := bind_eq_ok_iff.mp resolved
  obtain ⟨n, second, resolved⟩ := bind_eq_ok_iff.mp resolved
  obtain ⟨rfl, rfl⟩ : o = p.offset ∧ n = p.rowCount := Prod.mk.inj (pure_eq_ok_iff.mp resolved)
  refine ⟨?_, ?_⟩
  · cases isOffset : limit.offset with
    | none =>
      rw [isOffset] at first
      have zero : 0 = p.offset := pure_eq_ok_iff.mp first
      simp [← zero]
    | some b =>
      rw [isOffset] at first
      simpa using Bound.nonneg_iff first
  · cases isRowCount : limit.rowCount with
    | none =>
      rw [isRowCount] at second
      have none : none = p.rowCount := pure_eq_ok_iff.mp second
      simp [← none]
    | some b =>
      rw [isRowCount] at second
      cases number : b.resolve parameters with
      | error err =>
        rw [Option.elim_some, number] at second
        cases second
      | ok m =>
        rw [Option.elim_some, number] at second
        have same : some m = p.rowCount := Except.ok.inj second
        simpa [← same] using Bound.nonneg_iff number

/-- The pagination of a route is the one of its statement. A bound of it is negative exactly if the statement has a placeholder
there whose parameter stands for a negative number. Where no bound is negative, none is in the units: their parameters give
no bound a negative number, and their texts are the text of the statement with other names for tables, and numbers without
a sign in the place of literal bounds. -/
theorem nonneg_iff_of_route (parsed : Sql.parse d sql = .ok s) (tokens : Sql.tokenize d sql = .ok (ts ++ [Token.endAt e]))
    (routed : route r s sql parameters key = .ok result) (paginated : result.pagination = some p) :
    ∃ limit, s.limit = some limit ∧ limit.resolve parameters = .ok (p.offset, p.rowCount) ∧
      (0 ≤ p.offset ↔ ∀ i, limit.offset = some (.placeholder i) → (Bound.placeholder i).IsNonneg parameters) ∧
      ((∀ n ∈ p.rowCount, 0 ≤ n) ↔ ∀ i, limit.rowCount = some (.placeholder i) → (Bound.placeholder i).IsNonneg parameters) ∧
      (p.IsNonneg → ∀ u ∈ result.units, (∀ b ∈ limitBounds limit, b.IsNonneg u.parameters) ∧
        ∃ texts, (∀ t ∈ ts, ∀ cs, texts t = some cs → ∃ n : Int64, 0 ≤ n ∧ cs = (toString n.toInt).toList) ∧
          u.Rewrites sql ts s.points texts) := by
  obtain ⟨e', us, reads, sited⟩ := Sql.sited_of_parse parsed
  obtain rfl : ts = us := (reads.eq_of_tokenize tokens).symm
  obtain ⟨-, source, -, rfl⟩ | ⟨primary, others, nodes, assigned, w, units, -, -, -, widened, made, rfl⟩ := route_cases routed
  · cases paginated
  obtain ⟨limit, isLimit, rewritable, resolved, bounds⟩ := paginate_cases widened paginated
  have literals := nonneg_of_mem_limitBounds parsed isLimit
  obtain ⟨offset, rowCount⟩ := isNonneg_iff_of_resolve resolved
  have isQuery := Sql.isQuery_of_rewritable parsed isLimit rewritable
  have placeholders {b? : Option Bound} (among : ∀ b ∈ b?, b ∈ limitBounds limit) :
      (∀ b ∈ b?, b.IsNonneg parameters) ↔ ∀ i, b? = some (.placeholder i) → (Bound.placeholder i).IsNonneg parameters := by
    refine ⟨fun all i isBound => all _ isBound, fun each b isBound => ?_⟩
    cases b with
    | literal i => exact literals i (among _ isBound)
    | placeholder i => exact each i isBound
  have inOffset : ∀ b ∈ limit.offset, b ∈ limitBounds limit := fun b isOffset =>
    List.mem_append_right _ (Option.mem_toList.mpr isOffset)
  have inRowCount : ∀ b ∈ limit.rowCount, b ∈ limitBounds limit := fun b isRowCount =>
    List.mem_append_left _ (Option.mem_toList.mpr isRowCount)
  refine ⟨limit, isLimit, resolved, offset.trans (placeholders inOffset), rowCount.trans (placeholders inRowCount),
    fun nonneg u member => ?_⟩
  have unchanged : WidenedBounds.IsNonneg (limitBounds limit) ⟨some p, parameters, .empty⟩ := by
    refine ⟨by simp [Target.empty], by simp [Target.empty], fun b isBound => ?_⟩
    rcases List.mem_append.mp isBound with isRowCount | isOffset
    · exact rowCount.mp nonneg.rowCount b (Option.mem_toList.mp isRowCount)
    · exact offset.mp nonneg.offset b (Option.mem_toList.mp isOffset)
  have holds : w.IsNonneg (limitBounds limit) := by
    rw [bounds]
    split
    · exact isNonneg_widen nonneg (isSome_of_resolve resolved) literals
    · exact unchanged
  have noKey : keyColumn? r s = none := by rw [keyColumn?, isQuery]; rfl
  rw [noKey] at made
  obtain ⟨⟨source, a⟩, -, made⟩ := exists_of_forall₂ made member
  obtain ⟨same, tables, usesPlaceholder, text⟩ := unitOf_of_noKey made rfl
  rw [same]
  have numbers : WidenedBounds.IsNonneg (limitBounds limit) { w with target.tables := tables, target.generatedKey := none } :=
    ⟨holds.offset, holds.rowCount, holds.bounds⟩
  exact ⟨holds.bounds, rewrites_of_isNonneg reads sited rfl numbers.offset numbers.rowCount text⟩

/-- A query with a placeholder for the rows to leave out. -/
def pageFromPlaceholder : Statement where
  kind := .select
  tables := ⟨[⟨"t_order", none⟩]⟩
  conditions := ⟨[⟨⟨none, "user_id"⟩, .equal, [.literal (.integer 3)]⟩], true⟩
  points := [.table ⟨14, 21⟩ "t_order" none, .rowCount ⟨49, 50⟩ 5]
  parameterCount := 1
  limit := some ⟨some (.literal 5), some (.placeholder 0), true⟩
  insertColumns := []
  insertRows := 0
  qualifiers := []

/-- A negative offset is no error: the two units leave out no rows, and return fewer. -/
example : route (.ofTables [ordersRule] none) pageFromPlaceholder "SELECT a FROM t_order WHERE user_id = 3 LIMIT ?, 5"
    [.integer (-1)] (.integer 0) = .ok ⟨.select,
      [⟨"ds_1", "SELECT a FROM t_order_0 WHERE user_id = 3 LIMIT ?, 4", [.integer 0]⟩,
        ⟨"ds_1", "SELECT a FROM t_order_1 WHERE user_id = 3 LIMIT ?, 4", [.integer 0]⟩], some ⟨-1, some 5⟩, none⟩ := by
  cbv

end SqlSharding.Routing
