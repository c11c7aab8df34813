import Mathlib
import SqlSharding.Proofs.Pages
import SqlSharding.Proofs.Pruning
import SqlSharding.Proofs.Replacements
import SqlSharding.Proofs.WholeNumbers
import SqlSharding.Routing.Router

/-!
# Pagination over several units

When a statement runs on several units, each of them returns the rows before the offset too. The rows that are left when the
pagination is applied to all of them are the rows that it leaves of everything.
-/

namespace SqlSharding.Routing

open Sql (Statement PlacedBound RewritePoint Token Bound Place Dialect)
open Rewrite (Target Replaced GeneratedKey)

variable {α : Type}

/-! ## Rows -/

/-- The rows that a pagination leaves. -/
def Pagination.apply (p : Pagination) (rows : List α) : List α :=
  let left := rows.drop p.offset.toInt.toNat
  p.rowCount.elim left fun n => left.take n.toInt.toNat

/-- The pagination of one unit of several. -/
def Pagination.widened (p : Pagination) : Pagination := ⟨0, p.rowCount.map fun n => clampInt64 (p.offset.toInt + n.toInt)⟩

/-- Lists of rows in order become one. Of rows that are alike, those of earlier lists come first. -/
def mergeRows (le : α → α → Bool) (lists : List (List α)) : List α := lists.foldr (List.merge · · le) []

section Rows

variable {le : α → α → Bool} {i j k : Nat} {xs ys : List α}

theorem mergeRows_perm (le : α → α → Bool) (lists : List (List α)) : (mergeRows le lists).Perm lists.flatten := by
  induction lists with
  | nil => exact .nil
  | cons rows lists ih =>
    rw [List.flatten_cons]
    exact (List.merge_perm_append ..).trans (ih.append_left rows)

theorem mergeRows_pairwise (trans : ∀ a b c, le a b = true → le b c = true → le a c = true)
    (total : ∀ a b, (le a b || le b a) = true) {lists : List (List α)}
    (sorted : ∀ rows ∈ lists, rows.Pairwise fun a b => le a b = true) :
    (mergeRows le lists).Pairwise fun a b => le a b = true := by
  induction lists with
  | nil => exact .nil
  | cons rows lists ih =>
    exact List.pairwise_merge trans total _ _ (sorted rows List.mem_cons_self)
      (ih fun other member => sorted other (List.mem_cons_of_mem rows member))

/-- The first rows of two merged lists come from as many first rows of each. -/
theorem take_merge_take (xs ys : List α) (enough : k ≤ i) (enough' : k ≤ j) :
    ((xs.take i).merge (ys.take j) le).take k = (xs.merge ys le).take k := by
  fun_induction List.merge xs ys le generalizing i j k with
  | case1 ys => simp [List.take_take, Nat.min_eq_left enough']
  | case2 xs => simp [List.take_take, Nat.min_eq_left enough]
  | case3 x xs y ys first ih =>
    match k, i, j, enough, enough' with
    | 0, _, _, _, _ => rfl
    | k + 1, i + 1, j + 1, enough, enough' =>
      have rest := ih (Nat.le_of_succ_le_succ enough) (Nat.le_of_succ_le enough')
      rw [List.take_succ_cons] at rest
      rw [List.take_succ_cons, List.take_succ_cons, List.cons_merge_cons_pos _ _ _ first, List.take_succ_cons,
        List.take_succ_cons, rest]
  | case4 x xs y ys first ih =>
    match k, i, j, enough, enough' with
    | 0, _, _, _, _ => rfl
    | k + 1, i + 1, j + 1, enough, enough' =>
      have rest := ih (Nat.le_of_succ_le enough) (Nat.le_of_succ_le_succ enough')
      rw [List.take_succ_cons] at rest
      rw [List.take_succ_cons, List.take_succ_cons, List.cons_merge_cons_neg _ _ _ first, List.take_succ_cons,
        List.take_succ_cons, rest]

/-- The first rows of merged lists come from as many first rows of each. -/
theorem take_mergeRows_take (le : α → α → Bool) (lists : List (List α)) :
    (mergeRows le (lists.map (List.take k))).take k = (mergeRows le lists).take k := by
  induction lists with
  | nil => rfl
  | cons rows lists ih =>
    calc ((rows.take k).merge (mergeRows le (lists.map (List.take k))) le).take k
      _ = (((rows.take k).take k).merge ((mergeRows le (lists.map (List.take k))).take k) le).take k :=
        (take_merge_take _ _ (Nat.le_refl k) (Nat.le_refl k)).symm
      _ = ((rows.take k).merge ((mergeRows le lists).take k) le).take k := by
        rw [ih, List.take_take, Nat.min_self]
      _ = (rows.merge (mergeRows le lists) le).take k := take_merge_take _ _ (Nat.le_refl k) (Nat.le_refl k)

end Rows

/-- A pagination leaves of the first rows of each unit what it leaves of all rows. -/
theorem Pagination.apply_mergeRows (p : Pagination) (offset : 0 ≤ p.offset) (rowCount : ∀ n ∈ p.rowCount, 0 ≤ n)
    (le : α → α → Bool) (lists : List (List α)) (short : ∀ rows ∈ lists, rows.length < int64Bound) :
    p.apply (mergeRows le (lists.map p.widened.apply)) = p.apply (mergeRows le lists) := by
  obtain ⟨o, n⟩ := p
  have first : 0 ≤ o.toInt := Int64.le_iff_toInt_le.mp offset
  cases n with
  | none =>
    have all : (Pagination.widened ⟨o, none⟩).apply (α := α) = id := rfl
    rw [all, List.map_id]
  | some n =>
    have count : 0 ≤ n.toInt := Int64.le_iff_toInt_le.mp (rowCount n rfl)
    have leaves (rows : List α) : apply ⟨o, some n⟩ rows = (rows.take (o.toInt.toNat + n.toInt.toNat)).drop o.toInt.toNat :=
      List.take_drop
    -- a count that stops at the greatest number still takes all rows of a unit
    have each : ∀ rows ∈ lists, (Pagination.widened ⟨o, some n⟩).apply rows = rows.take (o.toInt.toNat + n.toInt.toNat) := by
      intro rows member
      have length := short rows member
      show rows.take (clampInt64 (o.toInt + n.toInt)).toInt.toNat = _
      rw [toInt_clampInt64, Int.max_eq_right (by omega)]
      rcases Int.le_total (o.toInt + n.toInt) (int64Bound - 1) with fits | beyond
      · rw [Int.min_eq_left fits]
        congr 1
        omega
      · rw [List.take_of_length_le (by omega), List.take_of_length_le (by omega)]
    rw [leaves, leaves, List.map_congr_left each, take_mergeRows_take]

/-! ## Bounds of a unit -/

/-- The new spelling of a literal bound. -/
def boundText? (b : Option PlacedBound) (n : Int64) (t : Token) : Option (List Char) :=
  match b with
  | some ⟨.literal _, span⟩ => if t.span = span then some (toString n.toInt).toList else none
  | _ => none

/-- The parameters with another number for a placeholder bound. -/
def setBound (b : Option PlacedBound) (n : Int64) (parameters : List Value) : List Value :=
  match b with
  | some ⟨.placeholder i, _⟩ => parameters.set i (.integer n)
  | _ => parameters

/-- The new spellings of the literal bounds of a clause. -/
def Pagination.texts? (p : Pagination) (rowCount offset : Option PlacedBound) (t : Token) : Option (List Char) :=
  (boundText? offset p.offset t).or (p.rowCount.bind fun n => boundText? rowCount n t)

/-- The parameters with other numbers for the placeholder bounds of a clause. -/
def Pagination.bindParameters (p : Pagination) (rowCount offset : Option PlacedBound) (parameters : List Value) : List Value :=
  let parameters := setBound offset p.offset parameters
  p.rowCount.elim parameters fun n => setBound rowCount n parameters

/-- Tokens get new spellings only where a statement names a table, and these are names in the same quotes. -/
def RenamesTables (ts : List Token) (points : List RewritePoint) (names : Token → Option (List Char)) : Prop :=
  ∀ t ∈ ts, ∀ cs, names t = some cs → ∃ name quote physical, .table t.span name quote ∈ points ∧
    cs = (quote.elim physical (·.quote physical)).toList

/-- The text of a unit is the text of the statement, in which some tokens and table names are replaced. -/
def ExecutionUnit.Rewrites (u : ExecutionUnit) (sql : String) (ts : List Token) (points : List RewritePoint)
    (texts : Token → Option (List Char)) : Prop :=
  ∃ names, RenamesTables ts points names ∧ Replaced (fun t => (texts t).or (names t)) 0 sql.toList ts u.sql.toList

/-! ## Units of a query -/

variable {r : Rule} {s : Statement} {sql : String} {parameters : List Value} {key : Value} {result : RouteResult}

/-- What a route is: the statement itself for the default data source, or the units of its assignments with the bounds for
their number. -/
theorem route_cases (routed : route r s sql parameters key = .ok result) :
    (ruledTables r s = [] ∧ ∃ source, r.defaultDataSource = some source ∧
      result = ⟨s.kind, [⟨source, sql, parameters⟩], none, none⟩) ∨
    ∃ primary others nodes assigned w units, ruledTables r s = primary :: others ∧
      (pinsOf primary s parameters ((keyColumn? r s).map (GeneratedKey.mk · key)) >>= primary.route) = .ok nodes ∧
      others.foldlM (addTable r primary s parameters) (assignNodes primary nodes) = .ok assigned ∧
      paginate s units.length parameters = .ok w ∧
      List.Forall₂ (fun x u => unitOf s sql { w with target.generatedKey := (keyColumn? r s).map (GeneratedKey.mk · key) }
        x.1 x.2 = .ok u) (assigned.flatMap fun (source, as) => as.map (source, ·)) units ∧
      result = ⟨s.kind, units, w.pagination, ((keyColumn? r s).map (GeneratedKey.mk · key)).map (·.value)⟩ := by
  rw [route] at routed
  cases tables : ruledTables r s with
  | nil =>
    rw [tables] at routed
    dsimp only at routed
    rw [routeToDefault] at routed
    cases default : r.defaultDataSource with
    | none =>
      rw [default] at routed
      cases routed
    | some source =>
      rw [default] at routed
      cases routed
      exact .inl ⟨rfl, source, rfl, rfl⟩
  | cons primary others =>
    rw [tables] at routed
    dsimp only at routed
    split at routed
    · cases routed
    obtain ⟨pins, pinned, routed⟩ := bind_eq_ok_iff.mp routed
    obtain ⟨nodes, first, routed⟩ := bind_eq_ok_iff.mp routed
    obtain ⟨assigned, added, routed⟩ := bind_eq_ok_iff.mp routed
    obtain ⟨w, paginated, routed⟩ := bind_eq_ok_iff.mp routed
    obtain ⟨units, made, routed⟩ := bind_eq_ok_iff.mp routed
    obtain rfl := pure_eq_ok_iff.mp routed
    have each := forall₂_of_mapM_eq_ok made
    rw [each.length_eq] at paginated
    exact .inr ⟨primary, others, nodes, assigned, w, units, rfl, bind_eq_ok_iff.mpr ⟨pins, pinned, first⟩, added, paginated,
      each, rfl⟩

/-- The units of a query: one that is the statement itself, or one for each assignment, with the bounds for their number. -/
theorem units_of_route (routed : route r s sql parameters key = .ok result) (isQuery : s.kind = .select) :
    (∃ source, result.units = [⟨source, sql, parameters⟩]) ∨
      ∃ w, paginate s result.units.length parameters = .ok w ∧ result.pagination = w.pagination ∧
        ∀ u ∈ result.units, ∃ source a, unitOf s sql { w with target.generatedKey := none } source a = .ok u := by
  obtain ⟨-, source, -, rfl⟩ | ⟨primary, others, nodes, assigned, w, units, -, -, -, paginated, made, rfl⟩ := route_cases routed
  · exact .inl ⟨source, rfl⟩
  · have noKey : keyColumn? r s = none := by rw [keyColumn?, isQuery]; rfl
    rw [noKey] at made
    refine .inr ⟨w, paginated, rfl, fun u member => ?_⟩
    obtain ⟨⟨source, a⟩, -, made⟩ := exists_of_forall₂ made member
    exact ⟨source, a, made⟩

/-- The bounds of the units of a statement. -/
theorem paginate_eq {limit : Sql.Limit} {o : Int64} {n : Option Int64} (isLimit : s.limit = some limit)
    (rewritable : limit.rewritable = true) (resolved : limit.resolve parameters = .ok (o, n)) (count : Nat) :
    paginate s count parameters = .ok (if 1 < count then widen limit ⟨o, n⟩ ⟨some ⟨o, n⟩, parameters, .empty⟩
      else ⟨some ⟨o, n⟩, parameters, .empty⟩) := by
  rw [paginate, isLimit]
  dsimp only
  rw [rewritable, resolved]
  rfl

/-- The number for the literal bounds of a target. -/
def literalBound (b : Option PlacedBound) (n : Int64) : Option Int64 :=
  match b with
  | some ⟨.literal _, _⟩ => some n
  | _ => none

theorem widen_eq {rowCount offset : Option PlacedBound} {rewritable : Bool} {p : Pagination}
    (counted : p.rowCount.isSome = rowCount.isSome) :
    widen ⟨rowCount.map (·.bound), offset.map (·.bound), rewritable⟩ p ⟨some p, parameters, .empty⟩ =
      ⟨some p, p.widened.bindParameters rowCount offset parameters,
        ⟨[], p.widened.rowCount.bind (literalBound rowCount), literalBound offset 0, none⟩⟩ := by
  obtain ⟨o, n⟩ := p
  match rowCount, offset, n, counted with
  | none, none, none, _ => rfl
  | none, some ⟨.literal _, _⟩, none, _ => rfl
  | none, some ⟨.placeholder _, _⟩, none, _ => rfl
  | some ⟨.literal _, _⟩, none, some _, _ => rfl
  | some ⟨.placeholder _, _⟩, none, some _, _ => rfl
  | some ⟨.literal _, _⟩, some ⟨.literal _, _⟩, some _, _ => rfl
  | some ⟨.literal _, _⟩, some ⟨.placeholder _, _⟩, some _, _ => rfl
  | some ⟨.placeholder _, _⟩, some ⟨.literal _, _⟩, some _, _ => rfl
  | some ⟨.placeholder _, _⟩, some ⟨.placeholder _, _⟩, some _, _ => rfl

theorem isSome_of_resolve {limit : Sql.Limit} {o : Int64} {n : Option Int64}
    (resolved : limit.resolve parameters = .ok (o, n)) : n.isSome = limit.rowCount.isSome := by
  obtain ⟨_, -, resolved⟩ := bind_eq_ok_iff.mp resolved
  obtain ⟨n', count, resolved⟩ := bind_eq_ok_iff.mp resolved
  cases resolved
  cases isCount : limit.rowCount with
  | none =>
    rw [isCount] at count
    cases count
    rfl
  | some b =>
    rw [isCount] at count
    cases number : b.resolve parameters with
    | error e =>
      rw [Option.elim_some, number] at count
      cases count
    | ok m =>
      rw [Option.elim_some, number] at count
      cases count
      rfl

/-- Giving tables physical names changes nothing else of a target. -/
theorem foldl_insertTable (a : Assignment) (t : Target) :
    a.foldl (fun t x => t.insertTable x.1 x.2) t = { t with tables := a.reverse ++ t.tables } := by
  induction a generalizing t with
  | nil => rfl
  | cons x a ih =>
    rw [List.foldl_cons, ih, List.reverse_cons, List.append_assoc]
    rfl

/-- A unit has the edits of its target, and the parameters with the key. -/
theorem unitOf_eq_ok {w : WidenedBounds} {source : String} {a : Assignment} {u : ExecutionUnit}
    (made : unitOf s sql w source a = .ok u) :
    u = ⟨source, String.ofList (Rewrite.applyFrom 0 sql.toList
      (Target.edits { w.target with tables := a.reverse ++ w.target.tables } (!w.parameters.isEmpty) s.points)),
        if !w.parameters.isEmpty then w.target.bindKey s.points w.parameters else w.parameters⟩ := by
  obtain ⟨bound, rewritten, made⟩ := bind_eq_ok_iff.mp made
  obtain rfl := pure_eq_ok_iff.mp made
  rw [foldl_insertTable] at rewritten
  obtain ⟨text, applied, rewritten⟩ := bind_eq_ok_iff.mp rewritten
  obtain ⟨-, -, applied⟩ := bind_eq_ok_iff.mp applied
  obtain rfl := pure_eq_ok_iff.mp applied
  obtain rfl := pure_eq_ok_iff.mp rewritten
  rfl

/-- A unit without a key has the parameters of all units. -/
theorem unitOf_of_noKey {w : WidenedBounds} {source : String} {a : Assignment} {u : ExecutionUnit}
    (made : unitOf s sql w source a = .ok u) (noKey : w.target.generatedKey = none) :
    u.parameters = w.parameters ∧ ∃ tables usesPlaceholder, u.sql.toList =
      Rewrite.applyFrom 0 sql.toList (Target.edits { w.target with tables } usesPlaceholder s.points) := by
  obtain rfl := unitOf_eq_ok made
  refine ⟨?_, _, _, String.toList_ofList⟩
  have unbound : w.target.bindKey s.points w.parameters = w.parameters := Target.bindKey_of_noKey (.inl noKey) w.parameters
  simp [unbound]

variable {d : Dialect} {e : Place} {ts before clause after : List Token} {rowCount offset : Option PlacedBound}
  {points : List RewritePoint}

/-- The new spelling of a name of a table. -/
def nameAt? (target : Target) : RewritePoint → Option (List Char)
  | .table span name quote => target.textAt? (.table span name quote)
  | _ => none

/-- The text of a unit, when the new spellings of a target at all points but those of tables are given. -/
theorem rewrites_of_edits (reads : Sql.Reads d .start sql.toList ts e) (sited : Sql.Sited ts points) {target : Target}
    (noKey : target.generatedKey = none) {texts : Token → Option (List Char)}
    (places : ∀ t ∈ ts, ∀ cs, texts t = some cs → ∃ q ∈ points, q.position = t.span.start ∧ target.textAt? q = some cs)
    (spelled : ∀ t ∈ ts, ∀ q ∈ points, q.At t → texts t = none → target.textAt? q = nameAt? target q)
    {u : ExecutionUnit} {usesPlaceholder : Bool}
    (text : u.sql.toList = Rewrite.applyFrom 0 sql.toList (target.edits usesPlaceholder points)) :
    u.Rewrites sql ts points texts := by
  have laid := Sql.laid_of_reads reads
  have spaced := laid.spaced
  rw [target.edits_eq spaced sited noKey] at text
  have at_of_find {t : Token} (inText : t ∈ ts) {q : RewritePoint}
      (found : points.find? (fun q => q.position = t.span.start) = some q) (plain : q.isKey = false) : q ∈ points ∧ q.At t := by
    have member := List.mem_of_find?_eq_some found
    have here : q.position = t.span.start := by simpa using List.find?_some found
    obtain ⟨v, inText', placed⟩ := (sited.stands q member).token plain
    obtain rfl := spaced.eq_of_start inText' inText (placed.position_eq.symm.trans here)
    exact ⟨member, placed⟩
  refine ⟨fun t => (points.find? fun q => q.position = t.span.start).bind (nameAt? target), fun t inText cs named => ?_, ?_⟩
  · obtain ⟨q, found, named⟩ := Option.bind_eq_some_iff.mp named
    cases q with
    | table span name quote =>
      obtain ⟨member, placed⟩ := at_of_find inText found rfl
      obtain ⟨physical, -, rfl⟩ := Option.map_eq_some_iff.mp named
      exact ⟨name, quote, physical, placed.1 ▸ member, rfl⟩
    | offset | rowCount | generatedKey => cases named
  · rw [text]
    refine (Rewrite.replaced_applyFrom laid).congr fun t inText => ?_
    cases spelling : texts t with
    | some cs =>
      obtain ⟨q, member, here, same⟩ := places t inText cs spelling
      rw [Target.textOf?, sited.find?_eq member here, Option.bind_some, same, Option.some_or]
    | none =>
      rw [Target.textOf?, Option.none_or]
      dsimp only
      cases found : points.find? (fun q => q.position = t.span.start) with
      | none => rfl
      | some q =>
        cases key : q.isKey with
        | true =>
          cases q with
          | generatedKey => rfl
          | table | offset | rowCount => cases key
        | false =>
          obtain ⟨member, placed⟩ := at_of_find inText found key
          exact spelled t inText q member placed spelling

/-- The text of a unit with the bounds of a pagination, if the places of bounds are those of a clause. -/
theorem rewrites_of_places (reads : Sql.Reads d .start sql.toList ts e) (sited : Sql.Sited ts points)
    (places : ∀ span i, (.offset span i ∈ points ↔ offset = some ⟨.literal i, span⟩) ∧
      (.rowCount span i ∈ points ↔ rowCount = some ⟨.literal i, span⟩)) {p : Pagination}
    (counted : p.rowCount.isSome = rowCount.isSome) {tables : List (String × String)} {u : ExecutionUnit} {usesPlaceholder : Bool}
    (text : u.sql.toList = Rewrite.applyFrom 0 sql.toList (Target.edits
      ⟨tables, p.rowCount.bind (literalBound rowCount), literalBound offset p.offset, none⟩ usesPlaceholder points)) :
    u.Rewrites sql ts points (p.texts? rowCount offset) := by
  have literal {b : Option PlacedBound} {n : Int64} {t : Token} {cs : List Char} (isText : boundText? b n t = some cs) :
      ∃ i, b = some ⟨.literal i, t.span⟩ ∧ cs = (toString n.toInt).toList := by
    unfold boundText? at isText
    split at isText
    · split at isText
      · next i span same =>
        cases isText
        exact ⟨i, by rw [same], rfl⟩
      · cases isText
    · cases isText
  refine rewrites_of_edits reads sited rfl (fun t inText cs spelling => ?_) (fun t inText q member placed none => ?_) text
  · rcases Option.or_eq_some_iff.mp spelling with isText | ⟨-, isText⟩
    · obtain ⟨i, rfl, rfl⟩ := literal isText
      exact ⟨_, (places _ i).1.mpr rfl, rfl, rfl⟩
    · obtain ⟨n, isCount, isText⟩ := Option.bind_eq_some_iff.mp isText
      obtain ⟨i, rfl, rfl⟩ := literal isText
      refine ⟨_, (places _ i).2.mpr rfl, rfl, ?_⟩
      rw [isCount]
      rfl
  · rw [Pagination.texts?, Option.or_eq_none_iff] at none
    cases q with
    | table | generatedKey => rfl
    | offset span i =>
      obtain rfl := (places span i).1.mp member
      obtain rfl : t.span = span := placed.1
      simp [boundText?] at none
    | rowCount span i =>
      obtain rfl := (places span i).2.mp member
      obtain rfl : t.span = span := placed.1
      obtain ⟨n, isCount⟩ := Option.isSome_iff_exists.mp counted
      simp [boundText?, isCount] at none

/-- A query with one pagination that may be widened: when it runs on several units, each unit asks for the widened rows, by
the literals of its text and by its parameters, and otherwise the bounds stay as they are written. Applied to the merged rows
of the units, the pagination of the result leaves what it leaves of all rows merged. -/
theorem pagination_of_route {o : Int64} {n : Option Int64} (parsed : Sql.parse d sql = .ok s) (isQuery : s.kind = .select)
    (tokens : Sql.tokenize d sql = .ok (ts ++ [Token.endAt e]))
    (sole : Sql.SoleClause ts before clause after rowCount offset)
    (isLimit : s.limit = some ⟨rowCount.map (·.bound), offset.map (·.bound), true⟩)
    (resolved : Sql.Limit.resolve ⟨rowCount.map (·.bound), offset.map (·.bound), true⟩ parameters = .ok (o, n))
    (offsetNonneg : 0 ≤ o) (rowCountNonneg : ∀ i ∈ n, 0 ≤ i) (routed : route r s sql parameters key = .ok result) :
    (1 < result.units.length → result.pagination = some ⟨o, n⟩ ∧ ∀ u ∈ result.units,
      u.Rewrites sql ts s.points (Pagination.texts? (Pagination.widened ⟨o, n⟩) rowCount offset) ∧
        u.parameters = (Pagination.widened ⟨o, n⟩).bindParameters rowCount offset parameters) ∧
    (result.units.length ≤ 1 → ∀ u ∈ result.units,
      u.Rewrites sql ts s.points (fun _ => none) ∧ u.parameters = parameters) ∧
    ∀ (α : Type) (le : α → α → Bool) (lists : List (List α)), (∀ rows ∈ lists, rows.length < int64Bound) →
      Pagination.apply ⟨o, n⟩ (mergeRows le (lists.map (Pagination.widened ⟨o, n⟩).apply)) =
        Pagination.apply ⟨o, n⟩ (mergeRows le lists) := by
  obtain ⟨e', us, reads, sited⟩ := Sql.sited_of_parse parsed
  obtain rfl : ts = us := (reads.eq_of_tokenize tokens).symm
  have places := sole.mem_points_iff parsed tokens isLimit
  have counted : n.isSome = rowCount.isSome := by simpa using isSome_of_resolve resolved
  refine ⟨fun several => ?_, fun single u member => ?_, fun α le lists short => ?_⟩
  · rcases units_of_route routed isQuery with ⟨source, one⟩ | ⟨w, paginated, pagination, units⟩
    · rw [one] at several
      exact absurd several (Nat.lt_irrefl 1)
    · rw [paginate_eq isLimit rfl resolved, if_pos several, widen_eq counted] at paginated
      obtain rfl := Except.ok.inj paginated
      refine ⟨pagination, fun u member => ?_⟩
      obtain ⟨source, a, made⟩ := units u member
      obtain ⟨parameters, tables, usesPlaceholder, text⟩ := unitOf_of_noKey made rfl
      have counted' : (Pagination.widened ⟨o, n⟩).rowCount.isSome = rowCount.isSome := by
        simpa [Pagination.widened] using counted
      exact ⟨rewrites_of_places reads sited places counted' text, parameters⟩
  · rcases units_of_route routed isQuery with ⟨source, one⟩ | ⟨w, paginated, -, units⟩
    · rw [one, List.mem_singleton] at member
      subst member
      exact ⟨⟨fun _ => none, by simp [RenamesTables], .refl (Sql.laid_of_reads reads)⟩, rfl⟩
    · rw [paginate_eq isLimit rfl resolved, if_neg (Nat.not_lt.mpr single)] at paginated
      obtain rfl := Except.ok.inj paginated
      obtain ⟨source, a, made⟩ := units u member
      obtain ⟨parameters, tables, usesPlaceholder, text⟩ := unitOf_of_noKey made rfl
      refine ⟨rewrites_of_edits reads sited rfl (fun _ _ _ spelling => by cases spelling) (fun _ _ q _ _ _ => ?_) text,
        parameters⟩
      cases q <;> rfl
  · exact Pagination.apply_mergeRows ⟨o, n⟩ offsetNonneg rowCountNonneg le lists short

/-- A query that leaves out two orders of a customer and returns as many as its parameter says. -/
def pageOfOrders : Statement where
  kind := .select
  tables := ⟨[⟨"t_order", none⟩]⟩
  conditions := ⟨[⟨⟨none, "user_id"⟩, .equal, [.literal (.integer 3)]⟩], true⟩
  points := [.table ⟨14, 21⟩ "t_order" none, .offset ⟨46, 47⟩ 2]
  parameterCount := 1
  limit := some ⟨some (.placeholder 0), some (.literal 2), true⟩
  insertColumns := []
  insertRows := 0
  qualifiers := []

/-- The literal is rewritten, the parameter is replaced, and each of the two units returns seven rows. -/
example : route (.ofTables [ordersRule] none) pageOfOrders "SELECT a FROM t_order WHERE user_id = 3 LIMIT 2, ?" [.integer 5]
    (.integer 0) = .ok ⟨.select,
      [⟨"ds_1", "SELECT a FROM t_order_0 WHERE user_id = 3 LIMIT 0, ?", [.integer 7]⟩,
        ⟨"ds_1", "SELECT a FROM t_order_1 WHERE user_id = 3 LIMIT 0, ?", [.integer 7]⟩], some ⟨2, some 5⟩, none⟩ := by
  cbv

/-- A pagination behind a locking clause is passed over with it, so it is recorded nowhere and stays as it is. -/
example : (Sql.parse .generic "SELECT a FROM t_order WHERE user_id = 3 FOR UPDATE LIMIT 5 OFFSET 2").map (·.limit) = .ok none := by
  decide +kernel

end SqlSharding.Routing
