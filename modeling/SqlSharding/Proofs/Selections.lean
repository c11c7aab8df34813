import Mathlib
import SqlSharding.Proofs.Assignments
import SqlSharding.Proofs.Rules

/-!
# Targets of pinned rows

A row with a value in every sharding column has to lie somewhere. The modulo and expression algorithms choose among the
targets there are. Ranges and lookup tables name their targets in the configuration; one that does not exist is left out
without a failure, so that a row under it is routed to no data node at all (`TableRule.route_eq_nil`). Where every
target that a table names exists, a route of pinned rows selects a data node (`nodes_ne_nil_of_route`).
-/

namespace SqlSharding.Routing

/-- A pin to one value or more. -/
def Pin.HasPoints (pin : Pin) : Prop := ∃ v vs, pin.points? = some (v :: vs)

/-- The columns are pinned to one value or more each. -/
def PinsPoints (columns : List String) (pins : Pins) : Prop :=
  ∀ c ∈ columns, ∃ pin, pins.get? c = some pin ∧ pin.HasPoints

variable {pins : Pins} {logicName : String} {available chosen : List String}

/-! ## The strategy's own pins -/

theorem mem_ofList {α : Type} {xs : List (String × α)} {x : String × α} (member : x ∈ Named.ofList xs) : x ∈ xs := by
  have folded : ∀ named : Named α, x ∈ xs.foldl (fun named x => Named.insert x.1 x.2 named) named → x ∈ xs ∨ x ∈ named := by
    clear member
    induction xs with
    | nil => exact fun _ member => .inr member
    | cons y ys ih =>
      intro named member
      rcases ih _ member with later | inserted
      · exact .inl (List.mem_cons_of_mem _ later)
      · rcases Named.mem_insert inserted with rfl | old
        · exact .inl List.mem_cons_self
        · exact .inr old
  exact (folded [] member).resolve_right List.not_mem_nil

theorem insert_ne_nil {α : Type} (name : String) (a : α) (xs : Named α) : Named.insert name a xs ≠ [] := by
  cases xs with
  | nil => exact List.cons_ne_nil _ _
  | cons x rest =>
    simp only [Named.insert]
    split
    · exact List.cons_ne_nil _ _
    · split <;> exact List.cons_ne_nil _ _

theorem ofList_ne_nil {α : Type} {xs : List (String × α)} (nonempty : xs ≠ []) : Named.ofList xs ≠ [] := by
  rw [← List.dropLast_concat_getLast nonempty, Named.ofList, List.foldl_append]
  exact insert_ne_nil _ _ _

/-- A strategy has pins of its own where it is wholly pinned. -/
theorem Strategy.ownPins_ne_nil {s : Strategy} (pinned : s.isPinned pins = true) : s.ownPins pins ≠ [] := by
  simp only [Strategy.isPinned, Bool.and_eq_true, List.all_eq_true, Bool.not_eq_true', List.isEmpty_eq_false_iff] at pinned
  obtain ⟨c, rest, split⟩ := List.exists_cons_of_ne_nil pinned.1
  obtain ⟨pin, known⟩ := Option.isSome_iff_exists.mp (pinned.2 c (split ▸ List.mem_cons_self))
  refine ofList_ne_nil (List.ne_nil_of_mem (a := (c, pin)) (List.mem_filterMap.mpr ⟨c, split ▸ List.mem_cons_self, ?_⟩))
  simp [known]

theorem Strategy.hasPoints_of_mem_ownPins {s : Strategy} (points : PinsPoints s.columns pins) {x : String × Pin}
    (member : x ∈ s.ownPins pins) : x.2.HasPoints := by
  obtain ⟨c, inColumns, known⟩ := List.mem_filterMap.mp (mem_ofList member)
  obtain ⟨pin, found, hasPoints⟩ := points c inColumns
  simp only [found, Option.map_some, Option.some.injEq] at known
  exact known ▸ hasPoints

/-! ## What an algorithm chooses -/

namespace Algorithm

/-- The targets that an algorithm names itself. -/
def namedTargets : Algorithm → List String
  | ranges entries => entries.map (·.target)
  | lookup entries => entries.map (·.2)
  | modulo _ | expression .. => []

/-- The target that an algorithm names for a value. -/
def namedTarget? : Algorithm → Value → Option String
  | ranges entries, v =>
    v.toShardingInteger?.bind fun key => (entries.find? fun e => e.lower ≤ key && key ≤ e.upper).map (·.target)
  | lookup entries, v => entries.get? v.toText
  | modulo _, _ | expression .., _ => none

theorem namedTarget?_mem {a : Algorithm} {v : Value} {t : String} (named : a.namedTarget? v = some t) :
    t ∈ a.namedTargets := by
  cases a with
  | modulo | expression => cases named
  | ranges entries =>
    obtain ⟨key, -, named⟩ := Option.bind_eq_some_iff.mp named
    obtain ⟨e, found, rfl⟩ := Option.map_eq_some_iff.mp named
    exact List.mem_map_of_mem (List.mem_of_find?_eq_some found)
  | lookup entries =>
    obtain ⟨x, found, rfl⟩ := Option.map_eq_some_iff.mp named
    exact List.mem_map_of_mem (List.mem_of_find?_eq_some found)

theorem inAvailableOrder_ne_nil {t : String} (there : t ∈ available) (picked : t ∈ chosen) :
    inAvailableOrder available chosen ≠ [] :=
  List.ne_nil_of_mem (mem_inAvailableOrder.mpr ⟨there, picked⟩)

theorem mapM_singleton {α β : Type} {f : α → Outcome β} {x : α} {y : β} (run : f x = .ok y) : [x].mapM f = .ok [y] := by
  rw [List.mapM_cons, List.mapM_nil, run]
  rfl

theorem remainderTarget_mem {remainder : Int} {t : String} (run : remainderTarget logicName available remainder = .ok t) :
    t ∈ available :=
  List.mem_of_find?_eq_some (elim_eq_ok_iff.mp run)

theorem expressionTarget_mem {name t : String} {evaluate : Expression} {key : Named Value}
    (run : expressionTarget name evaluate available key = .ok t) : t ∈ available := by
  obtain ⟨target, _, run⟩ := bind_eq_ok_iff.mp run
  split at run
  · next there => exact pure_eq_ok_iff.mp run ▸ there
  · cases run

/-- The target of the first range that holds the integer of a value is the one named for the value. -/
theorem namedTarget?_of_rangeTarget {entries : List RangeEntry} {v : Value} {key : Int64} {t : String}
    (integer : integerOf logicName v = .ok key) (run : rangeTarget logicName entries key = .ok t) :
    (ranges entries).namedTarget? v = some t := by
  rw [integerOf, elim_eq_ok_iff] at integer
  rw [namedTarget?, integer, Option.bind_some]
  rw [rangeTarget] at run
  split at run
  · next e found =>
    cases run
    rw [found, Option.map_some]
  · cases run

/-- The combinations of points are at least one. -/
theorem combinations_ne_nil {a : Algorithm} {keys : List (Named Value)} (points : ∀ x ∈ pins, x.2.HasPoints)
    (run : a.combinations pins = .ok keys) : keys ≠ [] := by
  have folded : ∀ start : List (Named Value), start ≠ [] → ∀ {keys},
      pins.foldlM (fun keys entry => do
        let points ← a.pointsOf entry.2
        return keys.flatMap fun key => points.map fun v => Named.insert entry.1 v key) start = .ok keys → keys ≠ [] := by
    clear run
    induction pins with
    | nil =>
      intro start nonempty keys run
      rw [List.foldlM_nil, pure_eq_ok_iff] at run
      exact run ▸ nonempty
    | cons x rest ih =>
      intro start nonempty keys run
      rw [List.foldlM_cons] at run
      obtain ⟨next, step, run⟩ := bind_eq_ok_iff.mp run
      obtain ⟨values, read, step⟩ := bind_eq_ok_iff.mp step
      obtain rfl := pure_eq_ok_iff.mp step
      obtain ⟨v, vs, known⟩ := points x List.mem_cons_self
      rw [pointsOf, known] at read
      cases read
      obtain ⟨key, others, rfl⟩ := List.exists_cons_of_ne_nil nonempty
      exact ih (fun y member => points y (List.mem_cons_of_mem _ member)) _ (by simp) run
  exact folded [[]] (List.cons_ne_nil _ _) run

theorem resolveModulo_ne_nil {n : Nat} {pin : Pin} (points : pin.HasPoints)
    (run : resolveModulo logicName available n pin = .ok chosen) : chosen ≠ [] := by
  obtain ⟨v, vs, points⟩ := points
  cases pin with
  | range => cases points
  | single | list =>
    obtain ⟨met, ofPoints, run⟩ := bind_eq_ok_iff.mp run
    rw [points] at ofPoints
    obtain ⟨t, picked, ofFirst⟩ := mem_of_mapM_eq_ok ofPoints List.mem_cons_self
    obtain ⟨_, -, ofFirst⟩ := bind_eq_ok_iff.mp ofFirst
    exact pure_eq_ok_iff.mp run ▸ inAvailableOrder_ne_nil (remainderTarget_mem ofFirst) picked

theorem resolveRanges_ne_nil {entries : List RangeEntry} {pin : Pin} {v : Value} {vs : List Value}
    (points : pin.points? = some (v :: vs)) (there : ∀ t, (ranges entries).namedTarget? v = some t → t ∈ available)
    (run : resolveRanges logicName available entries pin = .ok chosen) : chosen ≠ [] := by
  cases pin with
  | range => cases points
  | single | list =>
    obtain ⟨met, ofPoints, run⟩ := bind_eq_ok_iff.mp run
    rw [points] at ofPoints
    obtain ⟨t, picked, ofFirst⟩ := mem_of_mapM_eq_ok ofPoints List.mem_cons_self
    obtain ⟨key, integer, target⟩ := bind_eq_ok_iff.mp ofFirst
    exact pure_eq_ok_iff.mp run ▸ inAvailableOrder_ne_nil (there t (namedTarget?_of_rangeTarget integer target)) picked

/-- For points an algorithm chooses a target, unless the one that it names for the first of them is not there. -/
theorem resolve_ne_nil {a : Algorithm} {x : String × Pin} {rest : Pins} {v : Value} {vs : List Value}
    (first : x.2.points? = some (v :: vs)) (points : ∀ y ∈ x :: rest, y.2.HasPoints)
    (there : ∀ t, a.namedTarget? v = some t → t ∈ available)
    (run : a.resolve logicName available (x :: rest) = .ok chosen) : chosen ≠ [] := by
  cases a with
  | modulo shardCount =>
    simp only [resolve] at run
    split at run
    · cases run
    · exact resolveModulo_ne_nil ⟨v, vs, first⟩ run
  | ranges entries => exact resolveRanges_ne_nil first there run
  | lookup entries =>
    obtain ⟨pin, same, run⟩ := bind_eq_ok_iff.mp run
    cases same
    obtain ⟨values, read, run⟩ := bind_eq_ok_iff.mp run
    obtain rfl : v :: vs = values := Option.some.inj (first.symm.trans (elim_eq_ok_iff.mp read))
    obtain ⟨met, ofPoints, run⟩ := bind_eq_ok_iff.mp run
    obtain ⟨t, picked, ofFirst⟩ := mem_of_mapM_eq_ok ofPoints List.mem_cons_self
    exact pure_eq_ok_iff.mp run ▸ inAvailableOrder_ne_nil (there t (elim_eq_ok_iff.mp ofFirst)) picked
  | expression name evaluate =>
    obtain ⟨keys, combined, run⟩ := bind_eq_ok_iff.mp run
    obtain ⟨met, ofKeys, run⟩ := bind_eq_ok_iff.mp run
    obtain ⟨key, inKeys⟩ := List.exists_mem_of_ne_nil keys (combinations_ne_nil points combined)
    obtain ⟨t, picked, ofKey⟩ := mem_of_mapM_eq_ok ofKeys inKeys
    exact pure_eq_ok_iff.mp run ▸ inAvailableOrder_ne_nil (expressionTarget_mem ofKey) picked

/-- The only target of a value is left out without a failure if it is not there. -/
theorem resolve_eq_nil {a : Algorithm} {column : String} {v : Value} {t : String} (named : a.namedTarget? v = some t)
    (missing : t ∉ available) : a.resolve logicName available [(column, .single v)] = .ok [] := by
  have out : inAvailableOrder available [t] = [] :=
    List.filter_eq_nil_iff.mpr fun u there => by simpa using fun same : u = t => missing (same ▸ there)
  cases a with
  | modulo | expression => cases named
  | ranges entries =>
    obtain ⟨key, integer, named⟩ := Option.bind_eq_some_iff.mp named
    obtain ⟨e, found, rfl⟩ := Option.map_eq_some_iff.mp named
    have target : rangeTarget logicName entries key = .ok e.target := by rw [rangeTarget, found]
    have only : [v].mapM (fun v => do rangeTarget logicName entries (← integerOf logicName v)) = .ok [e.target] :=
      mapM_singleton (bind_eq_ok_iff.mpr ⟨key, elim_eq_ok_iff.mpr integer, target⟩)
    exact bind_eq_ok_iff.mpr ⟨_, rfl, bind_eq_ok_iff.mpr ⟨_, only, congrArg Except.ok out⟩⟩
  | lookup entries =>
    have only : [v].mapM (lookupTarget logicName entries) = .ok [t] := mapM_singleton (elim_eq_ok_iff.mpr named)
    exact bind_eq_ok_iff.mpr ⟨_, rfl, bind_eq_ok_iff.mpr ⟨_, rfl, bind_eq_ok_iff.mpr ⟨_, only, congrArg Except.ok out⟩⟩⟩

end Algorithm

/-! ## Routes -/

/-- Something is left of available targets that are narrowed, if the named target is among them. -/
def Selects (narrow : List String → Outcome (List String)) (named : Option String) : Prop :=
  ∀ available chosen, narrow available = .ok chosen → available ≠ [] → (∀ t, named = some t → t ∈ available) → chosen ≠ []

theorem selects_ok : Selects .ok none := by
  intro available chosen run nonempty _
  cases run
  exact nonempty

/-- Where all columns of a strategy are pinned to points, the target named for one value decides. -/
theorem Strategy.selects {s : Strategy} (points : PinsPoints s.columns pins) (logicName : String) :
    ∃ named, (∀ t, named = some t → t ∈ s.algorithm.namedTargets) ∧ Selects (s.shard logicName · pins) named := by
  by_cases pinned : s.isPinned pins = true
  · obtain ⟨x, rest, own⟩ := List.exists_cons_of_ne_nil (ownPins_ne_nil pinned)
    have all : ∀ y ∈ x :: rest, y.2.HasPoints := fun y member => hasPoints_of_mem_ownPins points (own ▸ member)
    obtain ⟨v, vs, first⟩ := all x List.mem_cons_self
    refine ⟨s.algorithm.namedTarget? v, fun t => Algorithm.namedTarget?_mem, fun available chosen run _ there => ?_⟩
    simp only [shard, if_pos pinned, own] at run
    exact Algorithm.resolve_ne_nil first all there run
  · -- A strategy that is not wholly pinned leaves all targets.
    refine ⟨none, by simp, ?_⟩
    simp only [shard, if_neg pinned]
    exact selects_ok

theorem TableRule.narrow_selects {t : TableRule} {strategy : Option Strategy}
    (points : ∀ s, strategy = some s → PinsPoints s.columns pins) :
    ∃ named, (∀ target, named = some target → ∃ s, strategy = some s ∧ target ∈ s.algorithm.namedTargets) ∧
      Selects (t.narrow strategy · pins) named := by
  cases strategy with
  | none => exact ⟨none, nofun, selects_ok⟩
  | some s =>
    obtain ⟨named, isNamed, selects⟩ := Strategy.selects (points s rfl) t.logicTable
    exact ⟨named, fun target same => ⟨s, rfl, isNamed target same⟩, selects⟩

/-- Every target that the strategies of a table name exists. A physical table has to lie in every data source if a database
strategy chooses among them, and in one of them if all are read. -/
structure TableRule.NamesExisting (t : TableRule) : Prop where
  sources : ∀ s, t.databaseStrategy = some s → s.algorithm.namedTargets ⊆ t.dataSources
  tables : ∀ s, t.tableStrategy = some s → ∀ target ∈ s.algorithm.namedTargets,
    (∀ source ∈ t.dataSources, target ∈ t.tablesIn source) ∨
      t.databaseStrategy = none ∧ ∃ source ∈ t.dataSources, target ∈ t.tablesIn source

/-- A route of rows that are pinned in every sharding column selects a data node. -/
theorem TableRule.route_ne_nil {t : TableRule} {nodes : List DataNode} (lies : t.dataNodes ≠ []) (existing : t.NamesExisting)
    (points : PinsPoints t.shardingColumns pins) (run : t.route pins = .ok nodes) : nodes ≠ [] := by
  have own : ∀ s, t.databaseStrategy = some s ∨ t.tableStrategy = some s → PinsPoints s.columns pins :=
    fun s isOwn c member => points c (mem_shardingColumns.mpr ⟨s, isOwn, member⟩)
  obtain ⟨namedSource, isSource, selectsSource⟩ := t.narrow_selects fun s isOwn => own s (.inl isOwn)
  obtain ⟨namedTable, isTable, selectsTable⟩ := t.narrow_selects fun s isOwn => own s (.inr isOwn)
  obtain ⟨sources, narrowed, run⟩ := bind_eq_ok_iff.mp run
  have nonempty : t.dataSources ≠ [] := by
    obtain ⟨node, member⟩ := List.exists_mem_of_ne_nil _ lies
    exact List.ne_nil_of_mem (mem_dataSources.mpr ⟨node.table, member⟩)
  have some : sources ≠ [] := by
    refine selectsSource _ _ narrowed nonempty fun target same => ?_
    obtain ⟨s, isOwn, named⟩ := isSource target same
    exact existing.sources s isOwn named
  -- The data source in which the named table lies, or else any.
  obtain ⟨source, chosen, there⟩ : ∃ source ∈ sources, ∀ target, namedTable = .some target → target ∈ t.tablesIn source := by
    obtain ⟨source, chosen⟩ := List.exists_mem_of_ne_nil _ some
    cases namedTable with
    | none => exact ⟨source, chosen, nofun⟩
    | some target =>
      obtain ⟨s, isOwn, named⟩ := isTable target rfl
      rcases existing.tables s isOwn target named with all | ⟨unsharded, found, isSource, there⟩
      · exact ⟨source, chosen, fun _ same => Option.some.inj same ▸ all source ((narrow_sublist narrowed).subset chosen)⟩
      · rw [unsharded] at narrowed
        cases narrowed
        exact ⟨found, isSource, fun _ same => Option.some.inj same ▸ there⟩
  obtain ⟨groups, each, run⟩ := bind_eq_ok_iff.mp run
  obtain ⟨group, inGroups, ofSource⟩ := mem_of_mapM_eq_ok each chosen
  obtain ⟨tables, ofTables, made⟩ := bind_eq_ok_iff.mp ofSource
  obtain ⟨table, isNode⟩ := mem_dataSources.mp ((narrow_sublist narrowed).subset chosen)
  have lies : tables ≠ [] := selectsTable _ _ ofTables (List.ne_nil_of_mem (mem_tablesIn.mpr isNode)) there
  obtain ⟨table, inTables⟩ := List.exists_mem_of_ne_nil _ lies
  obtain rfl := pure_eq_ok_iff.mp made
  obtain rfl := pure_eq_ok_iff.mp run
  exact List.ne_nil_of_mem (List.mem_flatten.mpr ⟨_, inGroups, List.mem_map_of_mem inTables⟩)

/-- A rule that was built from a configuration sends a row to a data node or refuses it, whatever the row is pinned to, unless
a strategy of the table names a target that does not exist. -/
theorem nodes_ne_nil_of_route {c : Configuration} {expressions : Expressions} {r : Rule} {t : TableRule} {nodes : List DataNode}
    (built : c.rule expressions = .ok r) (member : t ∈ r.tables) (existing : t.NamesExisting)
    (points : PinsPoints t.shardingColumns pins) (run : t.route pins = .ok nodes) : nodes ≠ [] :=
  TableRule.route_ne_nil (Configuration.dataNodes_ne_nil built member) existing points run

/-- A row whose table is missing everywhere is routed without a failure, to no data node. -/
theorem TableRule.route_eq_nil {t : TableRule} {column : String} {a : Algorithm} {v : Value} {target : String}
    (unsharded : t.databaseStrategy = none) (sharded : t.tableStrategy = some ⟨[column], a⟩)
    (named : a.namedTarget? v = some target) (missing : ∀ source, target ∉ t.tablesIn source) :
    t.route [(column, .single v)] = .ok [] := by
  have nothing : ∀ source, t.narrow t.tableStrategy (t.tablesIn source) [(column, .single v)] = .ok [] := by
    intro source
    have pinned : (Strategy.mk [column] a).isPinned [(column, .single v)] = true := by simp [Strategy.isPinned, Named.get?]
    have own : (Strategy.mk [column] a).ownPins [(column, .single v)] = [(column, .single v)] := by
      simp [Strategy.ownPins, Named.get?, Named.ofList, Named.insert]
    rw [sharded, narrow, Option.elim_some, Strategy.shard, if_pos pinned, own]
    exact Algorithm.resolve_eq_nil named (missing source)
  have each : ∀ sources : List String, ∃ groups : List (List DataNode), groups.flatten = [] ∧ (sources.mapM fun source => do
      let tables ← t.narrow t.tableStrategy (t.tablesIn source) [(column, .single v)]
      return tables.map fun table => DataNode.mk source table) = Except.ok groups := by
    intro sources
    induction sources with
    | nil => exact ⟨[], rfl, rfl⟩
    | cons source sources ih =>
      obtain ⟨groups, empty, run⟩ := ih
      refine ⟨[] :: groups, empty, ?_⟩
      rw [List.mapM_cons, nothing, run]
      rfl
  obtain ⟨groups, empty, run⟩ := each t.dataSources
  rw [route, unsharded]
  exact bind_eq_ok_iff.mpr ⟨_, rfl, bind_eq_ok_iff.mpr ⟨groups, run, congrArg Except.ok empty⟩⟩

/-- Orders by region, of which one names a table that does not exist. -/
def ordersByRegion : TableRule where
  logicTable := "orders"
  dataNodes := [⟨"ds_0", "orders_0"⟩, ⟨"ds_0", "orders_1"⟩]
  databaseStrategy := none
  tableStrategy := some (.of ["region"] (.lookup [("cn", "orders_0"), ("us", "orders_9")]))
  generatedKeyColumn := none

/-- A row of that region is routed to no data node. -/
example : ordersByRegion.route [("region", .single (.text "us"))] = .ok [] := by
  cbv

end SqlSharding.Routing
