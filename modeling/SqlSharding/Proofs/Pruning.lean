import Mathlib
import SqlSharding.Proofs.Outcomes
import SqlSharding.Routing.Rule

/-!
# Pruning is sound

A table rule narrows the data nodes of a table by the pinned columns. A row has one value in each column, so the row is
stored where its point assignment is routed. Whatever a query pins, the node of every row that the pins admit stays
among the nodes that the query is sent to (`route_subset_of_admits`).
-/

namespace SqlSharding.Routing

/-- The values that a pin admits. Between two bounds lie the values whose sharding integers do. -/
def Pin.Admits : Pin → Value → Prop
  | .single w, v => v = w
  | .list ws, v => v ∈ ws
  | .range lower upper, v => ∃ lo i hi : Int64, lower.toShardingInteger? = some lo ∧ v.toShardingInteger? = some i ∧
      upper.toShardingInteger? = some hi ∧ lo ≤ i ∧ i ≤ hi

/-- A point assignment gives every pinned column one value that its pin admits. It may pin further columns. -/
def AdmitsPoint (pins point : Pins) : Prop :=
  ∀ column pin, pins.get? column = some pin → ∃ v, point.get? column = some (.single v) ∧ pin.Admits v

/-- The pins of one column beside a value that they admit. -/
def SamePinned (a b : String × Pin) : Prop := a.1 = b.1 ∧ ∃ v, b.2 = .single v ∧ a.2.Admits v

/-! ## The strategy's own pins -/

theorem samePinned_insert {column : String} {pin : Pin} {v : Value} (admits : pin.Admits v) {xs ys : Pins}
    (same : List.Forall₂ SamePinned xs ys) :
    List.Forall₂ SamePinned (Named.insert column pin xs) (Named.insert column (.single v) ys) := by
  induction same with
  | nil => exact .cons ⟨rfl, v, rfl, admits⟩ .nil
  | @cons a b _ _ head tail ih =>
    obtain ⟨other, p⟩ := a
    obtain ⟨other', q⟩ := b
    obtain ⟨rfl, value⟩ := head
    simp only [Named.insert]
    split
    · exact .cons ⟨rfl, v, rfl, admits⟩ tail
    · split
      · exact .cons ⟨rfl, v, rfl, admits⟩ (.cons ⟨rfl, value⟩ tail)
      · exact .cons ⟨rfl, value⟩ ih

theorem samePinned_ofList {xs ys : List (String × Pin)} (same : List.Forall₂ SamePinned xs ys) :
    List.Forall₂ SamePinned (Named.ofList xs) (Named.ofList ys) := by
  have folded : ∀ named named' : Pins, List.Forall₂ SamePinned named named' →
      List.Forall₂ SamePinned (xs.foldl (fun named x => Named.insert x.1 x.2 named) named)
        (ys.foldl (fun named x => Named.insert x.1 x.2 named) named') := by
    induction same with
    | nil => exact fun _ _ start => start
    | @cons a b _ _ head _ ih =>
      intro named named' start
      obtain ⟨column, pin⟩ := a
      obtain ⟨column', q⟩ := b
      obtain ⟨rfl, v, rfl, admits⟩ := head
      exact ih _ _ (samePinned_insert admits start)
  exact folded [] [] .nil

/-- Where every sharding column is pinned, the point pins the same columns of the strategy. -/
theorem samePinned_ownPins {s : Strategy} {pins point : Pins} (admits : AdmitsPoint pins point)
    (pinned : s.isPinned pins = true) : List.Forall₂ SamePinned (s.ownPins pins) (s.ownPins point) := by
  have all : ∀ c ∈ s.columns, (pins.get? c).isSome := by
    simp only [Strategy.isPinned, Bool.and_eq_true, List.all_eq_true] at pinned
    exact pinned.2
  refine samePinned_ofList ?_
  clear pinned
  generalize s.columns = columns at all ⊢
  induction columns with
  | nil => exact .nil
  | cons c rest ih =>
    obtain ⟨pin, known⟩ := Option.isSome_iff_exists.mp (all c List.mem_cons_self)
    obtain ⟨v, value, ok⟩ := admits c pin known
    rw [List.filterMap_cons_some (b := (c, pin)) (by simp [known]),
      List.filterMap_cons_some (b := (c, .single v)) (by simp [value])]
    exact .cons ⟨rfl, v, rfl, ok⟩ (ih fun c' member => all c' (List.mem_cons_of_mem _ member))

theorem isPinned_of_admits {s : Strategy} {pins point : Pins} (admits : AdmitsPoint pins point)
    (pinned : s.isPinned pins = true) : s.isPinned point = true := by
  simp only [Strategy.isPinned, Bool.and_eq_true, List.all_eq_true] at pinned ⊢
  refine ⟨pinned.1, fun c member => ?_⟩
  obtain ⟨pin, known⟩ := Option.isSome_iff_exists.mp (pinned.2 c member)
  obtain ⟨v, value, _⟩ := admits c pin known
  simp [value]

/-! ## Targets of single values -/

namespace Algorithm

variable {logicName : String} {available chosen points : List String}

theorem mem_inAvailableOrder {t : String} : t ∈ inAvailableOrder available chosen ↔ t ∈ available ∧ t ∈ chosen := by
  simp [inAvailableOrder]

theorem inAvailableOrder_sublist : (inAvailableOrder available chosen).Sublist available := List.filter_sublist

theorem inAvailableOrder_mono (subset : points ⊆ chosen) :
    inAvailableOrder available points ⊆ inAvailableOrder available chosen := by
  intro t member
  rw [mem_inAvailableOrder] at member ⊢
  exact ⟨member.1, subset member.2⟩

/-- The targets of remainders include that of each integer in the row. -/
theorem mem_remainderTargets {n count k : Nat} {first : Int} {t : String} (inside : k < count)
    (run : remainderTargets logicName available n first count = .ok chosen)
    (target : remainderTarget logicName available ((first + k) % n) = .ok t) : t ∈ chosen := by
  induction count generalizing first k chosen with
  | zero => omega
  | succ count ih =>
    rw [remainderTargets] at run
    obtain ⟨head, ofFirst, run⟩ := bind_eq_ok_iff.mp run
    obtain ⟨rest, ofRest, run⟩ := bind_eq_ok_iff.mp run
    obtain rfl := pure_eq_ok_iff.mp run
    cases k with
    | zero =>
      rw [Int.natCast_zero, Int.add_zero, ofFirst] at target
      cases target
      exact List.mem_cons_self
    | succ k =>
      refine List.mem_cons_of_mem _ (ih (Nat.lt_of_succ_lt_succ inside) ofRest ?_)
      rw [← target]
      congr 2
      omega

/-- Fewer elements have fewer targets. -/
theorem mapM_mono {α : Type} {f : α → Outcome String} {xs ys : List α} (subset : ys ⊆ xs) (broad : xs.mapM f = .ok chosen)
    (narrow : ys.mapM f = .ok points) : points ⊆ chosen := by
  intro t member
  obtain ⟨y, inYs, ofY⟩ := exists_of_mem_mapM narrow member
  obtain ⟨u, found, ofX⟩ := mem_of_mapM_eq_ok broad (subset inYs)
  obtain rfl : u = t := by simpa [ofX] using ofY
  exact found

theorem resolveModulo_mono {n : Nat} {pin : Pin} {v : Value} (admits : pin.Admits v)
    (broad : resolveModulo logicName available n pin = .ok chosen)
    (narrow : resolveModulo logicName available n (.single v) = .ok points) : points ⊆ chosen := by
  obtain ⟨found, ofV, narrow⟩ := bind_eq_ok_iff.mp narrow
  obtain rfl := pure_eq_ok_iff.mp narrow
  cases pin with
  | single w =>
    obtain rfl : v = w := admits
    obtain ⟨found', ofW, broad⟩ := bind_eq_ok_iff.mp broad
    obtain rfl := pure_eq_ok_iff.mp broad
    exact inAvailableOrder_mono (mapM_mono (List.Subset.refl _) ofW ofV)
  | list ws =>
    obtain ⟨found', ofWs, broad⟩ := bind_eq_ok_iff.mp broad
    obtain rfl := pure_eq_ok_iff.mp broad
    exact inAvailableOrder_mono (mapM_mono (List.cons_subset.mpr ⟨admits, List.nil_subset _⟩) ofWs ofV)
  | range lower upper =>
    obtain ⟨lo, i, hi, ofLower, ofI, ofUpper, above, below⟩ := admits
    rw [Int64.le_iff_toInt_le] at above below
    simp only [resolveModulo, integerOf, ofLower, ofUpper, Option.elim_some] at broad
    obtain ⟨lo', same, broad⟩ := bind_eq_ok_iff.mp broad
    cases same
    obtain ⟨hi', same, broad⟩ := bind_eq_ok_iff.mp broad
    cases same
    split at broad
    · next inverted =>
      rw [Int64.lt_iff_toInt_lt] at inverted
      omega
    · split at broad
      · obtain rfl := pure_eq_ok_iff.mp broad
        exact inAvailableOrder_sublist.subset
      · obtain ⟨met, ofRow, broad⟩ := bind_eq_ok_iff.mp broad
        obtain rfl := pure_eq_ok_iff.mp broad
        refine inAvailableOrder_mono fun t member => ?_
        obtain ⟨w, only, ofW⟩ := exists_of_mem_mapM ofV member
        obtain rfl := List.mem_singleton.mp only
        simp only [integerOf, ofI, Option.elim_some] at ofW
        obtain ⟨i', same, ofI'⟩ := bind_eq_ok_iff.mp ofW
        cases same
        refine mem_remainderTargets (k := (i.toInt - lo.toInt).toNat) (by omega) ofRow ?_
        rw [← ofI']
        congr 2
        omega

theorem resolveRanges_mono {entries : List RangeEntry} {pin : Pin} {v : Value} (admits : pin.Admits v)
    (broad : resolveRanges logicName available entries pin = .ok chosen)
    (narrow : resolveRanges logicName available entries (.single v) = .ok points) : points ⊆ chosen := by
  obtain ⟨found, ofV, narrow⟩ := bind_eq_ok_iff.mp narrow
  obtain rfl := pure_eq_ok_iff.mp narrow
  cases pin with
  | single w =>
    obtain rfl : v = w := admits
    obtain ⟨found', ofW, broad⟩ := bind_eq_ok_iff.mp broad
    obtain rfl := pure_eq_ok_iff.mp broad
    exact inAvailableOrder_mono (mapM_mono (List.Subset.refl _) ofW ofV)
  | list ws =>
    obtain ⟨found', ofWs, broad⟩ := bind_eq_ok_iff.mp broad
    obtain rfl := pure_eq_ok_iff.mp broad
    exact inAvailableOrder_mono (mapM_mono (List.cons_subset.mpr ⟨admits, List.nil_subset _⟩) ofWs ofV)
  | range lower upper =>
    obtain ⟨lo, i, hi, ofLower, ofI, ofUpper, above, below⟩ := admits
    simp only [resolveRanges, integerOf, ofLower, ofUpper, Option.elim_some] at broad
    obtain ⟨lo', same, broad⟩ := bind_eq_ok_iff.mp broad
    cases same
    obtain ⟨hi', same, broad⟩ := bind_eq_ok_iff.mp broad
    cases same
    obtain rfl := pure_eq_ok_iff.mp broad
    refine inAvailableOrder_mono fun t member => ?_
    obtain ⟨w, only, ofW⟩ := exists_of_mem_mapM ofV member
    obtain rfl := List.mem_singleton.mp only
    simp only [integerOf, ofI, Option.elim_some] at ofW
    obtain ⟨i', same, ofI'⟩ := bind_eq_ok_iff.mp ofW
    cases same
    -- The first range that holds the integer meets every interval around it.
    rw [rangeTarget] at ofI'
    split at ofI'
    · next e first =>
      cases ofI'
      have holds := List.find?_some first
      simp only [Bool.and_eq_true, decide_eq_true_eq] at holds
      refine List.mem_map_of_mem (List.mem_filter.mpr ⟨List.mem_of_find?_eq_some first, ?_⟩)
      simp only [Bool.and_eq_true, decide_eq_true_eq]
      exact ⟨Int64.le_trans holds.1 below, Int64.le_trans above holds.2⟩
    · cases ofI'

/-- An algorithm that evaluates no ranges reads single values off a pin; what the pin admits is among them. -/
theorem mem_pointsOf {a : Algorithm} {pin : Pin} {v : Value} {values : List Value} (admits : pin.Admits v)
    (read : a.pointsOf pin = .ok values) : v ∈ values := by
  rw [pointsOf, elim_eq_ok_iff] at read
  cases pin with
  | single w =>
    obtain rfl : v = w := admits
    cases read
    exact List.mem_cons_self
  | list ws =>
    cases read
    exact admits
  | range lower upper => cases read

/-- The combination that a point is, is among the combinations of the pins that admit it. -/
theorem combinations_mono {a : Algorithm} {pins point : Pins} (same : List.Forall₂ SamePinned pins point)
    {keys pointKeys : List (Named Value)} (broad : a.combinations pins = .ok keys)
    (narrow : a.combinations point = .ok pointKeys) : pointKeys ⊆ keys := by
  have folded : ∀ start pointStart : List (Named Value), pointStart ⊆ start → ∀ {keys pointKeys},
      pins.foldlM (fun keys entry => do
        let points ← a.pointsOf entry.2
        return keys.flatMap fun key => points.map fun v => Named.insert entry.1 v key) start = .ok keys →
      point.foldlM (fun keys entry => do
        let points ← a.pointsOf entry.2
        return keys.flatMap fun key => points.map fun v => Named.insert entry.1 v key) pointStart = .ok pointKeys →
      pointKeys ⊆ keys := by
    clear broad narrow
    induction same with
    | nil =>
      intro start pointStart subset keys pointKeys broad narrow
      rw [List.foldlM_nil, pure_eq_ok_iff] at broad narrow
      rw [← broad, ← narrow]
      exact subset
    | @cons entry pointEntry _ _ head _ ih =>
      intro start pointStart subset keys pointKeys broad narrow
      obtain ⟨column, pin⟩ := entry
      obtain ⟨column', pin'⟩ := pointEntry
      obtain ⟨rfl, v, rfl, admits⟩ := head
      rw [List.foldlM_cons] at broad narrow
      obtain ⟨next, step, broad⟩ := bind_eq_ok_iff.mp broad
      obtain ⟨values, read, step⟩ := bind_eq_ok_iff.mp step
      obtain rfl := pure_eq_ok_iff.mp step
      obtain ⟨pointNext, pointStep, narrow⟩ := bind_eq_ok_iff.mp narrow
      obtain ⟨only, pointRead, pointStep⟩ := bind_eq_ok_iff.mp pointStep
      obtain rfl := pure_eq_ok_iff.mp pointStep
      obtain rfl : [v] = only := by simpa [pointsOf, Pin.points?] using pointRead
      refine ih _ _ (fun key member => ?_) broad narrow
      obtain ⟨old, inStart, extended⟩ := List.mem_flatMap.mp member
      obtain ⟨w, isV, rfl⟩ := List.mem_map.mp extended
      obtain rfl := List.mem_singleton.mp isV
      exact List.mem_flatMap.mpr ⟨old, subset inStart, List.mem_map.mpr ⟨w, mem_pointsOf admits read, rfl⟩⟩
  exact folded [[]] [[]] (List.Subset.refl _) broad narrow

/-- The first column of a point assignment beside that of the pins. -/
theorem firstPin_of_samePinned {a : Algorithm} {pins point : Pins} {pin pin' : Pin}
    (same : List.Forall₂ SamePinned pins point) (broad : a.firstPin pins = .ok pin) (narrow : a.firstPin point = .ok pin') :
    ∃ v, pin' = .single v ∧ pin.Admits v := by
  cases same with
  | nil => cases broad
  | cons head _ =>
    obtain ⟨_, v, single, admits⟩ := head
    cases broad
    cases narrow
    exact ⟨v, single, admits⟩

/-- Every algorithm chooses among the available targets and keeps their order. -/
theorem resolve_sublist {a : Algorithm} {pins : Pins} (run : a.resolve logicName available pins = .ok chosen) :
    chosen.Sublist available := by
  cases a with
  | modulo shardCount =>
    simp only [resolve] at run
    split at run
    · cases run
    · obtain ⟨pin, _, run⟩ := bind_eq_ok_iff.mp run
      cases pin with
      | range lower upper =>
        obtain ⟨lo, _, run⟩ := bind_eq_ok_iff.mp run
        obtain ⟨hi, _, run⟩ := bind_eq_ok_iff.mp run
        split at run
        · obtain rfl := pure_eq_ok_iff.mp run
          exact List.nil_sublist _
        · split at run
          · obtain rfl := pure_eq_ok_iff.mp run
            exact List.Sublist.refl _
          · obtain ⟨met, _, run⟩ := bind_eq_ok_iff.mp run
            obtain rfl := pure_eq_ok_iff.mp run
            exact inAvailableOrder_sublist
      | single | list =>
        obtain ⟨met, _, run⟩ := bind_eq_ok_iff.mp run
        obtain rfl := pure_eq_ok_iff.mp run
        exact inAvailableOrder_sublist
  | ranges entries =>
    obtain ⟨pin, _, run⟩ := bind_eq_ok_iff.mp run
    cases pin with
    | range lower upper =>
      obtain ⟨lo, _, run⟩ := bind_eq_ok_iff.mp run
      obtain ⟨hi, _, run⟩ := bind_eq_ok_iff.mp run
      obtain rfl := pure_eq_ok_iff.mp run
      exact inAvailableOrder_sublist
    | single | list =>
      obtain ⟨met, _, run⟩ := bind_eq_ok_iff.mp run
      obtain rfl := pure_eq_ok_iff.mp run
      exact inAvailableOrder_sublist
  | lookup entries =>
    obtain ⟨pin, _, run⟩ := bind_eq_ok_iff.mp run
    obtain ⟨values, _, run⟩ := bind_eq_ok_iff.mp run
    obtain ⟨met, _, run⟩ := bind_eq_ok_iff.mp run
    obtain rfl := pure_eq_ok_iff.mp run
    exact inAvailableOrder_sublist
  | expression name evaluate =>
    obtain ⟨keys, _, run⟩ := bind_eq_ok_iff.mp run
    obtain ⟨met, _, run⟩ := bind_eq_ok_iff.mp run
    obtain rfl := pure_eq_ok_iff.mp run
    exact inAvailableOrder_sublist

/-- The targets of a point are among those of the pins that admit it. -/
theorem resolve_mono {a : Algorithm} {pins point : Pins} (same : List.Forall₂ SamePinned pins point)
    (broad : a.resolve logicName available pins = .ok chosen)
    (narrow : a.resolve logicName available point = .ok points) : points ⊆ chosen := by
  cases a with
  | modulo shardCount =>
    simp only [resolve] at broad narrow
    split at broad
    · cases broad
    · next positive =>
      rw [if_neg positive] at narrow
      obtain ⟨pin, first, broad⟩ := bind_eq_ok_iff.mp broad
      obtain ⟨pin', first', narrow⟩ := bind_eq_ok_iff.mp narrow
      obtain ⟨v, rfl, admits⟩ := firstPin_of_samePinned same first first'
      exact resolveModulo_mono admits broad narrow
  | ranges entries =>
    obtain ⟨pin, first, broad⟩ := bind_eq_ok_iff.mp broad
    obtain ⟨pin', first', narrow⟩ := bind_eq_ok_iff.mp narrow
    obtain ⟨v, rfl, admits⟩ := firstPin_of_samePinned same first first'
    exact resolveRanges_mono admits broad narrow
  | lookup entries =>
    obtain ⟨pin, first, broad⟩ := bind_eq_ok_iff.mp broad
    obtain ⟨pin', first', narrow⟩ := bind_eq_ok_iff.mp narrow
    obtain ⟨v, rfl, admits⟩ := firstPin_of_samePinned same first first'
    obtain ⟨values, read, broad⟩ := bind_eq_ok_iff.mp broad
    obtain ⟨only, read', narrow⟩ := bind_eq_ok_iff.mp narrow
    obtain ⟨met, ofValues, broad⟩ := bind_eq_ok_iff.mp broad
    obtain ⟨met', ofOnly, narrow⟩ := bind_eq_ok_iff.mp narrow
    obtain rfl := pure_eq_ok_iff.mp broad
    obtain rfl := pure_eq_ok_iff.mp narrow
    obtain rfl : [v] = only := by simpa [pointsOf, Pin.points?] using read'
    exact inAvailableOrder_mono (mapM_mono (List.cons_subset.mpr ⟨mem_pointsOf admits read, List.nil_subset _⟩) ofValues ofOnly)
  | expression name evaluate =>
    obtain ⟨keys, combined, broad⟩ := bind_eq_ok_iff.mp broad
    obtain ⟨keys', combined', narrow⟩ := bind_eq_ok_iff.mp narrow
    obtain ⟨met, ofKeys, broad⟩ := bind_eq_ok_iff.mp broad
    obtain ⟨met', ofKeys', narrow⟩ := bind_eq_ok_iff.mp narrow
    obtain rfl := pure_eq_ok_iff.mp broad
    obtain rfl := pure_eq_ok_iff.mp narrow
    exact inAvailableOrder_mono (mapM_mono (combinations_mono same combined combined') ofKeys ofKeys')

end Algorithm

/-! ## Routes -/

variable {pins point : Pins}

theorem Strategy.shard_sublist {s : Strategy} {logicName : String} {available chosen : List String}
    (run : s.shard logicName available pins = .ok chosen) : chosen.Sublist available := by
  rw [Strategy.shard] at run
  split at run
  · exact Algorithm.resolve_sublist run
  · cases run
    exact List.Sublist.refl _

theorem Strategy.shard_mono {s : Strategy} {logicName : String} {available chosen points : List String}
    (admits : AdmitsPoint pins point) (broad : s.shard logicName available pins = .ok chosen)
    (narrow : s.shard logicName available point = .ok points) : points ⊆ chosen := by
  by_cases pinned : s.isPinned pins = true
  · rw [Strategy.shard, if_pos pinned] at broad
    rw [Strategy.shard, if_pos (isPinned_of_admits admits pinned)] at narrow
    exact Algorithm.resolve_mono (samePinned_ownPins admits pinned) broad narrow
  · -- A strategy that is not wholly pinned leaves all targets.
    rw [Strategy.shard, if_neg pinned] at broad
    cases broad
    exact (Strategy.shard_sublist narrow).subset

theorem TableRule.narrow_mono {t : TableRule} {strategy : Option Strategy} {available chosen points : List String}
    (admits : AdmitsPoint pins point) (broad : t.narrow strategy available pins = .ok chosen)
    (narrow : t.narrow strategy available point = .ok points) : points ⊆ chosen := by
  cases strategy with
  | none =>
    cases broad
    cases narrow
    exact List.Subset.refl _
  | some s => exact Strategy.shard_mono admits broad narrow

/-- A route is made of the chosen tables of the chosen data sources. -/
theorem TableRule.mem_route {t : TableRule} {nodes : List DataNode} (run : t.route pins = .ok nodes) (node : DataNode) :
    node ∈ nodes ↔ ∃ sources tables, t.narrow t.databaseStrategy t.dataSources pins = .ok sources ∧
      node.dataSource ∈ sources ∧ t.narrow t.tableStrategy (t.tablesIn node.dataSource) pins = .ok tables ∧
      node.table ∈ tables := by
  obtain ⟨sources, narrowed, run⟩ := bind_eq_ok_iff.mp run
  obtain ⟨groups, each, run⟩ := bind_eq_ok_iff.mp run
  obtain rfl := pure_eq_ok_iff.mp run
  rw [List.mem_flatten]
  constructor
  · rintro ⟨group, inGroups, inGroup⟩
    obtain ⟨source, chosen, ofSource⟩ := exists_of_mem_mapM each inGroups
    obtain ⟨tables, ofTables, made⟩ := bind_eq_ok_iff.mp ofSource
    obtain rfl := pure_eq_ok_iff.mp made
    obtain ⟨table, inTables, rfl⟩ := List.mem_map.mp inGroup
    exact ⟨sources, tables, narrowed, chosen, ofTables, inTables⟩
  · rintro ⟨sources', tables, narrowed', chosen, ofTables, inTables⟩
    rw [narrowed] at narrowed'
    cases narrowed'
    obtain ⟨group, inGroups, ofSource⟩ := mem_of_mapM_eq_ok each chosen
    rw [ofTables] at ofSource
    cases ofSource
    exact ⟨_, inGroups, List.mem_map.mpr ⟨node.table, inTables, rfl⟩⟩

/-- The node on which a row is stored stays among the nodes of every query whose pins admit the row. -/
theorem route_subset_of_admits (t : TableRule) {nodes stored : List DataNode} (admits : AdmitsPoint pins point)
    (broad : t.route pins = .ok nodes) (narrow : t.route point = .ok stored) : stored ⊆ nodes := by
  intro node member
  obtain ⟨sources, tables, narrowed, chosen, ofTables, inTables⟩ := (TableRule.mem_route narrow node).mp member
  rw [TableRule.mem_route broad]
  have run := broad
  obtain ⟨sources', narrowed', run⟩ := bind_eq_ok_iff.mp run
  obtain ⟨groups, each, _⟩ := bind_eq_ok_iff.mp run
  have chosen' := TableRule.narrow_mono admits narrowed' narrowed chosen
  obtain ⟨_, _, ofSource⟩ := mem_of_mapM_eq_ok each chosen'
  obtain ⟨tables', ofTables', _⟩ := bind_eq_ok_iff.mp ofSource
  exact ⟨sources', tables', narrowed', chosen', ofTables', TableRule.narrow_mono admits ofTables' ofTables inTables⟩

/-- Orders by customer over two data sources, and by overlapping ranges of their numbers over two tables in each. -/
def ordersRule : TableRule where
  logicTable := "t_order"
  dataNodes := [⟨"ds_0", "t_order_0"⟩, ⟨"ds_0", "t_order_1"⟩, ⟨"ds_1", "t_order_0"⟩, ⟨"ds_1", "t_order_1"⟩]
  databaseStrategy := some (.of ["user_id"] (.modulo none))
  tableStrategy := some (.of ["order_id"] (.ranges [⟨0, 99, "t_order_0"⟩, ⟨50, 200, "t_order_1"⟩]))
  generatedKeyColumn := none

/-- A query over an interval of orders of two customers reads the node on which one of these orders is stored. -/
theorem route_subset_of_admits_orders :
    AdmitsPoint [("order_id", .range (.integer 40) (.integer 60)), ("user_id", .list [.integer 5, .integer 3])]
      [("order_id", .single (.integer 55)), ("user_id", .single (.integer 3)), ("zone", .single (.text "eu"))] ∧
    [⟨"ds_1", "t_order_0"⟩] ⊆ [DataNode.mk "ds_1" "t_order_0", ⟨"ds_1", "t_order_1"⟩] := by
  have admits : AdmitsPoint [("order_id", .range (.integer 40) (.integer 60)), ("user_id", .list [.integer 5, .integer 3])]
      [("order_id", .single (.integer 55)), ("user_id", .single (.integer 3)), ("zone", .single (.text "eu"))] := by
    intro column pin known
    by_cases order : column = "order_id"
    · subst order
      obtain rfl : .range (.integer 40) (.integer 60) = pin := by simpa [Named.get?] using known
      exact ⟨.integer 55, by simp [Named.get?], 40, 55, 60, rfl, rfl, rfl, by decide, by decide⟩
    · by_cases user : column = "user_id"
      · subst user
        obtain rfl : .list [.integer 5, .integer 3] = pin := by simpa [Named.get?] using known
        exact ⟨.integer 3, by simp [Named.get?], by simp [Pin.Admits]⟩
      · simp [Named.get?, Ne.symm order, Ne.symm user] at known
  exact ⟨admits, route_subset_of_admits ordersRule admits (by cbv) (by cbv)⟩

end SqlSharding.Routing
