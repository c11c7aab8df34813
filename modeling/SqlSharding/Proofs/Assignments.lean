import SqlSharding.Proofs.Splices
import SqlSharding.Proofs.TableNames
import SqlSharding.Proofs.Widening

/-!
# Assignments of a statement

Every unit of a statement gives each of its ruled tables one physical table in the unit's data source. The tables that do not
follow the first one are combined in all ways, and the text of a unit names the assigned tables wherever the statement names
their logic tables.
-/

namespace SqlSharding

variable {α : Type}

/-! ## Entries in the order of their names -/

namespace Named

/-- The entries of a table are listed in the order of their names. -/
def Ordered (xs : Named α) : Prop := xs.Pairwise fun x y => x.1 < y.1

theorem mem_insert {name : String} {a : α} {xs : Named α} {x : String × α} (member : x ∈ insert name a xs) :
    x = (name, a) ∨ x ∈ xs := by
  induction xs with
  | nil => exact .inl (List.mem_singleton.mp member)
  | cons y xs ih =>
    obtain ⟨other, b⟩ := y
    rw [insert] at member
    split at member
    · rcases List.mem_cons.mp member with rfl | old
      · exact .inl rfl
      · exact .inr (List.mem_cons_of_mem _ old)
    · split at member
      · rcases List.mem_cons.mp member with rfl | old
        · exact .inl rfl
        · exact .inr old
      · rcases List.mem_cons.mp member with rfl | later
        · exact .inr List.mem_cons_self
        · exact (ih later).imp_right (List.mem_cons_of_mem _)

theorem Ordered.insert {xs : Named α} (ordered : Ordered xs) (name : String) (a : α) : Ordered (insert name a xs) := by
  induction xs with
  | nil => exact List.pairwise_singleton _ _
  | cons y xs ih =>
    obtain ⟨other, b⟩ := y
    obtain ⟨first, rest⟩ := List.pairwise_cons.mp ordered
    rw [Named.insert]
    split
    · next same => exact .cons (same ▸ first) rest
    · next different =>
      split
      · next before =>
        refine .cons (fun x member => ?_) ordered
        rcases List.mem_cons.mp member with rfl | later
        · exact before
        · exact before.trans (first x later)
      · next notBefore =>
        refine .cons (fun x member => ?_) (ih rest)
        rcases mem_insert member with rfl | old
        · exact lt_of_le_of_ne (not_lt.mp notBefore) (Ne.symm different)
        · exact first x old

/-- No entry of an ordered table has a name that comes before all of its names. -/
theorem get?_eq_none {xs : Named α} {name : String} (before : ∀ x ∈ xs, name < x.1) : xs.get? name = none := by
  rw [get?, Option.map_eq_none_iff, List.find?_eq_none]
  intro x member same
  exact absurd (of_decide_eq_true same) (Ne.symm (ne_of_lt (before x member)))

end Named

namespace Routing

open Sql (Statement RewritePoint Token Place Dialect)
open Rewrite (Target Replaced GeneratedKey)

/-! ## Assignments in one data source -/

/-- The assignments in a data source. -/
def inSource (source : String) (assigned : Assignments) : List Assignment :=
  assigned.flatMap fun x => if x.1 = source then x.2 else []

/-- All assignments with their data sources. -/
def placements (assigned : Assignments) : List (String × Assignment) :=
  assigned.flatMap fun x => x.2.map fun a => (x.1, a)

variable {source : String} {assigned assigned' : Assignments} {nodes : List DataNode} {t primary : TableRule}

theorem filter_placements (source : String) (assigned : Assignments) :
    ((placements assigned).filter fun x => x.1 = source).map (·.2) = inSource source assigned := by
  induction assigned with
  | nil => rfl
  | cons x assigned ih =>
    rw [placements, inSource, List.flatMap_cons, List.flatMap_cons, List.filter_append, List.map_append]
    refine congrArg₂ (· ++ ·) ?_ ih
    by_cases here : x.1 = source
    · simp [here, List.filter_map, Function.comp_def]
    · simp [here, List.filter_map, Function.comp_def]

theorem inSource_cons (name : String) (as : List Assignment) (assigned : Assignments) :
    inSource source ((name, as) :: assigned) = (if name = source then as else []) ++ inSource source assigned :=
  List.flatMap_cons

theorem inSource_eq_nil (before : ∀ x ∈ assigned, source < x.1) : inSource source assigned = [] := by
  rw [inSource, List.flatMap_eq_nil_iff]
  intro x member
  exact if_neg (Ne.symm (ne_of_lt (before x member)))

/-- An assignment is added behind those of its data source. -/
theorem inSource_addAssignment (ordered : Named.Ordered assigned) (other : String) (a : Assignment) :
    inSource source (addAssignment assigned other a) = inSource source assigned ++ if other = source then [a] else [] := by
  induction assigned with
  | nil => by_cases here : other = source <;> simp [addAssignment, Named.insert, Named.get?, inSource, here]
  | cons x assigned ih =>
    obtain ⟨name, as⟩ := x
    obtain ⟨first, rest⟩ := List.pairwise_cons.mp ordered
    by_cases same : other = name
    · subst same
      have added : addAssignment ((other, as) :: assigned) other a = (other, as ++ [a]) :: assigned := by
        simp [addAssignment, Named.insert, Named.get?]
      rw [added, inSource_cons, inSource_cons]
      by_cases here : other = source
      · subst here
        rw [if_pos rfl, if_pos rfl, if_pos rfl, inSource_eq_nil first, List.append_nil, List.append_nil]
      · rw [if_neg here, if_neg here, if_neg here, List.append_nil]
    by_cases before : other < name
    · have ahead : ∀ x ∈ (name, as) :: assigned, other < x.1 := by
        intro x member
        rcases List.mem_cons.mp member with rfl | later
        · exact before
        · exact before.trans (first x later)
      have added : addAssignment ((name, as) :: assigned) other a = (other, [a]) :: (name, as) :: assigned := by
        rw [addAssignment, Named.get?_eq_none ahead, Named.insert, if_neg same, if_pos before]
        rfl
      rw [added, inSource_cons]
      by_cases here : other = source
      · subst here
        rw [if_pos rfl, inSource_eq_nil ahead, List.append_nil, List.nil_append]
      · rw [if_neg here, List.nil_append, List.append_nil]
    · have added : addAssignment ((name, as) :: assigned) other a = (name, as) :: addAssignment assigned other a := by
        have other_get : Named.get? ((name, as) :: assigned) other = Named.get? assigned other := by
          simp [Named.get?, Ne.symm same]
        rw [addAssignment, other_get, Named.insert, if_neg same, if_neg before]
        rfl
      rw [added, inSource_cons, ih rest, inSource_cons, List.append_assoc]

/-- The nodes of a list in one data source, by their tables. -/
def tablesOf (source : String) (nodes : List DataNode) : List String :=
  (nodes.filter fun node => node.dataSource = source).map (·.table)

theorem inSource_assignNodes (t : TableRule) (nodes : List DataNode) (source : String) :
    inSource source (assignNodes t nodes) = (tablesOf source nodes).map fun table => [(t.logicTable, table)] := by
  have grown (assigned : Assignments) (ordered : Named.Ordered assigned) : inSource source
      (nodes.foldl (fun assigned node => addAssignment assigned node.dataSource [(t.logicTable, node.table)]) assigned) =
        inSource source assigned ++ (tablesOf source nodes).map fun table => [(t.logicTable, table)] := by
    induction nodes generalizing assigned with
    | nil => simp [tablesOf]
    | cons node nodes ih =>
      have ordered' : Named.Ordered (addAssignment assigned node.dataSource [(t.logicTable, node.table)]) :=
        ordered.insert _ _
      rw [List.foldl_cons, ih _ ordered', inSource_addAssignment ordered, List.append_assoc]
      by_cases here : node.dataSource = source <;> simp [tablesOf, here]
  exact grown [] List.Pairwise.nil

/-- Data sources that drop out have no assignments. -/
theorem inSource_combineNodes (t : TableRule) (nodes : List DataNode) (assigned : Assignments) :
    inSource source (combineNodes t nodes assigned) =
      (inSource source assigned).flatMap fun a => (tablesOf source nodes).map fun table => a ++ [(t.logicTable, table)] := by
  induction assigned with
  | nil => rfl
  | cons x assigned ih =>
    obtain ⟨name, as⟩ := x
    have split : combineNodes t nodes ((name, as) :: assigned) =
        combineNodes t nodes [(name, as)] ++ combineNodes t nodes assigned := by
      rw [combineNodes, combineNodes, combineNodes, ← List.filter_append, ← List.map_append]
      rfl
    have single : inSource source (combineNodes t nodes [(name, as)]) =
        (if name = source then as else []).flatMap fun a =>
          (tablesOf source nodes).map fun table => a ++ [(t.logicTable, table)] := by
      have made : combineNodes t nodes [(name, as)] = [(name, as.flatMap fun a =>
          (tablesOf name nodes).map fun table => a ++ [(t.logicTable, table)])].filter fun x => !x.2.isEmpty := rfl
      rw [made]
      generalize extended : (as.flatMap fun a => (tablesOf name nodes).map fun table => a ++ [(t.logicTable, table)]) = xs
      by_cases here : name = source
      · subst here
        rw [if_pos rfl, extended]
        cases xs <;> simp [inSource]
      · rw [if_neg here]
        cases xs <;> simp [inSource, here]
    rw [split, inSource, List.flatMap_append, inSource_cons, List.flatMap_append]
    exact congrArg₂ (· ++ ·) single ih

/-- Every assignment of a data source goes on with the counterpart of its first table. -/
theorem inSource_followPrimary (followed : followPrimary primary t assigned = .ok assigned') (source : String) :
    List.Forall₂ (fun a a' => ∃ physical, counterpart primary t source a = .ok physical ∧ a' = a ++ [(t.logicTable, physical)])
      (inSource source assigned) (inSource source assigned') := by
  have each := forall₂_of_mapM_eq_ok followed
  clear followed
  induction each with
  | nil => exact .nil
  | @cons x y assigned assigned' first _ ih =>
    obtain ⟨name, as⟩ := x
    obtain ⟨extended, made, same⟩ := bind_eq_ok_iff.mp first
    obtain rfl := pure_eq_ok_iff.mp same
    rw [inSource_cons, inSource_cons]
    refine List.rel_append ?_ ih
    by_cases here : name = source
    · rw [if_pos here, if_pos here]
      refine (forall₂_of_mapM_eq_ok made).imp fun a a' run => ?_
      obtain ⟨physical, found, run⟩ := bind_eq_ok_iff.mp run
      exact ⟨physical, here ▸ found, (pure_eq_ok_iff.mp run).symm⟩
    · rw [if_neg here, if_neg here]
      exact .nil

/-! ## Combinations -/

/-- All ways to choose one physical table for each logic table; later choices vary first. -/
def combinations : List (String × List String) → List Assignment
  | [] => [[]]
  | (logic, tables) :: choices => tables.flatMap fun table => (combinations choices).map ((logic, table) :: ·)

theorem combinations_concat (choices : List (String × List String)) (logic : String) (tables : List String) :
    combinations (choices ++ [(logic, tables)]) =
      (combinations choices).flatMap fun a => tables.map fun table => a ++ [(logic, table)] := by
  induction choices with
  | nil => simp [combinations, List.map_eq_flatMap]
  | cons choice choices ih =>
    obtain ⟨other, others⟩ := choice
    simp only [List.cons_append, combinations, ih, List.flatMap_assoc, List.map_flatMap, List.flatMap_map, List.map_map]
    rfl

/-- An assignment is one of the combinations if it chooses from each list. -/
theorem mem_combinations {choices : List (String × List String)} {a : Assignment} :
    a ∈ combinations choices ↔ List.Forall₂ (fun y choice => y.1 = choice.1 ∧ y.2 ∈ choice.2) a choices := by
  induction choices generalizing a with
  | nil => simp [combinations]
  | cons choice choices ih =>
    obtain ⟨logic, tables⟩ := choice
    simp only [combinations, List.mem_flatMap, List.mem_map, List.forall₂_cons_right_iff]
    constructor
    · rintro ⟨table, inTables, rest, isRest, rfl⟩
      exact ⟨(logic, table), rest, ⟨rfl, inTables⟩, ih.mp isRest, rfl⟩
    · rintro ⟨⟨_, table⟩, rest, ⟨rfl, inTables⟩, isRest, rfl⟩
      exact ⟨table, inTables, rest, ih.mpr isRest, rfl⟩

/-! ## Nodes of a route -/

theorem TableRule.narrow_sublist {t : TableRule} {strategy : Option Strategy} {available chosen : List String} {pins : Pins}
    (run : t.narrow strategy available pins = .ok chosen) : chosen.Sublist available := by
  cases strategy with
  | none =>
    cases run
    exact List.Sublist.refl _
  | some s => exact Strategy.shard_sublist run

/-- A table is routed to nodes of its own. -/
theorem TableRule.route_subset {t : TableRule} {nodes : List DataNode} {pins : Pins} (run : t.route pins = .ok nodes) :
    nodes ⊆ t.dataNodes := by
  intro node member
  obtain ⟨_, tables, -, -, narrowed, inTables⟩ := (TableRule.mem_route run node).mp member
  have inSource := (TableRule.narrow_sublist narrowed).subset inTables
  obtain ⟨other, isNode, same⟩ := List.mem_map.mp inSource
  obtain ⟨isOther, here⟩ := List.mem_filter.mp isNode
  have equal : node = other := by
    obtain ⟨source, table⟩ := node
    obtain ⟨source', table'⟩ := other
    simp_all
  exact equal ▸ isOther

theorem TableRule.mem_tablesIn {t : TableRule} {table : String} :
    table ∈ t.tablesIn source ↔ ⟨source, table⟩ ∈ t.dataNodes := by
  simp only [tablesIn, List.mem_map, List.mem_filter, decide_eq_true_eq]
  constructor
  · rintro ⟨⟨source', table'⟩, ⟨member, rfl⟩, rfl⟩
    exact member
  · intro member
    exact ⟨_, ⟨member, rfl⟩, rfl⟩

theorem TableRule.exists_tableIndex? {t : TableRule} {table : String} (member : table ∈ t.tablesIn source) :
    ∃ i, t.tableIndex? source table = some i ∧ (t.tablesIn source)[i]? = some table := by
  cases index : t.tableIndex? source table with
  | none =>
    have absent := List.findIdx?_eq_none_iff.mp index table member
    simp at absent
  | some i =>
    obtain ⟨inside, here, -⟩ := List.findIdx?_eq_some_iff_getElem.mp index
    refine ⟨i, rfl, ?_⟩
    rw [List.getElem?_eq_getElem inside, eq_of_beq here]

/-- The nodes that a table of a statement is routed to. -/
def nodesOf (s : Statement) (parameters : List Value) (key : Option GeneratedKey) (t : TableRule) : Outcome (List DataNode) := do
  t.route (← pinsOf t s parameters key)

theorem nodesOf_subset {s : Statement} {parameters : List Value} {key : Option GeneratedKey}
    (run : nodesOf s parameters key t = .ok nodes) : nodes ⊆ t.dataNodes := by
  obtain ⟨_, -, run⟩ := bind_eq_ok_iff.mp run
  exact TableRule.route_subset run

/-! ## Seats of the tables -/

/-- The first physical table of an assignment. -/
def Assignment.first (a : Assignment) : String := (a.head?.map (·.2)).getD ""

/-- An entry of an assignment that gives a table a node of its own, at the position of the primary table's if the two are
spread alike. -/
structure Seat (r : Rule) (primary : TableRule) (source first : String) (y : String × String) (t : TableRule) : Prop where
  logic : y.1 = t.logicTable
  node : ⟨source, y.2⟩ ∈ t.dataNodes
  beside : t = primary ∨ r.areBound primary.logicTable t.logicTable = true →
    ∃ i, primary.tableIndex? source first = some i ∧ (t.tablesIn source)[i]? = some y.2

/-- Whether a table has its own place in the combinations: the primary table, and those that do not follow it. -/
def isFree (r : Rule) (primary : TableRule) (logic : String) : Bool :=
  logic = primary.logicTable || !r.areBound primary.logicTable logic

/-- The choices for routed tables in a data source. -/
def choicesIn (source : String) (routed : List (TableRule × List DataNode)) : List (String × List String) :=
  routed.map fun x => (x.1.logicTable, tablesOf source x.2)

/-- The assignments of some tables in a data source: every table has its seat, and the tables that have been routed stand in
all combinations. -/
structure Spread (r : Rule) (primary : TableRule) (source : String) (done : List TableRule)
    (routed : List (TableRule × List DataNode)) (as : List Assignment) : Prop where
  seats : ∀ a ∈ as, List.Forall₂ (Seat r primary source a.first) a done
  product : as.map (List.filter fun y => isFree r primary y.1) = combinations (choicesIn source routed)

namespace Spread

variable {r : Rule} {s : Statement} {parameters : List Value} {key : Option GeneratedKey} {done : List TableRule}
  {routed : List (TableRule × List DataNode)} {as as' : List Assignment}

/-- The nodes of the primary table are the first assignments. -/
theorem of_primary (run : nodesOf s parameters key primary = .ok nodes) :
    Spread r primary source [primary] [(primary, nodes)] (inSource source (assignNodes primary nodes)) where
  seats a member := by
    rw [inSource_assignNodes] at member
    obtain ⟨table, inTables, rfl⟩ := List.mem_map.mp member
    obtain ⟨node, isNode, rfl⟩ := List.mem_map.mp inTables
    obtain ⟨isRouted, here⟩ := List.mem_filter.mp isNode
    have own : ⟨source, node.table⟩ ∈ primary.dataNodes := by
      rw [← of_decide_eq_true here]
      exact nodesOf_subset run isRouted
    exact .cons ⟨rfl, own, fun _ => TableRule.exists_tableIndex? (TableRule.mem_tablesIn.mpr own)⟩ .nil
  product := by
    have free : isFree r primary primary.logicTable = true := by simp [isFree]
    rw [inSource_assignNodes, List.map_map]
    simp [choicesIn, combinations, Function.comp_def, free, List.map_eq_flatMap]

/-- Assignments that each go on with a seat of one more table. -/
theorem seats_concat (spread : Spread r primary source done routed as) (nonempty : done ≠ []) {a : Assignment} (member : a ∈ as)
    {y : String × String} (seat : Seat r primary source a.first y t) :
    List.Forall₂ (Seat r primary source (Assignment.first (a ++ [y]))) (a ++ [y]) (done ++ [t]) := by
  have seats := spread.seats a member
  have same : Assignment.first (a ++ [y]) = a.first := by
    cases a with
    | nil => exact absurd (List.forall₂_nil_left_iff.mp seats) nonempty
    | cons => rfl
  rw [same]
  exact List.rel_append seats (.cons seat .nil)

/-- A table that follows the primary table has no choices of its own. -/
theorem follow (spread : Spread r primary source done routed (inSource source assigned)) (nonempty : done ≠ [])
    (noChoice : isFree r primary t.logicTable = false) (followed : followPrimary primary t assigned = .ok assigned') :
    Spread r primary source (done ++ [t]) routed (inSource source assigned') := by
  have each := inSource_followPrimary followed source
  constructor
  · intro a' member
    obtain ⟨a, isAssigned, physical, found, rfl⟩ := exists_of_forall₂ each member
    refine spread.seats_concat nonempty isAssigned ⟨rfl, ?_, fun _ => ?_⟩
    all_goals
      obtain ⟨i, index, here⟩ := Option.bind_eq_some_iff.mp (elim_eq_ok_iff.mp found)
    · exact TableRule.mem_tablesIn.mp (List.mem_of_getElem? here)
    · exact ⟨i, index, here⟩
  · rw [← spread.product]
    generalize inSource source assigned = as, inSource source assigned' = as' at each
    clear spread
    induction each with
    | nil => rfl
    | cons first _ ih =>
      obtain ⟨physical, -, rfl⟩ := first
      rw [List.map_cons, List.map_cons, ih, List.filter_append, List.filter_singleton, noChoice]
      simp

/-- A table with its own choices stands in all combinations with the others. -/
theorem combine (spread : Spread r primary source done routed (inSource source assigned)) (nonempty : done ≠ [])
    (apart : t.logicTable ≠ primary.logicTable) (noBond : r.areBound primary.logicTable t.logicTable = false)
    (run : nodesOf s parameters none t = .ok nodes) :
    Spread r primary source (done ++ [t]) (routed ++ [(t, nodes)]) (inSource source (combineNodes t nodes assigned)) := by
  rw [inSource_combineNodes]
  constructor
  · intro a' member
    obtain ⟨a, isAssigned, added⟩ := List.mem_flatMap.mp member
    obtain ⟨table, inTables, rfl⟩ := List.mem_map.mp added
    obtain ⟨node, isNode, rfl⟩ := List.mem_map.mp inTables
    obtain ⟨isRouted, here⟩ := List.mem_filter.mp isNode
    refine spread.seats_concat nonempty isAssigned ⟨rfl, ?_, fun related => ?_⟩
    · rw [← of_decide_eq_true here]
      exact nodesOf_subset run isRouted
    · rcases related with rfl | bond
      · exact absurd rfl apart
      · rw [noBond] at bond
        cases bond
  · have free : isFree r primary t.logicTable = true := by simp [isFree, noBond]
    have choices : choicesIn source (routed ++ [(t, nodes)]) =
        choicesIn source routed ++ [(t.logicTable, tablesOf source nodes)] := by simp [choicesIn]
    rw [choices, combinations_concat, ← spread.product, List.map_flatMap, List.flatMap_map]
    refine List.flatMap_congr fun a _ => ?_
    rw [List.map_map]
    refine List.map_congr_left fun table _ => ?_
    simp [free]

/-- A further table follows the primary table, or it is routed and combined with the others. -/
theorem addTable_cases {t : TableRule} (added : addTable r primary s parameters assigned t = .ok assigned')
    (apart : t.logicTable ≠ primary.logicTable) :
    (isFree r primary t.logicTable = false ∧ followPrimary primary t assigned = .ok assigned') ∨
      ∃ nodes, isFree r primary t.logicTable = true ∧ r.areBound primary.logicTable t.logicTable = false ∧
        nodesOf s parameters none t = .ok nodes ∧ assigned' = combineNodes t nodes assigned := by
  rw [addTable] at added
  cases bond : r.areBound primary.logicTable t.logicTable with
  | true =>
    rw [bond, if_pos rfl] at added
    exact .inl ⟨by simp [isFree, apart, bond], added⟩
  | false =>
    rw [bond, if_neg Bool.false_ne_true] at added
    obtain ⟨pins, pinned, added⟩ := bind_eq_ok_iff.mp added
    obtain ⟨nodes, routed, added⟩ := bind_eq_ok_iff.mp added
    exact .inr ⟨nodes, by simp [isFree, bond], rfl, bind_eq_ok_iff.mpr ⟨pins, pinned, routed⟩, (pure_eq_ok_iff.mp added).symm⟩

/-- All further tables get their seats, and those of them that do not follow the primary table are routed. -/
theorem of_foldlM {others : List TableRule} (run : others.foldlM (addTable r primary s parameters) assigned = .ok assigned')
    (apart : ∀ t ∈ others, t.logicTable ≠ primary.logicTable) :
    ∃ rest, List.Forall₂ (fun t x => x.1 = t ∧ nodesOf s parameters none t = .ok x.2)
        (others.filter fun t => isFree r primary t.logicTable) rest ∧
      ∀ source done routed, done ≠ [] → Spread r primary source done routed (inSource source assigned) →
        Spread r primary source (done ++ others) (routed ++ rest) (inSource source assigned') := by
  induction others generalizing assigned with
  | nil =>
    obtain rfl := pure_eq_ok_iff.mp run
    exact ⟨[], .nil, fun source done routed _ spread => by rwa [List.append_nil, List.append_nil]⟩
  | cons t others ih =>
    obtain ⟨middle, added, run⟩ := bind_eq_ok_iff.mp run
    obtain ⟨rest, routes, spreads⟩ := ih run fun u member => apart u (List.mem_cons_of_mem t member)
    have apartFirst := apart t List.mem_cons_self
    rcases addTable_cases added apartFirst with ⟨noChoice, followed⟩ | ⟨nodes, free, noBond, route, rfl⟩
    · refine ⟨rest, ?_, fun source done routed nonempty spread => ?_⟩
      · rwa [List.filter_cons, if_neg (by simp [noChoice])]
      · rw [List.append_cons]
        exact spreads source _ _ (by simp) (spread.follow nonempty noChoice followed)
    · refine ⟨(t, nodes) :: rest, ?_, fun source done routed nonempty spread => ?_⟩
      · rw [List.filter_cons, if_pos free]
        exact .cons ⟨rfl, route⟩ routes
      · rw [List.append_cons, List.append_cons routed]
        exact spreads source _ _ (by simp) (spread.combine nonempty apartFirst noBond route)

end Spread

/-! ## Ruled tables -/

section Ruled

variable {r : Rule} {s : Statement} {others : List TableRule}

theorem Rule.sameName_of_find? {logic : String} (found : r.find? logic = some t) : Text.sameName t.logicTable logic = true := by
  simpa using List.find?_some found

/-- Ruled tables of a statement with distinct names have distinct names. -/
theorem distinct_ruledTables (distinct : Sql.Distinct s.tables.names) :
    Sql.Distinct ((ruledTables r s).map (·.logicTable)) := by
  refine List.pairwise_map.mpr (List.pairwise_filterMap.mpr (distinct.imp fun {a b} apart t first u second => ?_))
  rw [Bool.eq_false_iff] at apart ⊢
  intro same
  have ofFirst := Text.sameName_comm .. ▸ Rule.sameName_of_find? first
  exact apart (Text.sameName_trans (Text.sameName_trans ofFirst same) (Rule.sameName_of_find? second))

theorem logicTable_ne (distinct : Sql.Distinct s.tables.names) (ruled : ruledTables r s = primary :: others) :
    ∀ t ∈ others, t.logicTable ≠ primary.logicTable := by
  have apart := distinct_ruledTables (r := r) distinct
  rw [ruled, List.map_cons] at apart
  intro t member same
  have different := (List.pairwise_cons.mp apart).1 t.logicTable (List.mem_map_of_mem member)
  rw [same, Text.sameName_refl] at different
  cases different

end Ruled

/-! ## Assignments of the units -/

variable {r : Rule} {s : Statement} {sql : String} {parameters : List Value} {key : Value} {result : RouteResult}
  {others : List TableRule} {d : Dialect} {a : Assignment}

/-- The entry of an assignment for a name, in any letter case. -/
def Assignment.find? (a : Assignment) (name : String) : Option String :=
  (List.find? (fun y => Text.sameName y.1 name) a).map (·.2)

/-- Names that are distinct can be looked up from either end. -/
theorem physicalTable?_reverse (distinct : Sql.Distinct (a.map (·.1))) (name : String) (rowCount offset : Option Int64)
    (generatedKey : Option GeneratedKey) :
    Target.physicalTable? ⟨a.reverse, rowCount, offset, generatedKey⟩ name = a.find? name := by
  have apart : a.Pairwise fun x y => Text.sameName x.1 y.1 = false := List.pairwise_map.mp distinct
  induction a with
  | nil => rfl
  | cons y a ih =>
    obtain ⟨first, rest⟩ := List.pairwise_cons.mp apart
    have later := ih (List.pairwise_cons.mp distinct).2 rest
    rw [Target.physicalTable?] at later ⊢
    dsimp only at later ⊢
    rw [List.reverse_cons, List.find?_append, Option.map_or, later, Assignment.find?, Assignment.find?]
    by_cases named : Text.sameName y.1 name = true
    · have none : List.find? (fun y => Text.sameName y.1 name) a = none := by
        refine List.find?_eq_none.mpr fun x member same => ?_
        have clash := Text.sameName_trans named (Text.sameName_comm .. ▸ same)
        rw [first x member] at clash
        cases clash
      simp [none, named]
    · simp [named]

/-- The text of a unit is that of the statement with each name that an assignment has an entry for replaced by it, in the same
quotes. -/
def ExecutionUnit.Names (u : ExecutionUnit) (sql : String) (ts : List Token) (points : List RewritePoint) (a : Assignment) : Prop :=
  ∃ new, Replaced new 0 sql.toList ts u.sql.toList ∧ ∀ span name quote, .table span name quote ∈ points →
    ∃ t ∈ ts, t.span = span ∧ new t = (a.find? name).map fun physical => (quote.elim physical (·.quote physical)).toList

theorem replaceBound_tables (rewritten : Target → Int64 → Target) (kept : ∀ t n, (rewritten t n).tables = t.tables)
    (w : WidenedBounds) (b : Sql.Bound) (n : Int64) : (replaceBound rewritten w b n).target.tables = w.target.tables := by
  cases b with
  | literal => exact kept ..
  | placeholder => rfl

theorem widen_tables (limit : Sql.Limit) (p : Pagination) (w : WidenedBounds) :
    (widen limit p w).target.tables = w.target.tables := by
  have offsetTables : (limit.offset.elim w fun b =>
      replaceBound (fun t n => { t with offset := some n }) w b 0).target.tables = w.target.tables := by
    cases limit.offset with
    | none => rfl
    | some b => exact replaceBound_tables (fun t n => { t with offset := some n }) (fun _ _ => rfl) w b 0
  dsimp only [widen]
  split
  · exact (replaceBound_tables (fun t n => { t with rowCount := some n }) (fun _ _ => rfl) _ _ _).trans offsetTables
  · exact offsetTables

/-- Bounds give no table a name. -/
theorem paginate_tables {count : Nat} {w : WidenedBounds} (paginated : paginate s count parameters = .ok w) :
    w.target.tables = [] := by
  unfold paginate at paginated
  split at paginated
  · cases paginated
    rfl
  · split at paginated
    · cases paginated
      rfl
    · obtain ⟨⟨offset, rowCount⟩, -, run⟩ := bind_eq_ok_iff.mp paginated
      obtain rfl := pure_eq_ok_iff.mp run
      split
      · exact widen_tables ..
      · rfl

/-- The units of a statement with ruled tables are those of its assignments. -/
theorem placements_of_route (ruled : ruledTables r s = primary :: others) (routed : route r s sql parameters key = .ok result) :
    ∃ nodes assigned w, nodesOf s parameters ((keyColumn? r s).map (GeneratedKey.mk · key)) primary = .ok nodes ∧
      others.foldlM (addTable r primary s parameters) (assignNodes primary nodes) = .ok assigned ∧
      Target.tables (WidenedBounds.target w) = [] ∧
      List.Forall₂ (fun x u => unitOf s sql w x.1 x.2 = .ok u) (placements assigned) result.units := by
  obtain ⟨noTable, -⟩ | ⟨primary', others', nodes, assigned, w, units, ruled', first, added, paginated, made, rfl⟩ :=
    route_cases routed
  · cases ruled.symm.trans noTable
  cases ruled.symm.trans ruled'
  have noTables := paginate_tables paginated
  exact ⟨nodes, assigned, { w with target.generatedKey := (keyColumn? r s).map (GeneratedKey.mk · key) }, first, added,
    noTables, made⟩

/-- A unit names the tables of its assignment. -/
theorem names_of_unitOf {ts : List Token} {e : Place} (reads : Sql.Reads d .start sql.toList ts e)
    (sited : Sql.Sited ts s.points) {w : WidenedBounds} (noTables : w.target.tables = []) {u : ExecutionUnit}
    (distinct : Sql.Distinct (a.map (·.1))) (made : unitOf s sql w source a = .ok u) :
    u.dataSource = source ∧ u.Names sql ts s.points a := by
  obtain rfl := unitOf_eq_ok made
  rw [noTables, List.append_nil]
  have laid := Sql.laid_of_reads reads
  have written : Sql.Written d 0 sql.toList ts := Sql.written_of_reads reads
  have named : Target.physicalTable? { w.target with tables := a.reverse } = a.find? :=
    funext fun name => physicalTable?_reverse distinct name _ _ _
  generalize { w.target with tables := a.reverse } = target at named ⊢
  refine ⟨rfl, fun t => (target.editOf? (!w.parameters.isEmpty) s.points t).map (Rewrite.Edit.spelling t), ?_,
    fun span name quote member => ?_⟩
  · rw [String.toList_ofList, Target.applyFrom_edits laid.spaced sited written]
    exact Rewrite.replaced_applyFrom laid
  · obtain ⟨t, inText, placed⟩ := (sited.stands _ member).token rfl
    refine ⟨t, inText, placed.1, ?_⟩
    rw [← named]
    exact Target.spelling_editOf? laid.spaced sited inText member placed

/-- Entries with the same name in an assignment of distinct names are one. -/
theorem eq_of_sameName (distinct : Sql.Distinct (a.map (·.1))) {x y : String × String} (first : x ∈ a) (second : y ∈ a)
    (same : Text.sameName x.1 y.1 = true) : x = y := by
  have apart : a.Pairwise fun x y => Text.sameName x.1 y.1 = true → x = y :=
    (List.pairwise_map.mp distinct).imp fun other same => by rw [other] at same; cases same
  have apart' : a.Pairwise fun x y => Text.sameName y.1 x.1 = true → y = x :=
    apart.imp fun unique same => (unique (Text.sameName_comm .. ▸ same)).symm
  exact apart.forall_of_forall_of_flip (fun _ _ _ => rfl) apart' first second same

theorem find?_eq_some (distinct : Sql.Distinct (a.map (·.1))) {y : String × String} (member : y ∈ a) :
    a.find? y.1 = some y.2 := by
  rw [Assignment.find?, Option.map_eq_some_iff]
  cases found : List.find? (fun x => Text.sameName x.1 y.1) a with
  | none => exact absurd (Text.sameName_refl y.1) (List.find?_eq_none.mp found y member)
  | some x =>
    have same : Text.sameName x.1 y.1 = true := by simpa using List.find?_some found
    exact ⟨x, rfl, congrArg Prod.snd (eq_of_sameName distinct (List.mem_of_find?_eq_some found) member same)⟩

/-- Every one of some ruled tables has exactly one entry in an assignment, and this is a node of its own in the data source. -/
structure Assignment.Covers (a : Assignment) (source : String) (tables : List TableRule) : Prop where
  names : a.map (·.1) = tables.map (·.logicTable)
  node : ∀ t ∈ tables, ∃ physical, a.find? t.logicTable = some physical ∧ ⟨source, physical⟩ ∈ t.dataNodes ∧
    ∀ y ∈ a, Text.sameName y.1 t.logicTable = true → y = (t.logicTable, physical)

/-- Seats of tables with distinct names are the entries of an assignment that covers them. -/
theorem covers_of_seats {first : String} {tables : List TableRule} (seats : List.Forall₂ (Seat r primary source first) a tables)
    (distinct : Sql.Distinct (tables.map (·.logicTable))) : a.Covers source tables := by
  have names : a.map (·.1) = tables.map (·.logicTable) := by
    clear distinct
    induction seats with
    | nil => rfl
    | cons seat _ ih => exact congrArg₂ List.cons seat.logic ih
  rw [← names] at distinct
  refine ⟨names, fun t member => ?_⟩
  obtain ⟨⟨logic, physical⟩, inside, seat⟩ := exists_of_forall₂ seats member
  obtain rfl : logic = t.logicTable := seat.logic
  exact ⟨physical, find?_eq_some distinct inside, seat.node, fun y member => eq_of_sameName distinct member inside⟩

/-- The units of a statement with ruled tables are those of assignments that are spread over the tables. -/
theorem spread_of_route (parsed : Sql.parse d sql = .ok s) (ruled : ruledTables r s = primary :: others)
    (routed : route r s sql parameters key = .ok result) : ∃ nodes rest assigned w,
      nodesOf s parameters ((keyColumn? r s).map (GeneratedKey.mk · key)) primary = .ok nodes ∧
      List.Forall₂ (fun t x => x.1 = t ∧ nodesOf s parameters none t = .ok x.2)
        (others.filter fun t => isFree r primary t.logicTable) rest ∧
      (∀ source, Spread r primary source (primary :: others) ((primary, nodes) :: rest) (inSource source assigned)) ∧
      Target.tables (WidenedBounds.target w) = [] ∧
      List.Forall₂ (fun x u => unitOf s sql w x.1 x.2 = .ok u) (placements assigned) result.units := by
  obtain ⟨nodes, assigned, w, first, added, noTables, made⟩ := placements_of_route ruled routed
  obtain ⟨rest, routes, spreads⟩ := Spread.of_foldlM added (logicTable_ne (Sql.distinct_of_parse parsed) ruled)
  exact ⟨nodes, rest, assigned, w, first, routes,
    fun source => spreads source [primary] [(primary, nodes)] (List.cons_ne_nil _ _) (.of_primary first), noTables, made⟩

theorem mem_inSource {x : String × Assignment} (member : x ∈ placements assigned) : x.2 ∈ inSource x.1 assigned := by
  rw [← filter_placements]
  exact List.mem_map_of_mem (List.mem_filter.mpr ⟨member, decide_eq_true rfl⟩)

/-- Every unit of a statement with ruled tables stands for one assignment. The assignment gives each ruled table one of its own
nodes in the unit's data source, and the text of the unit names it wherever the statement names the table. In each data source
the tables that do not follow the first one are assigned to the nodes that they are routed to in all combinations. -/
theorem assignments_of_route (parsed : Sql.parse d sql = .ok s) (ruled : ruledTables r s = primary :: others)
    (routed : route r s sql parameters key = .ok result) :
    ∃ ts e nodes rest, ∃ placed : List (String × Assignment), Sql.tokenize d sql = .ok (ts ++ [Token.endAt e]) ∧
      List.Forall₂ (fun x u => x.2.Covers x.1 (ruledTables r s) ∧ u.dataSource = x.1 ∧ u.Names sql ts s.points x.2)
        placed result.units ∧
      nodesOf s parameters ((keyColumn? r s).map (GeneratedKey.mk · key)) primary = .ok nodes ∧
      List.Forall₂ (fun t x => x.1 = t ∧ nodesOf s parameters none t = .ok x.2)
        (others.filter fun t => isFree r primary t.logicTable) rest ∧
      ∀ source, ((placed.filter fun x => x.1 = source).map fun x => x.2.filter fun y => isFree r primary y.1) =
        combinations (choicesIn source ((primary, nodes) :: rest)) := by
  obtain ⟨e, ts, reads, sited⟩ := Sql.sited_of_parse parsed
  have distinct := distinct_ruledTables (r := r) (Sql.distinct_of_parse parsed)
  obtain ⟨nodes, rest, assigned, w, first, routes, spread, noTables, made⟩ := spread_of_route parsed ruled routed
  have covered (x : String × Assignment) (member : x ∈ placements assigned) : x.2.Covers x.1 (ruledTables r s) := by
    rw [ruled] at distinct ⊢
    exact covers_of_seats ((spread x.1).seats x.2 (mem_inSource member)) distinct
  refine ⟨ts, e, nodes, rest, placements assigned, Sql.tokenize_of_reads reads, ?_, first, routes, fun source => ?_⟩
  · refine ((List.forall₂_and_left _ _).mpr ⟨covered, made⟩).imp fun x u ⟨covers, made⟩ => ⟨covers, ?_⟩
    exact names_of_unitOf reads sited noTables (covers.names ▸ distinct) made
  · rw [← (spread source).product, ← filter_placements, List.map_map]
    rfl

/-- Two tables that are spread alike, and one that lies apart from them. -/
def pairRule : Rule where
  dataSources := ["ds"]
  defaultDataSource := none
  tables := [⟨"a", [⟨"ds", "a_0"⟩, ⟨"ds", "a_1"⟩], none, none, none⟩,
    ⟨"b", [⟨"ds", "b_0"⟩, ⟨"ds", "b_1"⟩], none, none, none⟩,
    ⟨"c", [⟨"ds", "c_0"⟩, ⟨"ds", "c_1"⟩], none, none, none⟩]
  bindingGroups := [["a", "b"]]

/-- A query of all of them. -/
def pairQuery : Statement where
  kind := .select
  tables := ⟨[⟨"A", none⟩, ⟨"b", none⟩, ⟨"c", none⟩]⟩
  conditions := .empty
  points := [.table ⟨14, 17⟩ "A" (some .backtick), .table ⟨19, 20⟩ "b" none, .table ⟨22, 23⟩ "c" none]
  parameterCount := 0
  limit := none
  insertColumns := []
  insertRows := 0
  qualifiers := []

/-- The second table follows the first one, and the third one is combined with both. -/
theorem assignments_of_route_pair : ∃ ts e units,
    Sql.parse .mysql "SELECT x FROM `A`, b, c" = .ok pairQuery ∧
    Sql.tokenize .mysql "SELECT x FROM `A`, b, c" = .ok (ts ++ [Token.endAt e]) ∧
    route pairRule pairQuery "SELECT x FROM `A`, b, c" [] .null = .ok ⟨.select, units, none, none⟩ ∧
    units.map (·.sql) = ["SELECT x FROM `a_0`, b_0, c_0", "SELECT x FROM `a_0`, b_0, c_1",
      "SELECT x FROM `a_1`, b_1, c_0", "SELECT x FROM `a_1`, b_1, c_1"] ∧
    ∃ placed : List (String × Assignment), List.Forall₂ (fun x u => x.2.Covers x.1 pairRule.tables ∧ u.dataSource = x.1 ∧
      u.Names "SELECT x FROM `A`, b, c" ts pairQuery.points x.2) placed units := by
  have drafted : Sql.draft? .mysql "SELECT x FROM `A`, b, c" = some (pairQuery, 0) := by decide +kernel
  have parsed := Sql.parse_of_draft drafted
  have finished : pairQuery.finish 0 = pairQuery := by cbv
  rw [finished] at parsed
  have ruled : ruledTables pairRule pairQuery = pairRule.tables := by cbv
  have routed : route pairRule pairQuery "SELECT x FROM `A`, b, c" [] .null = .ok ⟨.select,
      [⟨"ds", "SELECT x FROM `a_0`, b_0, c_0", []⟩, ⟨"ds", "SELECT x FROM `a_0`, b_0, c_1", []⟩,
        ⟨"ds", "SELECT x FROM `a_1`, b_1, c_0", []⟩, ⟨"ds", "SELECT x FROM `a_1`, b_1, c_1", []⟩], none, none⟩ := by
    cbv
  obtain ⟨ts, e, _, _, placed, tokens, units, -⟩ := assignments_of_route parsed ruled routed
  exact ⟨ts, e, _, parsed, tokens, routed, rfl, placed, ruled ▸ units⟩

/-! ## Tables that stand together -/

/-- Nodes that are listed once have different tables in each data source. -/
theorem nodup_tablesOf (nodup : nodes.Nodup) (source : String) : (tablesOf source nodes).Nodup := by
  refine (nodup.filter _).map_on ?_
  rintro ⟨source', table⟩ first ⟨source'', table'⟩ second same
  have here : source' = source := of_decide_eq_true (List.mem_filter.mp first).2
  have here' : source'' = source := of_decide_eq_true (List.mem_filter.mp second).2
  exact congrArg₂ DataNode.mk (here.trans here'.symm) same

theorem TableRule.nodup_tablesIn (nodup : t.dataNodes.Nodup) (source : String) : (t.tablesIn source).Nodup :=
  nodup_tablesOf nodup source

/-- The position of a seat, when no node is listed twice. -/
theorem Seat.tableIndex?_eq {first : String} {i : Nat} {y : String × String} (seat : Seat r primary source first y t)
    (related : t = primary ∨ r.areBound primary.logicTable t.logicTable = true) (nodup : t.dataNodes.Nodup)
    (index : primary.tableIndex? source first = some i) : t.tableIndex? source y.2 = some i := by
  obtain ⟨j, index', here⟩ := seat.beside related
  obtain rfl := Option.some.inj (index'.symm.trans index)
  obtain ⟨k, known, here'⟩ := TableRule.exists_tableIndex? (TableRule.mem_tablesIn.mpr seat.node)
  have inside : k < (t.tablesIn source).length := (List.getElem?_eq_some_iff.mp here').1
  rw [known, (List.getElem?_inj inside (TableRule.nodup_tablesIn nodup source)).mp (here'.trans here.symm)]

/-- In every unit the first ruled table and all tables that are bound to it stand at one position of their lists, if these name
no node twice. -/
theorem together_of_route (parsed : Sql.parse d sql = .ok s) (ruled : ruledTables r s = primary :: others)
    (nodup : ∀ t ∈ ruledTables r s, t.dataNodes.Nodup) (routed : route r s sql parameters key = .ok result) :
    ∃ ts e, ∃ placed : List (String × Assignment), Sql.tokenize d sql = .ok (ts ++ [Token.endAt e]) ∧
      List.Forall₂ (fun x u => (u.dataSource = x.1 ∧ u.Names sql ts s.points x.2) ∧ ∃ i, ∀ t ∈ ruledTables r s,
        t = primary ∨ r.areBound primary.logicTable t.logicTable = true →
          ∃ physical, x.2.find? t.logicTable = some physical ∧ t.tableIndex? x.1 physical = some i) placed result.units := by
  obtain ⟨e, ts, reads, sited⟩ := Sql.sited_of_parse parsed
  have distinct := distinct_ruledTables (r := r) (Sql.distinct_of_parse parsed)
  obtain ⟨nodes, rest, assigned, w, first, routes, spread, noTables, made⟩ := spread_of_route parsed ruled routed
  have seated (x : String × Assignment) (member : x ∈ placements assigned) :
      List.Forall₂ (Seat r primary x.1 x.2.first) x.2 (ruledTables r s) := by
    rw [ruled]
    exact (spread x.1).seats x.2 (mem_inSource member)
  refine ⟨ts, e, placements assigned, Sql.tokenize_of_reads reads, ?_⟩
  refine ((List.forall₂_and_left _ _).mpr ⟨seated, made⟩).imp fun x u ⟨seats, made⟩ => ?_
  have names := (covers_of_seats seats distinct).names ▸ distinct
  have isPrimary : primary ∈ ruledTables r s := ruled ▸ List.mem_cons_self
  obtain ⟨y, -, seat⟩ := exists_of_forall₂ seats isPrimary
  obtain ⟨i, index, -⟩ := seat.beside (.inl rfl)
  refine ⟨names_of_unitOf reads sited noTables names made, i, fun t isRuled related => ?_⟩
  obtain ⟨⟨logic, physical⟩, inside, seat⟩ := exists_of_forall₂ seats isRuled
  obtain rfl : logic = t.logicTable := seat.logic
  exact ⟨physical, find?_eq_some names inside, seat.tableIndex?_eq related (nodup t isRuled) index⟩

/-- Tables that are bound to each other but not to the first table do not follow each other. -/
example : (pairRule.tables.take 2).foldlM (addTable pairRule ⟨"c", [⟨"ds", "c_0"⟩], none, none, none⟩ pairQuery [])
    [("ds", [[("c", "c_0")]])] = .ok [("ds", [[("c", "c_0"), ("a", "a_0"), ("b", "b_0")], [("c", "c_0"), ("a", "a_0"), ("b", "b_1")],
      [("c", "c_0"), ("a", "a_1"), ("b", "b_0")], [("c", "c_0"), ("a", "a_1"), ("b", "b_1")]])] := by
  cbv

end Routing

end SqlSharding
