import Mathlib
import SqlSharding.Proofs.Outcomes
import SqlSharding.Routing.Configuration

/-!
# Rules that configurations describe

The data sources and sharding columns of a table are listed once each. Every table of a rule that was built from a configuration
lies on some data node; declaring binding groups leaves the tables as they are.
-/

namespace SqlSharding.Routing

/-! ## Elements without repetitions -/

section distinct

variable {α : Type} [DecidableEq α]

theorem mem_distinct {xs : List α} {x : α} : x ∈ distinct xs ↔ x ∈ xs := by
  have folded : ∀ seen : List α, x ∈ xs.foldl (fun seen y => if y ∈ seen then seen else seen ++ [y]) seen ↔ x ∈ seen ∨ x ∈ xs := by
    induction xs with
    | nil => simp
    | cons y ys ih =>
      intro seen
      rw [List.foldl_cons, ih, List.mem_cons]
      by_cases old : y ∈ seen
      · rw [if_pos old]
        refine ⟨Or.imp_right .inr, ?_⟩
        rintro (seen | rfl | later)
        · exact .inl seen
        · exact .inl old
        · exact .inr later
      · rw [if_neg old, List.mem_append, List.mem_singleton, or_assoc]
  rw [distinct, folded]
  exact or_iff_right List.not_mem_nil

theorem nodup_distinct (xs : List α) : (distinct xs).Nodup := by
  have folded : ∀ seen : List α, seen.Nodup → (xs.foldl (fun seen y => if y ∈ seen then seen else seen ++ [y]) seen).Nodup := by
    induction xs with
    | nil => exact fun _ nodup => nodup
    | cons y ys ih =>
      intro seen nodup
      rw [List.foldl_cons]
      refine ih _ ?_
      split
      · exact nodup
      · next new =>
        exact nodup.append (List.nodup_singleton y) fun x old same => new (List.mem_singleton.mp same ▸ old)
  exact folded [] List.nodup_nil

theorem distinct_concat (xs : List α) (x : α) :
    distinct (xs ++ [x]) = if x ∈ distinct xs then distinct xs else distinct xs ++ [x] := by
  rw [distinct, List.foldl_append]
  rfl

end distinct

/-! ## Tables -/

variable {t : TableRule}

theorem TableRule.mem_dataSources {source : String} :
    source ∈ t.dataSources ↔ ∃ table, ⟨source, table⟩ ∈ t.dataNodes := by
  rw [dataSources, mem_distinct, List.mem_map]
  constructor
  · rintro ⟨⟨source, table⟩, member, rfl⟩
    exact ⟨table, member⟩
  · rintro ⟨table, member⟩
    exact ⟨_, member, rfl⟩

theorem TableRule.mem_shardingColumns {c : String} :
    c ∈ t.shardingColumns ↔ ∃ s, (t.databaseStrategy = some s ∨ t.tableStrategy = some s) ∧ c ∈ s.columns := by
  simp only [shardingColumns, mem_distinct, List.mem_flatMap, List.mem_append, Option.mem_toList]

theorem TableRule.dataNodes_of_eq_ok {logic : String} {nodes : List DataNode} {database table : Option Strategy}
    {key : Option String} (made : TableRule.of logic nodes database table key = .ok t) : t.dataNodes ≠ [] := by
  rw [TableRule.of] at made
  split at made
  · cases made
  · next some =>
    cases made
    simpa using some

/-! ## Built rules -/

variable {r : Rule} {c : Configuration} {expressions : Expressions}

theorem Rule.bind_tables {r' : Rule} {names : List String} (bound : r.bind names = .ok r') : r'.tables = r.tables := by
  rw [Rule.bind] at bound
  split at bound
  · cases bound
  · cases bound
    rfl

theorem Rule.tables_of_foldlM {groups : List (List String)} {r' : Rule} (bound : groups.foldlM Rule.bind r = .ok r') :
    r'.tables = r.tables := by
  induction groups generalizing r with
  | nil => exact congrArg Rule.tables (pure_eq_ok_iff.mp bound).symm
  | cons names groups ih =>
    obtain ⟨next, first, bound⟩ := bind_eq_ok_iff.mp bound
    rw [ih bound, Rule.bind_tables first]

/-- The tables of a built rule come from the configured ones. -/
theorem Configuration.exists_of_mem_tables (built : c.rule expressions = .ok r) (member : t ∈ r.tables) :
    ∃ x ∈ c.tables, c.tableRule expressions x = .ok t := by
  obtain ⟨tables, each, built⟩ := bind_eq_ok_iff.mp built
  rw [Rule.tables_of_foldlM built] at member
  exact exists_of_mem_mapM each member

theorem Configuration.dataNodes_ne_nil (built : c.rule expressions = .ok r) (member : t ∈ r.tables) : t.dataNodes ≠ [] := by
  obtain ⟨x, -, run⟩ := Configuration.exists_of_mem_tables built member
  obtain ⟨nodes, -, run⟩ := bind_eq_ok_iff.mp run
  obtain ⟨_, -, run⟩ := bind_eq_ok_iff.mp run
  obtain ⟨database, -, run⟩ := bind_eq_ok_iff.mp run
  obtain ⟨table, -, run⟩ := bind_eq_ok_iff.mp run
  exact TableRule.dataNodes_of_eq_ok run

end SqlSharding.Routing
