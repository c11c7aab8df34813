import SqlSharding.Proofs.GatheredStatements

/-!
# Conditions of several blocks

A statement has one list of conditions, to which its query blocks and the groups of its conditions all add. What a walk
adds later comes behind, so as long as the conditions stay usable the first condition on a column stays the first one:
a block narrows the tables of the blocks after it, and the conditions of a group stay whatever is done with its value.
-/

namespace SqlSharding.Sql

variable {d : Dialect} {p : Place} {ts before left : List Token} {r : Bool} {depth : Nat} {s t u : WalkState}

/-- What walks after a block leave in front. -/
theorem Walk.Gathering.entries_prefix {α : Type} {m : Walk α} {a : α} (gathering : Walk.Gathering d p ts r m)
    (whole : ts = before ++ left) (poised : Poised d p before left s) (run : m s = .ok a u)
    (usable : u.statement.conditions.usable = true) :
    s.statement.conditions.entries <+: u.statement.conditions.entries := by
  obtain ⟨taken, later, -, -, gathered⟩ := gathering before left s a u whole poised run
  exact (gathered.grows usable).2

/-! ## Set operations -/

/-- The condition that the first block of a set operation has on a column of a table is the condition of the whole query
on it, whichever block the table belongs to. -/
theorem find?_of_firstBlock (proper : Proper ts) (whole : ts = before ++ left) (poised : Poised d p before left s)
    (first : Walk.selectWithin depth r s = .ok () t) (others : Walk.queryEnd depth r t = .ok () u)
    (usable : u.statement.conditions.usable = true) {table column : String} {c : Condition}
    (found : t.statement.conditions.find? table column = some c) : u.statement.conditions.find? table column = some c := by
  have nested : NestedGathering d p ts depth := .all proper depth
  obtain ⟨taken, later, split, poised', -⟩ := nested.select r before left s () t whole poised first
  have ending : Walk.Gathering d p ts r (Walk.queryEnd depth r) := nested.queryEnd proper r
  have kept := ending.entries_prefix (by rw [whole, split, List.append_assoc]) poised' others usable
  exact kept.find?_eq_some found

/-- The second block reads all orders, and still the condition of the first one stands for the whole query. -/
example : (parse .generic "SELECT user_id FROM orders WHERE user_id = 1 UNION SELECT user_id FROM orders").map (·.conditions) =
    .ok ⟨[⟨⟨none, "user_id"⟩, .equal, [.literal (.integer 1)]⟩], true⟩ := by
  decide +kernel

/-! ## Groups -/

/-- Whatever follows a group of conditions, the conditions of the group stay. -/
theorem entries_of_group (proper : Proper ts) (whole : ts = before ++ left) (poised : Poised d p before left s)
    (inside : Walk.conditionsWithin depth s = .ok () t)
    (rest : (do discard (Walk.expect (.symbol .rightParen)); Walk.expressionWithin depth TokenKind.endsCondition) t = .ok () u)
    (usable : u.statement.conditions.usable = true) :
    t.statement.conditions.entries <+: u.statement.conditions.entries := by
  have nested : NestedGathering d p ts depth := .all proper depth
  obtain ⟨taken, later, split, poised', -⟩ := nested.conditions before left s () t whole poised inside
  have tail : Walk.Gathering d p ts false
      (do discard (Walk.expect (.symbol .rightParen)); Walk.expressionWithin depth TokenKind.endsCondition) :=
    .bind (.expect proper _) fun _ => nested.expression _
  exact tail.entries_prefix (by rw [whole, split, List.append_assoc]) poised' rest usable

/-- The rows that are asked for here are those whose `id` is not `1`, and still the condition of the group is recorded. -/
example : (parse .mysql "SELECT a FROM t WHERE (id = 1) = 0").map (·.conditions) =
    .ok ⟨[⟨⟨none, "id"⟩, .equal, [.literal (.integer 1)]⟩], true⟩ := by
  decide +kernel

end SqlSharding.Sql
