import SqlSharding.Client.Statement
import SqlSharding.Proofs.Answers
import SqlSharding.Proofs.Rules

/-!
# Batches

The units of the entries of a batch run in groups, one for each statement at each data source. Every unit is in one group,
and of the counts that the group's batch gives the unit's own one is added to the total of the unit's entry.
-/

namespace SqlSharding.Execution

open Physical (Backend)
open Routing (ExecutionUnit distinct)

/-! ## Groups -/

/-- The units of all entries in their order, each with the number of its entry. -/
def placed (entries : List (List ExecutionUnit)) : List (Nat × ExecutionUnit) :=
  entries.zipIdx.flatMap fun (units, entry) => units.map (entry, ·)

/-- Where a unit runs, and what. -/
def statementOf (p : Nat × ExecutionUnit) : String × String := (p.2.dataSource, p.2.sql)

/-- The units with a statement as a group, in their order. -/
def groupOf (ps : List (Nat × ExecutionUnit)) (statement : String × String) : BatchGroup :=
  let members := ps.filter fun p => statementOf p = statement
  ⟨statement.1, statement.2, members.map (·.2.parameters), members.map Prod.fst⟩

/-- The units of a group. -/
def BatchGroup.members (g : BatchGroup) : List (Nat × ExecutionUnit) :=
  (g.batchIndexes.zip g.parameterSets).map fun (entry, parameters) => (entry, ⟨g.dataSource, g.sql, parameters⟩)

section
variable {ps : List (Nat × ExecutionUnit)} {p : Nat × ExecutionUnit} {statement : String × String}

theorem groupOf_concat_same : groupOf (ps ++ [p]) (statementOf p) =
    { groupOf ps (statementOf p) with
      parameterSets := (groupOf ps (statementOf p)).parameterSets ++ [p.2.parameters]
      batchIndexes := (groupOf ps (statementOf p)).batchIndexes ++ [p.1] } := by
  simp [groupOf]

theorem groupOf_concat_other (other : statementOf p ≠ statement) : groupOf (ps ++ [p]) statement = groupOf ps statement := by
  simp [groupOf, other]

theorem addToGroup_other {rest : List BatchGroup} (other : statementOf p ≠ statement) :
    addToGroup (groupOf ps statement :: rest) p.1 p.2 = groupOf (ps ++ [p]) statement :: addToGroup rest p.1 p.2 := by
  rw [addToGroup, groupOf_concat_other other, if_neg]
  rw [Bool.and_eq_true, decide_eq_true_eq, decide_eq_true_eq]
  exact fun same => other (Prod.ext same.1.symm same.2.symm)

/-- A unit joins the group of its statement. -/
theorem addToGroup_joins {statements : List (String × String)} (nodup : statements.Nodup) (member : statementOf p ∈ statements) :
    addToGroup (statements.map (groupOf ps)) p.1 p.2 = statements.map (groupOf (ps ++ [p])) := by
  induction statements with
  | nil => cases member
  | cons statement rest ih =>
    obtain ⟨absent, nodup⟩ := List.nodup_cons.mp nodup
    rw [List.map_cons, List.map_cons]
    by_cases same : statementOf p = statement
    · subst same
      have others : rest.map (groupOf (ps ++ [p])) = rest.map (groupOf ps) :=
        List.map_congr_left fun other member => groupOf_concat_other fun same => absent (same ▸ member)
      rw [addToGroup, if_pos (by simp [groupOf, statementOf]), others, groupOf_concat_same]
    · rw [addToGroup_other same, ih nodup (List.mem_of_ne_of_mem same member)]

/-- A unit with a new statement founds a group. -/
theorem addToGroup_founds {statements : List (String × String)} (absent : statementOf p ∉ statements)
    (isNew : ∀ q ∈ ps, statementOf q ≠ statementOf p) :
    addToGroup (statements.map (groupOf ps)) p.1 p.2 = (statements ++ [statementOf p]).map (groupOf (ps ++ [p])) := by
  induction statements with
  | nil =>
    have none : ps.filter (fun q => statementOf q = statementOf p) = [] := by
      simpa only [List.filter_eq_nil_iff, decide_eq_true_eq] using isNew
    rw [List.nil_append, List.map_singleton, groupOf_concat_same, groupOf, none]
    rfl
  | cons statement rest ih =>
    obtain ⟨other, absent⟩ := not_or.mp (List.mem_cons.not.mp absent)
    rw [List.map_cons, addToGroup_other other, ih absent, List.cons_append, List.map_cons]

end

/-- The groups of a batch: one for each statement, in the order in which the statements first occur, and each with all
units that have its statement. -/
theorem groupBatch_eq (entries : List (List ExecutionUnit)) :
    groupBatch entries = (distinct ((placed entries).map statementOf)).map (groupOf (placed entries)) := by
  have flat : groupBatch entries = (placed entries).foldl (fun groups p => addToGroup groups p.1 p.2) [] := by
    rw [groupBatch, placed, List.foldl_flatMap]
    simp only [List.foldl_map]
  rw [flat]
  induction placed entries using List.reverseRecOn with
  | nil => rfl
  | append_singleton ps p ih =>
    rw [List.foldl_append, List.foldl_cons, List.foldl_nil, ih, List.map_append, List.map_singleton, Routing.distinct_concat]
    split
    · next member => exact addToGroup_joins (Routing.nodup_distinct _) member
    · next absent =>
      refine addToGroup_founds absent fun q member same => absent ?_
      rw [← same, Routing.mem_distinct]
      exact List.mem_map_of_mem member

theorem members_groupOf (ps : List (Nat × ExecutionUnit)) (statement : String × String) :
    (groupOf ps statement).members = ps.filter fun p => statementOf p = statement := by
  rw [groupOf, BatchGroup.members, List.zip_map', List.map_map]
  refine (List.map_congr_left fun p member => ?_).trans (List.map_id _)
  obtain rfl : statementOf p = statement := by simpa using (List.mem_filter.mp member).2
  rfl

/-! ## Lists in parts -/

section
variable {κ : Type} [DecidableEq κ] {γ : Type} {β : Type}

/-- A list is put together from the parts of its elements with each key. -/
theorem flatMap_filter_perm {key : γ → κ} {keys : List κ} {xs : List γ} (nodup : keys.Nodup) (covers : ∀ x ∈ xs, key x ∈ keys) :
    (keys.flatMap fun k => xs.filter fun x => key x = k).Perm xs := by
  induction keys generalizing xs with
  | nil =>
    obtain rfl : xs = [] := List.eq_nil_iff_forall_not_mem.mpr fun x member => List.not_mem_nil (covers x member)
    exact List.Perm.refl []
  | cons k keys ih =>
    obtain ⟨absent, nodup⟩ := List.nodup_cons.mp nodup
    have later : ∀ x ∈ xs.filter (fun x => !decide (key x = k)), key x ∈ keys := by
      intro x member
      obtain ⟨member, other⟩ := List.mem_filter.mp member
      exact (List.mem_cons.mp (covers x member)).resolve_left (by simpa using other)
    have parts : (keys.flatMap fun k' => xs.filter fun x => key x = k') =
        keys.flatMap fun k' => (xs.filter fun x => !decide (key x = k)).filter fun x => key x = k' := by
      refine List.flatMap_congr fun k' member => ?_
      rw [List.filter_filter]
      refine List.filter_congr fun x _ => ?_
      by_cases same : key x = k'
      · have other : key x ≠ k := fun isHead => absent (isHead ▸ same ▸ member)
        simp [same, same ▸ other]
      · simp [same]
    rw [List.flatMap_cons, parts]
    exact ((ih nodup later).append_left _).trans (List.filter_append_perm _ xs)

/-- For each key a hand of things is dealt to the elements with that key, in their order. -/
theorem exists_dealt (key : γ → κ) (xs : List γ) (hands : κ → List β)
    (fits : ∀ k, (hands k).length = (xs.filter fun x => key x = k).length) :
    ∃ dealt : List (γ × β), dealt.map Prod.fst = xs ∧ ∀ k, (dealt.filter fun d => key d.1 = k).map Prod.snd = hands k := by
  induction xs generalizing hands with
  | nil => exact ⟨[], rfl, fun k => (List.eq_nil_of_length_eq_zero (fits k)).symm⟩
  | cons x xs ih =>
    have own := fits (key x)
    rw [List.filter_cons_of_pos (by simp), List.length_cons] at own
    obtain ⟨first, rest, hand⟩ := List.exists_cons_of_length_eq_add_one own
    obtain ⟨dealt, onto, parts⟩ := ih (Function.update hands (key x) rest) fun k => by
      by_cases same : k = key x
      · subst same
        rw [Function.update_self]
        simpa [hand] using own
      · rw [Function.update_of_ne same, fits k, List.filter_cons_of_neg (by simpa using Ne.symm same)]
    refine ⟨(x, first) :: dealt, by rw [List.map_cons, onto], fun k => ?_⟩
    by_cases same : key x = k
    · subst same
      rw [List.filter_cons_of_pos (by simp), List.map_cons, parts, Function.update_self, hand]
    · rw [List.filter_cons_of_neg (by simpa using same), parts, Function.update_of_ne (Ne.symm same)]

end

/-- No unit is lost, and none is in two groups. -/
theorem members_perm (entries : List (List ExecutionUnit)) :
    ((groupBatch entries).flatMap BatchGroup.members).Perm (placed entries) := by
  rw [groupBatch_eq, List.flatMap_map]
  simp only [members_groupOf]
  refine flatMap_filter_perm (Routing.nodup_distinct _) fun p member => ?_
  rw [Routing.mem_distinct]
  exact List.mem_map_of_mem member

/-- How the units of the entries of a batch are grouped. -/
structure Groups (entries : List (List ExecutionUnit)) (groups : List BatchGroup) : Prop where
  /-- There is one group for each statement, in the order in which the statements first occur. -/
  statements : (groups.map fun g => (g.dataSource, g.sql)) = distinct ((placed entries).map statementOf)
  nodup : (groups.map fun g => (g.dataSource, g.sql)).Nodup
  /-- A group has the units with its statement, in their order, each with its entry and its parameters. -/
  members : ∀ g ∈ groups, g.members = (placed entries).filter (fun p => statementOf p = (g.dataSource, g.sql)) ∧
    g.batchIndexes.length = g.parameterSets.length
  /-- No unit is lost, and none is in two groups. -/
  all : (groups.flatMap BatchGroup.members).Perm (placed entries)

theorem groups_groupBatch (entries : List (List ExecutionUnit)) : Groups entries (groupBatch entries) := by
  have statements : ((groupBatch entries).map fun g => (g.dataSource, g.sql)) = distinct ((placed entries).map statementOf) := by
    rw [groupBatch_eq, List.map_map]
    exact List.map_id _
  refine ⟨statements, statements ▸ Routing.nodup_distinct _, fun g member => ?_, members_perm entries⟩
  rw [groupBatch_eq] at member
  obtain ⟨statement, -, rfl⟩ := List.mem_map.mp member
  exact ⟨members_groupOf _ statement, by simp [groupOf]⟩

/-! ## Totals -/

/-- The sum of the counts for an entry. -/
def countFor (entry : Nat) (counts : List (Nat × Nat)) : Nat := ((counts.filter fun c => c.1 = entry).map Prod.snd).sum

section
variable {entry : Nat} {counts counts' : List (Nat × Nat)}

theorem countFor_cons (c : Nat × Nat) : countFor entry (c :: counts) = (if c.1 = entry then c.2 else 0) + countFor entry counts := by
  by_cases own : c.1 = entry <;> simp [countFor, own]

theorem countFor_append : countFor entry (counts ++ counts') = countFor entry counts + countFor entry counts' := by
  simp [countFor]

theorem countFor_flatMap {γ : Type} (xs : List γ) (f : γ → List (Nat × Nat)) :
    countFor entry (xs.flatMap f) = (xs.map fun x => countFor entry (f x)).sum := by
  induction xs with
  | nil => rfl
  | cons x xs ih => rw [List.flatMap_cons, countFor_append, ih, List.map_cons, List.sum_cons]

theorem countFor_perm (perm : counts.Perm counts') : countFor entry counts = countFor entry counts' :=
  ((perm.filter _).map _).sum_eq

theorem countFor_eq_zero (zero : ∀ c ∈ counts, c.2 = 0) : countFor entry counts = 0 := by
  rw [countFor, List.sum_eq_zero_iff]
  intro n member
  obtain ⟨c, inPart, rfl⟩ := List.mem_map.mp member
  exact zero c (List.mem_of_mem_filter inPart)

end

theorem getElem?_credit (totals : List Nat) (counts : List (Nat × Nat)) (entry : Nat) :
    (credit totals counts)[entry]? = totals[entry]?.map (· + countFor entry counts) := by
  rw [credit]
  induction counts generalizing totals with
  | nil =>
    rw [List.foldl_nil]
    exact Option.map_id'.symm ▸ rfl
  | cons c counts ih =>
    rw [List.foldl_cons, ih, List.getElem?_modify, countFor_cons]
    cases totals[entry]? with
    | none => rfl
    | some total =>
      by_cases own : c.1 = entry <;> simp [own, Nat.add_assoc]

/-- The totals of some entries after all their counts. -/
theorem credit_replicate (entries : Nat) (counts : List (Nat × Nat)) :
    credit (List.replicate entries 0) counts = (List.range entries).map fun entry => countFor entry counts := by
  refine List.ext_getElem? fun entry => ?_
  rw [getElem?_credit, List.getElem?_map]
  by_cases inRange : entry < entries
  · rw [List.getElem?_replicate_of_lt inRange, List.getElem?_range inRange, Option.map_some, Option.map_some, Nat.zero_add]
  · simp [Nat.le_of_not_lt inRange]

/-! ## Credits -/

/-- What the batch of a group gives to its units, in their order: a count for each of them, or nothing if it failed. -/
def handOf (g : BatchGroup) : Outcome (List Nat) → List (Option Nat)
  | .ok counts => counts.map some
  | .error _ => List.replicate g.parameterSets.length none

/-- How the counts that the batches of the groups gave are credited to the units of the entries. -/
structure Credits (entries : List (List ExecutionUnit)) (outcomes : List (Outcome (List Nat)))
    (credited : List ((Nat × ExecutionUnit) × Option Nat)) : Prop where
  units : credited.map Prod.fst = placed entries
  /-- The units of a group have the counts of its batch, each the one for its own parameters. -/
  counts : List.Forall₂ (fun g outcome =>
    (credited.filter fun c => statementOf c.1 = (g.dataSource, g.sql)).map Prod.snd = handOf g outcome) (groupBatch entries) outcomes

/-- The sum of what is credited to the units of each entry. -/
def totalsOf (entries : Nat) (credited : List ((Nat × ExecutionUnit) × Option Nat)) : List Nat :=
  (List.range entries).map fun entry => ((credited.filter fun c => c.1.1 = entry).map fun c => c.2.getD 0).sum

section
variable {entries : List (List ExecutionUnit)} {outcomes : List (Outcome (List Nat))}

/-- Different keys can have any values. -/
theorem exists_forall₂_eq {κ β : Type} [DecidableEq κ] {keys : List κ} {values : List β} (nodup : keys.Nodup)
    (length : keys.length = values.length) :
    ∃ f : κ → Option β, List.Forall₂ (fun k value => f k = some value) keys values ∧ ∀ k ∉ keys, f k = none := by
  induction keys generalizing values with
  | nil =>
    obtain rfl : values = [] := List.eq_nil_of_length_eq_zero length.symm
    exact ⟨fun _ => none, .nil, fun _ _ => rfl⟩
  | cons k keys ih =>
    obtain ⟨absent, nodup⟩ := List.nodup_cons.mp nodup
    obtain ⟨value, rest, rfl⟩ := List.exists_cons_of_length_eq_add_one length.symm
    obtain ⟨f, onKeys, outside⟩ := ih nodup (Nat.succ.inj length)
    refine ⟨Function.update f k (some value), .cons (Function.update_self k (some value) f) ?_, fun k' notIn => ?_⟩
    · rw [List.forall₂_iff_zip] at onKeys ⊢
      refine ⟨onKeys.1, fun {k'} _ member => ?_⟩
      have different : k' ≠ k := fun same => absent (same ▸ (List.of_mem_zip member).1)
      rw [Function.update_of_ne different, onKeys.2 member]
    · obtain ⟨different, notIn⟩ := not_or.mp (List.mem_cons.not.mp notIn)
      rw [Function.update_of_ne different, outside k' notIn]

/-- If each batch gives one count for each parameter set then the counts can be credited. -/
theorem exists_credits (fits : List.Forall₂ (fun g outcome => (handOf g outcome).length = g.parameterSets.length) (groupBatch entries) outcomes) :
    ∃ credited, Credits entries outcomes credited := by
  have covers (p : Nat × ExecutionUnit) (member : p ∈ placed entries) :
      statementOf p ∈ distinct ((placed entries).map statementOf) := by
    rw [Routing.mem_distinct]
    exact List.mem_map_of_mem member
  have nodup := Routing.nodup_distinct ((placed entries).map statementOf)
  have asGroups := groupBatch_eq entries
  generalize distinct ((placed entries).map statementOf) = statements at covers nodup asGroups
  rw [asGroups, List.forall₂_map_left_iff] at fits
  obtain ⟨given, onStatements, outside⟩ := exists_forall₂_eq nodup fits.length_eq
  have onZip {statement : String × String} {outcome : Outcome (List Nat)} (inZip : (statement, outcome) ∈ statements.zip outcomes) :
      given statement = some outcome := (List.forall₂_iff_zip.mp onStatements).2 inZip
  have fitsZip {statement : String × String} {outcome : Outcome (List Nat)} (inZip : (statement, outcome) ∈ statements.zip outcomes) :
      (handOf (groupOf (placed entries) statement) outcome).length = (groupOf (placed entries) statement).parameterSets.length :=
    (List.forall₂_iff_zip.mp fits).2 inZip
  obtain ⟨credited, units, counts⟩ := exists_dealt statementOf (placed entries)
    (fun statement => (given statement).elim [] (handOf (groupOf (placed entries) statement))) fun statement => by
      by_cases member : statement ∈ statements
      · obtain ⟨outcome, inZip⟩ : ∃ outcome, (statement, outcome) ∈ statements.zip outcomes := by
          obtain ⟨i, inRange, rfl⟩ := List.getElem_of_mem member
          have inOutcomes : i < outcomes.length := fits.length_eq ▸ inRange
          exact ⟨outcomes[i], List.mem_iff_getElem.mpr ⟨i, by simp [inRange, inOutcomes], List.getElem_zip⟩⟩
        rw [onZip inZip, Option.elim_some, fitsZip inZip]
        exact List.length_map ..
      · have none : (placed entries).filter (fun p => statementOf p = statement) = [] := by
          rw [List.filter_eq_nil_iff]
          exact fun p inPlaced same => member (of_decide_eq_true same ▸ covers p inPlaced)
        rw [outside statement member, none]
        rfl
  refine ⟨credited, units, ?_⟩
  rw [asGroups, List.forall₂_map_left_iff, List.forall₂_iff_zip]
  refine ⟨fits.length_eq, fun {statement outcome} inZip => ?_⟩
  exact (counts statement).trans (by rw [onZip inZip, Option.elim_some])

end

/-- The counts of a group are for the entries of its units. -/
theorem countFor_handOf {g : BatchGroup} {outcome : Outcome (List Nat)} {credited : List ((Nat × ExecutionUnit) × Option Nat)} {entry : Nat}
    (indexes : credited.map (·.1.1) = g.batchIndexes) (hand : credited.map Prod.snd = handOf g outcome) :
    countFor entry (g.batchIndexes.zip ((valueOf outcome).getD [])) = countFor entry (credited.map fun c => (c.1.1, c.2.getD 0)) := by
  cases outcome with
  | ok counts =>
    have counted : counts = credited.map (·.2.getD 0) := by
      have values := congrArg (List.map fun count : Option Nat => count.getD 0) hand
      simpa [handOf, Function.comp_def] using values.symm
    rw [valueOf, Option.getD_some, ← indexes, counted, List.zip_map']
  | error f =>
    rw [valueOf, Option.getD_none, List.zip_nil_right]
    refine (countFor_eq_zero fun c member => ?_).symm
    obtain ⟨credit, inHand, rfl⟩ := List.mem_map.mp member
    have nothing : credit.2 = none := List.eq_of_mem_replicate (hand ▸ List.mem_map_of_mem inHand : credit.2 ∈ handOf g (.error f))
    simp [nothing]

theorem map_zip_of_forall₂ {γ β δ : Type} {xs : List γ} {ys : List β} {f : γ × β → δ} {g : γ → δ}
    (same : List.Forall₂ (fun x y => f (x, y) = g x) xs ys) : (xs.zip ys).map f = xs.map g := by
  induction same with
  | nil => rfl
  | cons head _ ih => rw [List.zip_cons_cons, List.map_cons, List.map_cons, head, ih]

/-- The counts that the groups have for an entry are those that are credited to its units. -/
theorem Credits.sum_eq {entries : List (List ExecutionUnit)} {outcomes : List (Outcome (List Nat))}
    {credited : List ((Nat × ExecutionUnit) × Option Nat)} (credits : Credits entries outcomes credited) (entry : Nat) :
    (((groupBatch entries).zip outcomes).map fun (g, outcome) => countFor entry (g.batchIndexes.zip ((valueOf outcome).getD []))).sum =
      ((credited.filter fun c => c.1.1 = entry).map fun c => c.2.getD 0).sum := by
  have counts := credits.counts
  rw [groupBatch_eq, List.forall₂_map_left_iff] at counts
  have ofGroups : List.Forall₂ (fun g outcome => countFor entry (g.batchIndexes.zip ((valueOf outcome).getD [])) =
      countFor entry ((credited.filter fun c => statementOf c.1 = (g.dataSource, g.sql)).map fun c => (c.1.1, c.2.getD 0)))
      (groupBatch entries) outcomes := by
    rw [groupBatch_eq, List.forall₂_map_left_iff]
    refine counts.imp fun statement outcome hand => countFor_handOf ?_ hand
    show (credited.filter fun c => statementOf c.1 = statement).map (·.1.1) =
      ((placed entries).filter fun p => statementOf p = statement).map Prod.fst
    rw [← credits.units, List.filter_map, List.map_map]
    rfl
  have parts : ((distinct ((placed entries).map statementOf)).flatMap fun statement => credited.filter fun c => statementOf c.1 = statement).Perm
      credited := by
    refine flatMap_filter_perm (Routing.nodup_distinct _) fun c member => ?_
    rw [Routing.mem_distinct, ← credits.units]
    exact List.mem_map_of_mem (List.mem_map_of_mem member)
  calc _ = ((groupBatch entries).map fun g =>
          countFor entry ((credited.filter fun c => statementOf c.1 = (g.dataSource, g.sql)).map fun c => (c.1.1, c.2.getD 0))).sum := by
        rw [map_zip_of_forall₂ ofGroups]
    _ = countFor entry (credited.map fun c => (c.1.1, c.2.getD 0)) := by
        rw [groupBatch_eq, List.map_map, ← countFor_perm (parts.map _), List.map_flatMap, countFor_flatMap]
        rfl
    _ = ((credited.filter fun c => c.1.1 = entry).map fun c => c.2.getD 0).sum := by
        rw [countFor, List.filter_map, List.map_map]
        rfl

/-! ## Batches -/

/-- A unit as the group that it runs. -/
def StatementUnit.group (u : StatementUnit) : BatchGroup := ⟨u.dataSource, u.sql, u.parameterSets, u.batchIndexes⟩

theorem gives_make {α : Type} {call : Physical.Call} {given : Physical.Traffic → Outcome α} {outcome : Outcome α}
    (gives : Gives (Physical.Exchange.make call given) outcome) : ∃ t, outcome = given t := by
  obtain ⟨t, t', attempted⟩ := gives
  refine ⟨t, ?_⟩
  rw [Physical.Exchange.attempt, Physical.Exchange.make] at attempted
  cases same : given t with
  | ok a =>
    rw [same] at attempted
    cases attempted
    rfl
  | error f =>
    rw [same] at attempted
    cases attempted
    rfl

theorem eq_map_valueOf_of_answer {α : Type} {failFast : Bool} {outcomes : List (Outcome α)} {results : List (Option α)}
    (answered : answer failFast outcomes = .ok results) : results = outcomes.map valueOf :=
  eq_map_valueOf_iff.mp (isAnswer_iff.mpr answered.symm).2

/-- The counts of groups one after the other. -/
theorem foldl_credit (totals : List Nat) (pairs : List (StatementUnit × Option (List Nat))) :
    pairs.foldl (fun totals (u, counts) => credit totals (u.batchIndexes.zip (counts.getD []))) totals =
      credit totals (pairs.flatMap fun (u, counts) => u.batchIndexes.zip (counts.getD [])) := by
  rw [credit, List.foldl_flatMap]
  rfl

theorem batch_ends (b : Backend) {context : Context} {units : List StatementUnit} {entries : List (List ExecutionUnit)}
    (oneEach : ∀ t h sql sets counts, b.batch t h sql sets = .ok counts → counts.length = sets.length)
    (bound : units.map StatementUnit.group = groupBatch entries) :
    Ends (fun _ => True) (batch b context units entries.length)
      (fun totals _ => ∃ outcomes credited,
        List.Forall₂ (fun u outcome => ∃ t, outcome = b.batch t u.connection u.sql u.parameterSets) units outcomes ∧
        Credits entries outcomes credited ∧ totals = totalsOf entries.length credited) (fun _ _ => True) := by
  refine (Engine.execute_ends.failing fun _ _ _ => trivial).bind fun results => Ends.assuming fun ⟨outcomes, gives, answered⟩ => ?_
  have given : List.Forall₂ (fun u outcome => ∃ t, outcome = b.batch t u.connection u.sql u.parameterSets) units outcomes :=
    gives.imp fun u outcome => gives_make
  have fits : List.Forall₂ (fun g outcome => (handOf g outcome).length = g.parameterSets.length) (groupBatch entries) outcomes := by
    rw [← bound, List.forall₂_map_left_iff]
    refine given.imp ?_
    rintro u outcome ⟨t, rfl⟩
    cases counted : b.batch t u.connection u.sql u.parameterSets with
    | ok counts => exact (List.length_map ..).trans (oneEach _ _ _ _ _ counted)
    | error f => exact List.length_replicate
  obtain ⟨credited, credits⟩ := exists_credits fits
  refine Ends.pure fun _ _ => ⟨outcomes, credited, given, credits, ?_⟩
  rw [eq_map_valueOf_of_answer answered, foldl_credit, credit_replicate, totalsOf]
  refine List.map_congr_left fun entry _ => ?_
  rw [countFor_flatMap, ← credits.sum_eq, ← bound, List.zip_map_left, List.zip_map_right, List.map_map, List.map_map]
  rfl

/-- The units of a batch are run in groups, each of them in one, and what an entry gets is the sum of the counts that the
groups have for its own units. -/
theorem batch_credits (b : Backend) (oneEach : ∀ t h sql sets counts, b.batch t h sql sets = .ok counts → counts.length = sets.length)
    (entries : List (List ExecutionUnit)) :
    Groups entries (groupBatch entries) ∧
    ∀ context units s totals s', units.map StatementUnit.group = groupBatch entries →
      batch b context units entries.length s = .ok totals s' → ∃ outcomes credited,
        List.Forall₂ (fun u outcome => ∃ t, outcome = b.batch t u.connection u.sql u.parameterSets) units outcomes ∧
        Credits entries outcomes credited ∧ totals = totalsOf entries.length credited :=
  ⟨groups_groupBatch entries, fun _ _ _ _ _ bound run => (batch_ends b oneEach bound).result trivial run⟩

/-- The data source `b` fails, and `a` counts the parameters of each set: the last entry gets the count for the third set
of `a` and nothing from `b`. -/
theorem batch_credits_failing :
    let b : Backend := {
      connect := fun _ _ => .ok ()
      control := fun _ _ _ => .ok ()
      query := fun _ _ _ _ => .error .connectionClosed
      update := fun _ _ _ _ _ => .ok 0
      execute := fun _ _ _ _ => .ok false
      batch := fun _ h _ sets => if h.dataSource = "b" then .error .connectionClosed else .ok (sets.map List.length)
      now := fun _ => 0
      chance := fun _ => 0 }
    let entries : List (List ExecutionUnit) := [[⟨"a", "x", [.null]⟩, ⟨"b", "y", []⟩], [⟨"a", "x", [.null, .null]⟩],
      [⟨"b", "y", [.null]⟩, ⟨"a", "x", [.null, .null, .null]⟩]]
    let units : List StatementUnit := [
      ⟨"a", "x", [[.null], [.null, .null], [.null, .null, .null]], [0, 1, 2], ⟨"a", 1⟩⟩, ⟨"b", "y", [[], [.null]], [0, 2], ⟨"b", 1⟩⟩]
    (∃ s, batch b (.of false) units 3 ⟨Engine.new 1 0 [], []⟩ = .ok [1, 2, 3] s) ∧
      ∃ outcomes credited, Credits entries outcomes credited ∧ [1, 2, 3] = totalsOf 3 credited := by
  intro b entries units
  have oneEach : ∀ t h sql sets counts, b.batch t h sql sets = .ok counts → counts.length = sets.length := by
    intro t h sql sets counts counted
    simp only [b] at counted
    split at counted
    · cases counted
    · cases counted
      exact List.length_map ..
  obtain ⟨outcomes, credited, -, credits, sums⟩ :=
    (batch_credits b oneEach entries).2 (.of false) units ⟨Engine.new 1 0 [], []⟩ [1, 2, 3] _ rfl rfl
  exact ⟨⟨_, rfl⟩, outcomes, credited, credits, sums⟩

/-! ## Prepared statements -/

theorem onEngine_ends {S α : Type} {x : Engine.Action α} {Q : α → Prop}
    (ends : Ends (fun _ => True) x (fun a _ => Q a) (fun _ _ => True)) :
    Ends (fun _ => True) (Client.Action.onEngine x : Client.Action S α) (fun a _ => Q a) (fun _ _ => True) := by
  intro s _
  rw [Client.Action.onEngine]
  cases run : x ⟨s.database.engine, s.traffic⟩ with
  | ok a t => exact ends.result trivial run
  | error f t => trivial

/-- Each group is bound to a connection. -/
theorem bindGroups_ends (b : Backend) (kind : Sql.StatementKind) (groups : List BatchGroup) :
    Ends (fun _ => True) (Client.PreparedStatement.bindGroups b kind groups)
      (fun units _ => units.map StatementUnit.group = groups) (fun _ _ => True) := by
  rw [Client.PreparedStatement.bindGroups]
  induction groups with
  | nil => exact Ends.pure fun _ _ => rfl
  | cons g groups ih =>
    rw [List.mapM_cons]
    have bindOne : Ends (fun _ => True) (do
        let connection ← Client.Action.onSession (Session.getConnection b g.dataSource kind)
        return (⟨g.dataSource, g.sql, g.parameterSets, g.batchIndexes, connection⟩ : StatementUnit) :
          Client.Action Client.PreparedStatement StatementUnit) (fun u _ => u.group = g) (fun _ _ => True) :=
      Ends.anyhow.bind fun _ => Ends.pure fun _ _ => rfl
    refine bindOne.bind fun u => Ends.assuming fun own => ih.bind fun units => Ends.assuming fun others => Ends.pure fun _ _ => ?_
    rw [List.map_cons, own, others]

/-- The batch of a prepared statement. -/
theorem executeBatch_ends (b : Backend) {entries : List (List ExecutionUnit)}
    (oneEach : ∀ t h sql sets counts, b.batch t h sql sets = .ok counts → counts.length = sets.length) :
    Ends (fun s : Client.State Client.PreparedStatement => s.statement.batch.map (·.units) = entries)
      (Client.PreparedStatement.executeBatch b)
      (fun totals _ => ∃ outcomes credited,
        List.Forall₂ (fun g outcome => ∃ t h, outcome = b.batch t h g.sql g.parameterSets) (groupBatch entries) outcomes ∧
        Credits entries outcomes credited ∧ totals = totalsOf entries.length credited) (fun _ _ => True) := by
  have statement : Ends (fun s : Client.State Client.PreparedStatement => s.statement.batch.map (·.units) = entries)
      Client.Action.statement (fun p _ => p.batch.map (·.units) = entries) (fun _ _ => True) := fun _ holds => holds
  refine statement.bind fun p => Ends.assuming fun same => Ends.anyhow.bind fun _ => Ends.branch (fun none => ?_) fun _ => ?_
  · obtain rfl : entries = [] := by rw [← same, List.isEmpty_iff.mp none, List.map_nil]
    exact Ends.pure fun _ _ => ⟨[], [], .nil, ⟨rfl, .nil⟩, rfl⟩
  · refine (bindGroups_ends b p.parsed.kind _).bind fun units => Ends.assuming fun bound => ?_
    rw [same] at bound
    have length : p.batch.length = entries.length := by rw [← same, List.length_map]
    rw [length]
    refine onEngine_ends ((batch_ends b oneEach bound).after ?_)
    rintro totals _ ⟨outcomes, credited, given, credits, sums⟩
    refine ⟨outcomes, credited, ?_, credits, sums⟩
    rw [← bound, List.forall₂_map_left_iff]
    exact given.imp fun u outcome ⟨t, answers⟩ => ⟨t, u.connection, answers⟩

end SqlSharding.Execution
