import SqlSharding.Proofs.EventHistories

/-!
# Conservation of events

Every unit tells as many events after it as before it, so the counters of a monitor agree as soon as all units that began have come
to an end, in whatever order their events were told.
-/

namespace SqlSharding.Execution

/-- What agrees for each key on its own agrees for all keys together. -/
theorem countP_eq_of_each {κ ε : Type} [DecidableEq κ] {p q : κ × ε → Bool} (entries : List (κ × ε))
    (each : ∀ key, (entries.filter (·.1 = key)).countP p = (entries.filter (·.1 = key)).countP q) :
    entries.countP p = entries.countP q := by
  -- The entries of the first key agree, and the others are fewer, so the induction is on the number of entries.
  induction length : entries.length using Nat.strong_induction_on generalizing entries with
  | _ n ih =>
    cases entries with
    | nil => rfl
    | cons first rest =>
      have shorter : ((first :: rest).filter fun entry => !decide (entry.1 = first.1)).length < n := by
        rw [← length, List.filter_cons_of_neg (by simp), List.length_cons]
        exact Nat.lt_succ_of_le (List.length_filter_le _ rest)
      rw [List.countP_eq_countP_filter_add _ p (·.1 = first.1), List.countP_eq_countP_filter_add _ q (·.1 = first.1), each first.1,
        ih _ shorter _ (fun key => ?_) rfl]
      rw [List.filter_filter]
      by_cases same : key = first.1
      · have none : ((first :: rest).filter fun entry => decide (entry.1 = key) && !decide (entry.1 = first.1)) = [] := by
          simp [same]
        rw [none]
        rfl
      · have whole : ((first :: rest).filter fun entry => decide (entry.1 = key) && !decide (entry.1 = first.1)) =
            (first :: rest).filter (·.1 = key) := by
          refine List.filter_congr fun entry _ => ?_
          by_cases isKey : entry.1 = key
          · simp [isKey, same]
          · simp [isKey]
        rw [whole]
        exact each key

/-- A unit that is through has told as many events after it as before it. -/
theorem Reported.balanced {α : Type} {u : StatementUnit} {deeds : List (Deed α)} (reported : Reported u deeds) :
    (deeds.filterMap Deed.event?).countP (·.status = .before) = (deeds.filterMap Deed.event?).countP (·.status ≠ .before) := by
  obtain ⟨outcome, -, numbered, ends⟩ := reported
  rename_i befores afters
  have events : (befores.map Deed.tell ++ Deed.work outcome :: afters.map Deed.tell).filterMap Deed.event? = befores ++ afters := by
    rw [List.filterMap_append, List.filterMap_cons_none rfl, filterMap_tell, filterMap_tell]
  have isBefore : ∀ e ∈ befores, e.status = .before := fun e member => (numbered.before e member).1
  have isAfter : ∀ e ∈ afters, e.status ≠ .before := by
    intro e member
    obtain ⟨i, inRange, rfl⟩ := List.mem_iff_getElem.mp member
    have status : afters[i].status = statusAfter outcome := (ends.get (ends.length_eq ▸ inRange) inRange).status
    rw [status]
    cases outcome <;> exact EventStatus.noConfusion
  rw [events, List.countP_append, List.countP_append, List.countP_eq_length.mpr (by simpa using isBefore),
    List.countP_eq_zero.mpr (by simpa using isAfter), List.countP_eq_zero.mpr (by simpa using isBefore),
    List.countP_eq_length.mpr (by simpa using isAfter), ends.length_eq, Nat.add_zero, Nat.zero_add]

/-- An event is one before a unit, or it tells a success or a failure. -/
theorem countP_ends (events : List Event) :
    events.countP (·.status ≠ .before) = events.countP (·.status = .success) + events.countP (·.status = .failure) := by
  induction events with
  | nil => rfl
  | cons e rest ih =>
    simp only [List.countP_cons, ih]
    cases e.status with
    | before => rfl
    | success | failure =>
      simp
      omega

namespace Watched

variable {α : Type} {size capacity : Nat} {h : List (Move α)} {s : State α}

/-- The monitor is told of a unit what the unit tells. -/
theorem told_filter (h : List (Move α)) (job : Job) :
    ((told h).filter (·.1 = job)).map (·.2) = (deeds h job).filterMap Deed.event? := by
  rw [told, deeds, List.filter_filterMap, List.map_filterMap, List.filterMap_filterMap]
  refine List.filterMap_congr fun m _ => ?_
  cases m with
  | does other deed =>
    by_cases same : other = job
    · cases told : deed.event? <;> simp [Move.told?, Move.deed?, told, same]
    · cases told : deed.event? <;> simp [Move.told?, Move.deed?, told, same]
  | _ => rfl

/-- The counters of the monitor are those of the events that it was told. -/
theorem Run.counts (run : Run size capacity h s) : Counts s.monitor.metrics ((told h).map (·.2)) := by
  induction run with
  | start => exact Counts.zero
  | @step h s t m _ step ih =>
    rw [told_concat, List.map_append]
    cases step with
    | @does job deed stage does =>
      cases told : deed.event? with
      | none =>
        have nothing : (Move.does job deed).told? = none := by simp [Move.told?, told]
        rw [nothing]
        simpa [State.setStage] using ih
      | some e =>
        have event : (Move.does job deed).told? = some (job, e) := by simp [Move.told?, told]
        rw [event]
        exact ih.record e
    | _ => simpa [Move.told?, State.setTurn, State.setStage] using ih

/-- When everything is at rest, all units that began have come to an end. -/
theorem Run.ended_of_atRest (run : Run size capacity h s) (atRest : s.AtRest) {job : Job} (began : Began h job) : Ended h job := by
  cases Life.of_run run job with
  | waiting _ _ notBegan _ => exact absurd began notBegan
  | running _ _ _ _ atWork =>
    rcases atWork with running | ⟨-, performs⟩
    · rw [atRest.2] at running
      cases running
    · obtain ⟨caller, isCaller, turn⟩ := Option.map_eq_some_iff.mp performs
      have returned : caller.turn = .returned := atRest.1 caller (List.mem_of_getElem? isCaller)
      cases returned.symm.trans turn
  | ended _ _ _ _ ended => exact ended

theorem Run.reported (run : Run size capacity h s) {job : Job} (ended : Ended h job) :
    ∃ u, s.unit? job = some u ∧ Reported u (deeds h job) := by
  cases Life.of_run run job with
  | waiting _ _ _ notEnded | running _ _ _ notEnded _ => exact absurd ended notEnded
  | @ended u isUnit along through _ _ => exact ⟨u, isUnit, along.reported through⟩

theorem Run.deeds_eq_nil (run : Run size capacity h s) {job : Job} (notBegan : ¬ Began h job) : deeds h job = [] := by
  cases Life.of_run run job with
  | waiting _ none _ _ => exact none
  | running _ _ began _ _ | ended _ _ _ began _ => exact absurd began notBegan

/-- When everything is at rest, there are as many events after units as before units. -/
theorem Run.balanced (run : Run size capacity h s) (atRest : s.AtRest) :
    ((told h).map (·.2)).countP (·.status = .before) = ((told h).map (·.2)).countP (·.status ≠ .before) := by
  rw [List.countP_map, List.countP_map]
  refine countP_eq_of_each _ fun job => ?_
  rw [← List.countP_map, ← List.countP_map, told_filter]
  by_cases began : Began h job
  · obtain ⟨u, -, reported⟩ := run.reported (run.ended_of_atRest atRest began)
    exact reported.balanced
  · rw [run.deeds_eq_nil began]
    rfl

/-- When everything is at rest, each start that was counted is a success or a failure. -/
theorem Run.conserved (run : Run size capacity h s) (atRest : s.AtRest) :
    s.monitor.metrics.started = s.monitor.metrics.succeeded + s.monitor.metrics.failed := by
  have counts : Counts s.monitor.metrics ((told h).map (·.2)) := run.counts
  rw [counts.started, counts.succeeded, counts.failed, ← countP_ends]
  exact run.balanced atRest

/-- Units that do not run tell nothing. Those that have ended told an event for each of their parameter sets before they worked,
and as many with the same numbers in the same order after it. So when all calls have returned and no job is left running, the counters
agree: each start is a success or a failure, nothing is in flight, and the failures are those of the data sources. -/
theorem conserved_of_run (run : Run size capacity h s) :
    (∀ job, ¬ Began h job → deeds h job = []) ∧
    (∀ job, Ended h job → ∃ u, s.unit? job = some u ∧ Reported u (deeds h job)) ∧
    Counts s.monitor.metrics ((told h).map (·.2)) ∧
    (s.AtRest → (∀ job, Began h job → Ended h job) ∧
      s.monitor.metrics.started = s.monitor.metrics.succeeded + s.monitor.metrics.failed ∧ s.monitor.metrics.inFlight = 0 ∧
      Named.total s.monitor.metrics.failures = s.monitor.metrics.failed) := by
  refine ⟨fun job notBegan => run.deeds_eq_nil notBegan, fun job ended => run.reported ended, run.counts, fun atRest => ?_⟩
  have conserved := run.conserved atRest
  refine ⟨fun job began => run.ended_of_atRest atRest began, conserved, ?_, run.counts.total⟩
  rw [Metrics.inFlight, conserved, Nat.sub_self]

/-- A batch of two parameter sets. -/
def batchOfTwo : StatementUnit := ⟨"ds_1", "INSERT INTO orders (a) VALUES (?)", [[.text "x"], [.text "y"]], [0, 1], ⟨"ds_1", 1⟩⟩

/-- A query without parameter sets. -/
def plainQuery : StatementUnit := ⟨"ds_0", "SELECT 1", [], [], ⟨"ds_0", 1⟩⟩

/-- The events before the batch and the query. -/
def firstSet : Event := .before 1 "ds_1" "INSERT INTO orders (a) VALUES (?)" [.text "x"] 5

def secondSet : Event := .before 3 "ds_1" "INSERT INTO orders (a) VALUES (?)" [.text "y"] 7

def noSet : Event := .before 2 "ds_0" "SELECT 1" [] 6

/-- A worker runs the batch, which fails, while the caller runs the query; a shutdown drops a job of a second call and refuses
the next one. -/
def mixedHistory : List (Move Nat) :=
  [.issue [plainQuery, batchOfTwo], .submit ⟨0, 1⟩, .start ⟨0, 1⟩, .perform 0, .issue [plainQuery, batchOfTwo, plainQuery],
    .submit ⟨1, 1⟩, .number ⟨0, 1⟩, .number ⟨0, 0⟩, .number ⟨0, 1⟩, .stop, .does ⟨0, 1⟩ (.tell firstSet), .refuse ⟨1, 2⟩,
    .does ⟨0, 0⟩ (.tell noSet), .does ⟨0, 1⟩ (.tell secondSet), .does ⟨0, 1⟩ (.work (.error .connectionClosed)),
    .does ⟨0, 0⟩ (.work (.ok 4)), .does ⟨0, 1⟩ (.tell (firstSet.failed "connection is closed" 8)),
    .does ⟨0, 0⟩ (.tell (noSet.succeeded 9)), .collect 0, .does ⟨0, 1⟩ (.tell (secondSet.failed "connection is closed" 8)),
    .leave ⟨0, 1⟩, .answer 0]

/-- The two units that ran told their events in turn; the job that was dropped and the units that were refused told none. -/
theorem conserved_of_run_mixed :
    ∃ s : State Nat, Run 1 0 mixedHistory s ∧ s.AtRest ∧ s.monitor.metrics = ⟨3, 1, 2, [("ds_1", 2)]⟩ ∧
      (∃ u, s.unit? ⟨0, 1⟩ = some u ∧ Reported u (deeds mixedHistory ⟨0, 1⟩)) ∧ deeds mixedHistory ⟨1, 1⟩ = [] ∧
      s.monitor.metrics.started = s.monitor.metrics.succeeded + s.monitor.metrics.failed ∧ s.monitor.metrics.inFlight = 0 := by
  have issues₀ := (Run.start : Run 1 0 [] (start 1 0 : State Nat)).step (.issue [plainQuery, batchOfTwo])
  have submits₀ := issues₀.step (m := .submit ⟨0, 1⟩) (.submit rfl rfl rfl)
  have starts := submits₀.step (m := .start ⟨0, 1⟩) (.start rfl rfl)
  have performs := starts.step (m := .perform 0) (.perform rfl rfl rfl)
  have issues₁ := performs.step (.issue [plainQuery, batchOfTwo, plainQuery])
  have submits₁ := issues₁.step (m := .submit ⟨1, 1⟩) (.submit rfl rfl rfl)
  have numbers₁ := submits₁.step (m := .number ⟨0, 1⟩) (.number 5 rfl rfl)
  have numbers₂ := numbers₁.step (m := .number ⟨0, 0⟩) (.number 6 rfl rfl)
  have numbers₃ := numbers₂.step (m := .number ⟨0, 1⟩) (.number 7 rfl rfl)
  have stops := numbers₃.step .stop
  have tells₁ := stops.step (m := .does ⟨0, 1⟩ (.tell firstSet)) (.does .announce)
  have refuses := tells₁.step (m := .refuse ⟨1, 2⟩) (.refuse rfl rfl rfl)
  have tells₂ := refuses.step (m := .does ⟨0, 0⟩ (.tell noSet)) (.does .announce)
  have tells₃ := tells₂.step (m := .does ⟨0, 1⟩ (.tell secondSet)) (.does .announce)
  have fails := tells₃.step (m := .does ⟨0, 1⟩ (.work (.error .connectionClosed))) (.does (.work _))
  have succeeds := fails.step (m := .does ⟨0, 0⟩ (.work (.ok 4))) (.does (.work _))
  have reports₁ := succeeds.step (m := .does ⟨0, 1⟩ (.tell (firstSet.failed "connection is closed" 8))) (.does (.report 8))
  have reports₂ := reports₁.step (m := .does ⟨0, 0⟩ (.tell (noSet.succeeded 9))) (.does (.report 9))
  have collects := reports₂.step (m := .collect 0) (.collect rfl trivial)
  have reports₃ := collects.step (m := .does ⟨0, 1⟩ (.tell (secondSet.failed "connection is closed" 8))) (.does (.report 8))
  have leaves := reports₃.step (m := .leave ⟨0, 1⟩) (.leave (by decide) trivial)
  have answers := leaves.step (m := .answer 0) (.answer rfl (fun _ => ⟨List.not_mem_nil, fun running => absurd running List.not_mem_nil⟩))
  obtain ⟨quiet, reported, -, conserved⟩ := conserved_of_run answers
  have notBegan : ¬ Began mixedHistory ⟨1, 1⟩ := by simp [Began, Move.Begins, mixedHistory]
  have ended : Ended mixedHistory ⟨0, 1⟩ := ⟨.leave ⟨0, 1⟩, by simp [mixedHistory], .inl rfl⟩
  obtain ⟨-, balanced, none, -⟩ := conserved ⟨by decide, rfl⟩
  exact ⟨_, answers, ⟨by decide, rfl⟩, rfl, reported ⟨0, 1⟩ ended, quiet ⟨1, 1⟩ notBegan, balanced, none⟩

end Watched

end SqlSharding.Execution
