import SqlSharding.Proofs.CallHistories
import SqlSharding.Proofs.EngineTraffic

/-!
# Calls of an engine

The calls that an engine makes are among those whose histories are described: an undisturbed call takes the units one after
the other, so that anything can come of them, and a call that a shutdown overtakes leaves a unit with its worker.
-/

namespace SqlSharding.Execution.Call

variable {α : Type}

/-! ## Undisturbed calls -/

/-- When nothing else happens the jobs are accepted one after the other. -/
theorem exists_submitting (size : Nat) (failFast : Bool) (count n : Nat) (inRange : n < count) :
    ∃ h : List (Move α), Run size failFast count h
      ⟨⟨max size 1, true, List.range' 1 n, []⟩, .submitting (n + 1), List.range' 1 n, []⟩ := by
  induction n with
  | zero =>
    have run : Run size failFast count [] (start size count : State α) := .start
    rw [start, if_neg (Nat.ne_of_gt inRange)] at run
    exact ⟨[], run⟩
  | succ n ih =>
    obtain ⟨h, run⟩ := ih (Nat.lt_of_succ_lt inRange)
    obtain ⟨-, submits, accepts, -⟩ := run.phase.of_submitting rfl
    have isNew : n + 1 ∉ Pool.submitted (poolMoves h) := by
      intro submitted
      rcases run.own submitted ⟨Nat.succ_pos n, inRange⟩ with earlier | earlier
      · exact Nat.lt_irrefl _ ((submits (n + 1)).mp earlier).2
      · exact accepts (n + 1) earlier
    have next := run.step (m := .submit (n + 1)) (by simpa [Move.poolMove?, Pool.Follows] using isNew) (.submit rfl inRange rfl)
    rw [List.range'_1_concat, Nat.add_comm 1 n]
    exact ⟨_, next⟩

/-- A worker takes a job, the unit sends its outcome, if any, and the worker leaves it. -/
theorem Run.performs {size count unit : Nat} {failFast : Bool} {h : List (Move α)} {slots : Nat} {later : List Nat}
    {arrivals : List (Nat × Outcome α)} (pos : 0 < slots)
    (run : Run size failFast count h ⟨⟨slots, true, unit :: later, []⟩, .collecting arrivals, unit :: later, []⟩)
    (nodup : (unit :: later).Nodup) (outcome : Option (Outcome α)) :
    ∃ h', Run size failFast count h'
      ⟨⟨slots, true, later, []⟩, .collecting (arrivals ++ (outcome.map (unit, ·)).toList), later, []⟩ := by
  have starts := run.step (m := .pool (.start unit)) (by simp [Move.poolMove?, Pool.Follows])
    (.pool (.start (Pool.take?_eq_some_iff.mpr ⟨later, rfl, pos, rfl⟩)) trivial)
  have ends := starts.step (by simp [Move.poolMove?]) (.finish outcome (by simp : unit ∈ _) List.mem_cons_self)
  have leaves := ends.step (m := .pool (.finish unit false)) (by simp [Move.poolMove?, Pool.Follows])
    (.pool (.finish false (by simp)) (by simpa [IsOther] using nodup.notMem))
  simp only [List.erase_cons_head, Pool.finish, List.nil_append] at leaves
  cases outcome with
  | none =>
    rw [Option.map_none, Option.toList_none, List.append_nil]
    exact ⟨_, leaves⟩
  | some outcome => exact ⟨_, leaves.step (by simp [Move.poolMove?]) (.receive rfl rfl)⟩

/-- When nothing else happens the outcomes arrive one after the other, in the order of the units. -/
theorem exists_collecting (size : Nat) (failFast : Bool) {sends : List (Option (Outcome α))} {first : Outcome α}
    (ranFirst : sends[0]? = some (some first)) (n : Nat) (inRange : n < sends.length) :
    ∃ h : List (Move α), Run size failFast sends.length h
      ⟨⟨max size 1, true, List.range' (n + 1) (sends.length - (n + 1)), []⟩,
        .collecting (reported (List.range (n + 1)) (sends.take (n + 1))), List.range' (n + 1) (sends.length - (n + 1)), []⟩ := by
  induction n with
  | zero =>
    obtain ⟨rest, rfl⟩ : ∃ rest, sends = some first :: rest := by
      cases sends with
      | nil => cases ranFirst
      | cons head rest => exact ⟨rest, by simpa using ranFirst⟩
    obtain ⟨h, run⟩ := exists_submitting size failFast (some first :: rest).length rest.length (Nat.lt_succ_self _)
    exact ⟨_, run.step (m := .runFirst first) (by simp [Move.poolMove?]) (.runFirst first rfl)⟩
  | succ n ih =>
    obtain ⟨h, run⟩ := ih (Nat.lt_of_succ_lt inRange)
    have jobs : List.range' (n + 1) (sends.length - (n + 1)) = (n + 1) :: List.range' (n + 1 + 1) (sends.length - (n + 1 + 1)) := by
      rw [← List.range'_succ]
      congr 1
      omega
    have reports : reported (List.range (n + 1 + 1)) (sends.take (n + 1 + 1)) =
        reported (List.range (n + 1)) (sends.take (n + 1)) ++ (sends[n + 1].map (n + 1, ·)).toList := by
      rw [List.range_succ, ← List.take_append_getElem inRange]
      exact reported_concat (by simp; omega) _ _
    rw [jobs] at run
    rw [reports]
    exact run.performs (Nat.le_max_right size 1) (jobs ▸ List.nodup_range') sends[n + 1]

/-- Units can send anything, except that the first one always has an outcome. -/
theorem exists_answered (size : Nat) (failFast : Bool) {sends : List (Option (Outcome α))} {first : Outcome α}
    (ranFirst : sends[0]? = some (some first)) :
    ∃ (h : List (Move α)) (s : State α), Run size failFast sends.length h s ∧
      s.caller = .returned (Execution.answer failFast (sends.map (·.getD (.error .cancelled)))) := by
  have pos : 0 < sends.length := (List.getElem?_eq_some_iff.mp ranFirst).1
  obtain ⟨h, run⟩ := exists_collecting size failFast ranFirst (sends.length - 1) (by omega)
  have last : sends.length - 1 + 1 = sends.length := by omega
  rw [last, Nat.sub_self, List.take_length] at run
  refine ⟨_, _, run.step (m := .answer) (by simp [Move.poolMove?]) (.answer rfl rfl rfl), ?_⟩
  rw [arrange_reported]

section
variable {b : Physical.Backend} {context : Context} {units : List StatementUnit} {work : Engine.Work α} {fates : Nat → Fate}

/-- A call comes by some history to return this. -/
def CanAnswer (size : Nat) (failFast : Bool) (count : Nat) (result : Outcome (List (Option α))) : Prop :=
  ∃ h s, Run size failFast count h s ∧ s.caller = .returned result

/-- A call that an engine makes on a new pool, with the units one after the other, is one of those whose histories these
are. -/
theorem call_canAnswer {size : Nat} (runsFirst : fates 0 = .runs) :
    Ends (fun s => s.engine.pool = .ofSize size) (Engine.call b context units work fates)
      (fun results _ => CanAnswer size context.failFast units.length (.ok results))
      (fun f _ => CanAnswer (α := α) size context.failFast units.length (.error f)) := by
  have answers {sends : List (Option (Outcome α))} (sent : Engine.Sent context work fates units sends) :
      CanAnswer size context.failFast units.length
        (Execution.answer context.failFast (sends.map (·.getD (.error .cancelled)))) := by
    have length : units.length = sends.length := by simpa using sent.length_eq
    cases units with
    | nil =>
      obtain rfl : sends = [] := List.eq_nil_of_length_eq_zero length.symm
      exact ⟨[], _, .start, rfl⟩
    | cons u rest =>
      rw [length]
      cases sent with
      | @cons _ outcome _ later first sentLater =>
        have runs : Fate.runs.Sends (work context u) outcome := runsFirst ▸ first
        obtain ⟨given, rfl, -⟩ := runs
        exact exists_answered size context.failFast rfl
  have accepting : Ends (fun s => s.engine.pool = .ofSize size) (Engine.call b context units work fates) _ _ :=
    fun s isNew => Engine.call_ends_of_accepting s (congrArg Pool.isAccepting isNew)
  refine accepting.weaken (fun results _ => ?_) fun f _ => ?_
  · rintro ⟨sends, sent, answered⟩
    exact answered ▸ answers sent
  · rintro ⟨sends, sent, answered⟩
    exact answered ▸ answers sent

/-! ## Overtaken calls -/

/-- A job that a worker has taken stays with it while the workers take the jobs that wait. -/
theorem mem_running_settle {p : Pool Nat} {ends : Nat → Bool} {job : Nat} (running : job ∈ p.running) (notQueued : job ∉ p.queue) :
    job ∈ (p.settle ends).running := by
  induction p using Pool.settle.induct ends with
  | case1 p none =>
    rw [Pool.settle]
    split
    · exact running
    · next took =>
      rw [none] at took
      cases took
  | case2 p other taken took ih =>
    obtain ⟨rest, queue, -, rfl⟩ := Pool.take?_eq_some_iff.mp took
    obtain ⟨different, later⟩ := not_or.mp (List.mem_cons.not.mp (queue ▸ notQueued))
    rw [Pool.settle]
    split
    · exact running
    · next job' taken' took' =>
      obtain ⟨rfl, rfl⟩ : other = job' ∧ _ = taken' := by simpa [took] using took'
      refine ih ?_ ?_
      · have stays := List.mem_append_left [other] running
        split
        · exact (List.mem_erase_of_ne different).mpr stays
        · exact stays
      · split <;> exact later

/-- What units do does not touch the pool. -/
theorem runUnits_preserves {numbered : List (StatementUnit × Nat)} {I : Pool Nat → Prop} :
    Preserves (fun s => I s.engine.pool) (Engine.runUnits b context work fates numbered) := by
  have notifies (events : List Event) : Preserves (fun s => I s.engine.pool) (Engine.Action.notify events) := by
    intro s holds
    have same (e : Engine) : (events.foldl Engine.notify e).pool = e.pool := by
      induction events generalizing e with
      | nil => rfl
      | cons event rest ih => exact ih (e.notify event)
    show I (events.foldl Engine.notify s.engine).pool
    rwa [same]
  have attempts (x : Physical.Exchange α) : Preserves (fun s => I s.engine.pool) (Engine.Action.attempt x) := by
    intro s holds
    rw [Engine.Action.attempt]
    cases x s.traffic <;> exact holds
  have kept : Engine.KeptByUnits (fun s => I s.engine.pool) context work := ⟨notifies, fun _ _ holds => holds, fun _ => attempts _⟩
  exact kept.runUnits numbered

/-- A shutdown has begun, nothing waits, and a worker has the job of the second unit. -/
def LeavesUnit (pool : Pool Nat) : Prop := pool.isAccepting = false ∧ pool.queue = [] ∧ 1 ∈ pool.running

/-- The first jobs of a call on a new pool wait for a worker. -/
theorem submitJobs_ends {size accepted : Nat} :
    Ends (fun s => s.engine.pool = .ofSize size) (Engine.submitJobs accepted)
      (fun _ s => s.engine.pool = ⟨max size 1, true, (List.range accepted).drop 1, []⟩) (fun _ _ => False) := by
  intro s isNew
  rw [Engine.submitJobs, Engine.onPool, show s.engine.pool = .ofSize size from isNew, Pool.foldlM_submit rfl]
  rfl

/-- A shutdown leaves a job that is held up with its worker. -/
theorem interrupt_ends {slots : Nat} {later : List Nat} {isHeldUp : Nat → Bool} (pos : 0 < slots) (heldUp : isHeldUp 1 = true)
    (once : 1 ∉ later) :
    Ends (fun s => s.engine.pool = ⟨slots, true, 1 :: later, []⟩) (Engine.interrupt isHeldUp)
      (fun _ s => LeavesUnit s.engine.pool) (fun _ _ => False) := by
  intro s ready
  refine ⟨rfl, rfl, ?_⟩
  show 1 ∈ (s.engine.pool.settle fun job => !isHeldUp job).running
  rw [show s.engine.pool = _ from ready, Pool.settle]
  split
  · next none => simp [Pool.take?, pos] at none
  · next job taken took =>
    obtain ⟨rest, queue, -, rfl⟩ := Pool.take?_eq_some_iff.mp took
    obtain ⟨rfl, rfl⟩ := List.cons.inj queue
    rw [heldUp, if_neg (by decide)]
    exact mem_running_settle List.mem_cons_self once

/-- What units do leaves the pool as it is. -/
theorem runUnits_ends {numbered : List (StatementUnit × Nat)} {I : Pool Nat → Prop} :
    Ends (fun s => I s.engine.pool) (Engine.runUnits b context work fates numbered) (fun _ s => I s.engine.pool)
      (fun _ _ => False) := by
  intro s holds
  cases run : Engine.runUnits b context work fates numbered s with
  | ok arrivals t => exact runUnits_preserves.result holds run
  | error f t => exact Engine.runUnits_ends.failure trivial run

/-- The next submission after a shutdown is refused, and changes nothing. -/
theorem submitFrom_ends {accepted count : Nat} (further : accepted < count) :
    Ends (fun s => LeavesUnit s.engine.pool) (Engine.submitFrom accepted count) (fun _ _ => False)
      (fun f s => f = .executorShutdown ∧ LeavesUnit s.engine.pool) := by
  intro s left
  rw [Engine.submitFrom, Engine.onPool, List.drop_eq_getElem_cons (by simpa using further), Pool.foldlM_submit_of_stopped left.1]
  exact ⟨rfl, left⟩

/-- A shutdown during the submissions: the call is refused, and a unit that is held up stays with its worker. -/
theorem overtakenCall_ends {size accepted : Nat} {isHeldUp : Nat → Bool} (heldUp : isHeldUp 1 = true) (submitted : 1 < accepted)
    (further : accepted < units.length) :
    Ends (fun s => s.engine.pool = .ofSize size) (Engine.overtakenCall b context units work accepted isHeldUp) (fun _ _ => False)
      (fun f s => f = .executorShutdown ∧ LeavesUnit s.engine.pool) := by
  have jobs : (List.range accepted).drop 1 = 1 :: List.range' 2 (accepted - 2) := by
    obtain ⟨n, rfl⟩ := Nat.exists_eq_add_of_le' submitted
    rw [List.range_eq_range', List.range'_succ, List.drop_one, List.tail_cons, List.range'_succ]
    rfl
  refine (submitJobs_ends.failing fun _ _ => False.elim).bind fun _ => ?_
  rw [jobs]
  refine ((interrupt_ends (Nat.le_max_right size 1) heldUp (by simp)).failing fun _ _ => False.elim).bind ?_
  rintro ⟨_, dropped⟩
  exact (runUnits_ends.failing fun _ _ => False.elim).bind fun _ => (submitFrom_ends further).bind fun _ _ => False.elim

end

end SqlSharding.Execution.Call
