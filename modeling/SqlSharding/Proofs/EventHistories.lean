import SqlSharding.Proofs.PoolHistories
import SqlSharding.Proofs.UnitEvents

/-!
# Histories of events

A monitor watches an engine on which calls are made, one after the other or several at a time. Callers submit the jobs of their
units and run their first unit, workers take jobs and run them, shutdowns drop jobs, and the steps of all units come in any order.
In every such history each unit that runs tells one event for each parameter set before it works and one after it, and a unit
that does not run tells none. So when all calls have returned and no job is left running, every event before a unit has one after it
(`conserved_of_run`).
-/

namespace SqlSharding.Execution.Watched

variable {α : Type}

/-! ## Steps -/

/-- A unit, by the number of its call and its position in the call. -/
structure Job where
  call : Nat
  unit : Nat
  deriving DecidableEq

/-- Where a caller is. -/
inductive Turn where
  /-- It is to submit the job of a unit, or to run its first unit if there is no such unit. -/
  | submitting (unit : Nat)
  /-- It runs its first unit. -/
  | performing
  /-- It waits for the jobs of its units. -/
  | collecting
  | returned
  deriving DecidableEq

structure Caller where
  units : List StatementUnit
  turn : Turn

structure State (α : Type) where
  pool : Pool Job
  /-- The calls, in the order in which they began. -/
  callers : List Caller
  stage : Job → Stage α
  nextEvent : Nat
  monitor : Monitor

namespace State

variable (s : State α)

def unit? (job : Job) : Option StatementUnit := (s.callers[job.call]?).bind (·.units[job.unit]?)

def turn? (call : Nat) : Option Turn := (s.callers[call]?).map (·.turn)

def setTurn (call : Nat) (turn : Turn) : State α := { s with callers := s.callers.modify call ({ · with turn }) }

def setStage (job : Job) (stage : Stage α) : State α := { s with stage := Function.update s.stage job stage }

end State

/-- What happens. -/
inductive Move (α : Type) where
  /-- A call begins. -/
  | issue (units : List StatementUnit)
  | submit (job : Job)
  | refuse (job : Job)
  /-- A caller begins its first unit. -/
  | perform (call : Nat)
  /-- A worker takes a job and begins its unit. -/
  | start (job : Job)
  /-- An event before a unit gets its number. -/
  | number (job : Job)
  | does (job : Job) (deed : Deed α)
  /-- A worker is through with a job. -/
  | leave (job : Job)
  /-- A caller is through with its first unit. -/
  | collect (call : Nat)
  | answer (call : Nat)
  /-- A shutdown. -/
  | stop

inductive Step : State α → Move α → State α → Prop
  | issue {s : State α} (units : List StatementUnit) : Step s (.issue units)
      { s with callers := s.callers ++ [⟨units, if units.isEmpty then .returned else .submitting 1⟩] }
  | submit {s : State α} {call unit : Nat} {u : StatementUnit} {pool : Pool Job} (turn : s.turn? call = some (.submitting unit))
      (isUnit : s.unit? ⟨call, unit⟩ = some u) (accepted : s.pool.submit ⟨call, unit⟩ = .ok pool) :
      Step s (.submit ⟨call, unit⟩) { s.setTurn call (.submitting (unit + 1)) with pool }
  | refuse {s : State α} {call unit : Nat} {u : StatementUnit} {f : Failure} (turn : s.turn? call = some (.submitting unit))
      (isUnit : s.unit? ⟨call, unit⟩ = some u) (refused : s.pool.submit ⟨call, unit⟩ = .error f) :
      Step s (.refuse ⟨call, unit⟩) (s.setTurn call .returned)
  | perform {s : State α} {call unit : Nat} {u : StatementUnit} (turn : s.turn? call = some (.submitting unit))
      (all : s.unit? ⟨call, unit⟩ = none) (isFirst : s.unit? ⟨call, 0⟩ = some u) :
      Step s (.perform call) ((s.setTurn call .performing).setStage ⟨call, 0⟩ (.begun u))
  | start {s : State α} {job : Job} {u : StatementUnit} {pool : Pool Job} (took : s.pool.take? = some (job, pool))
      (isUnit : s.unit? job = some u) : Step s (.start job) { s.setStage job (.begun u) with pool }
  | number {s : State α} {job : Job} {u : StatementUnit} {events : List Event} {parameters : List Value} {left : List (List Value)}
      (now : Nat) (isUnit : s.unit? job = some u) (stage : s.stage job = .numbering events (parameters :: left)) :
      Step s (.number job) { s.setStage job
        (.numbered (events ++ [.before s.nextEvent u.dataSource u.sql parameters now]) left) with nextEvent := s.nextEvent + 1 }
  | does {s : State α} {job : Job} {deed : Deed α} {stage : Stage α} (does : (s.stage job).Does deed stage) :
      Step s (.does job deed) { s.setStage job stage with monitor := deed.event?.elim s.monitor s.monitor.record }
  | leave {s : State α} {job : Job} (running : job ∈ s.pool.running) (through : (s.stage job).IsThrough) :
      Step s (.leave job) { s with pool := s.pool.finish job }
  | collect {s : State α} {call : Nat} (turn : s.turn? call = some .performing) (through : (s.stage ⟨call, 0⟩).IsThrough) :
      Step s (.collect call) (s.setTurn call .collecting)
  /-- All jobs of the call were run or dropped. -/
  | answer {s : State α} {call : Nat} (turn : s.turn? call = some .collecting) (settled : ∀ unit, ⟨call, unit⟩ ∉ s.pool.queue ∧
      (⟨call, unit⟩ ∈ s.pool.running → (s.stage ⟨call, unit⟩).IsThrough)) : Step s (.answer call) (s.setTurn call .returned)
  | stop {s : State α} : Step s .stop { s with pool := s.pool.stop }

/-! ## Histories -/

/-- A new engine with some number of workers, and a new monitor. -/
def start (size capacity : Nat) : State α := ⟨.ofSize size, [], fun _ => .waiting, 1, .ofCapacity capacity⟩

/-- An engine comes by a history to a state. -/
inductive Run (size capacity : Nat) : List (Move α) → State α → Prop
  | start : Run size capacity [] (start size capacity)
  | step {h : List (Move α)} {s t : State α} {m : Move α} (run : Run size capacity h s) (step : Step s m t) :
      Run size capacity (h ++ [m]) t

/-- What a unit does by a move. -/
def Move.deed? (job : Job) : Move α → Option (Deed α)
  | does other deed => if other = job then some deed else none
  | _ => none

/-- The event that the monitor is told by a move, with the unit that it is of. -/
def Move.told? : Move α → Option (Job × Event)
  | does job deed => deed.event?.map (job, ·)
  | _ => none

/-- A unit begins: a worker takes its job, or it is the first one and its caller begins it. -/
def Move.Begins (m : Move α) (job : Job) : Prop := m = .start job ∨ (job.unit = 0 ∧ m = .perform job.call)

/-- A worker or the caller is through with a unit. -/
def Move.Ends (m : Move α) (job : Job) : Prop := m = .leave job ∨ (job.unit = 0 ∧ m = .collect job.call)

section
variable (h : List (Move α))

/-- What a unit has done. -/
def deeds (job : Job) : List (Deed α) := h.filterMap (Move.deed? job)

/-- The events that the monitor was told, each with the unit that it is of. -/
def told : List (Job × Event) := h.filterMap Move.told?

def Began (job : Job) : Prop := ∃ m ∈ h, m.Begins job

def Ended (job : Job) : Prop := ∃ m ∈ h, m.Ends job

end

/-- All calls have returned, and no job is running. -/
def State.AtRest (s : State α) : Prop := (∀ caller ∈ s.callers, caller.turn = .returned) ∧ s.pool.running = []

variable {size capacity : Nat} {h : List (Move α)} {m : Move α} {s t : State α} {job : Job} {call : Nat}

theorem deeds_concat : deeds (h ++ [m]) job = deeds h job ++ (m.deed? job).toList := by
  rw [deeds, List.filterMap_append, List.filterMap_cons]
  cases m.deed? job <;> rfl

theorem deeds_concat_of_none (does : m.deed? job = none) : deeds (h ++ [m]) job = deeds h job := by
  rw [deeds_concat, does]
  exact List.append_nil _

theorem told_concat : told (h ++ [m]) = told h ++ m.told?.toList := by
  rw [told, List.filterMap_append, List.filterMap_cons]
  cases m.told? <;> rfl

theorem began_concat : Began (h ++ [m]) job ↔ Began h job ∨ m.Begins job := by
  simp [Began, or_and_right, exists_or]

theorem ended_concat : Ended (h ++ [m]) job ↔ Ended h job ∨ m.Ends job := by
  simp [Ended, or_and_right, exists_or]

/-- A caller begins its first unit only. -/
theorem begins_perform : (Move.perform call : Move α).Begins job ↔ job = ⟨call, 0⟩ := by
  cases job
  simp [Move.Begins, and_comm, eq_comm]

/-- A caller is through with its first unit only. -/
theorem ends_collect : (Move.collect call : Move α).Ends job ↔ job = ⟨call, 0⟩ := by
  cases job
  simp [Move.Ends, and_comm, eq_comm]

/-! ## What a step leaves as it is -/

theorem turn?_setTurn (s : State α) (call other : Nat) (turn : Turn) :
    (s.setTurn call turn).turn? other = if call = other then (s.turn? other).map fun _ => turn else s.turn? other := by
  simp only [State.turn?, State.setTurn, List.getElem?_modify]
  split
  · cases s.callers[other]? <;> rfl
  · cases s.callers[other]? <;> rfl

theorem turn?_issue (s : State α) (caller : Caller) (other : Nat) :
    ({ s with callers := s.callers ++ [caller] } : State α).turn? other =
      if other = s.callers.length then some caller.turn else s.turn? other := by
  simp only [State.turn?, List.getElem?_append]
  by_cases old : other < s.callers.length
  · rw [if_pos old, if_neg (Nat.ne_of_lt old)]
  · rw [if_neg old, List.getElem?_eq_none (Nat.le_of_not_lt old)]
    by_cases new : other = s.callers.length
    · simp [new]
    · have later : 1 ≤ other - s.callers.length := by omega
      rw [if_neg new, List.getElem?_eq_none later]

theorem unit?_setTurn (s : State α) (call : Nat) (turn : Turn) (job : Job) : (s.setTurn call turn).unit? job = s.unit? job := by
  simp only [State.unit?, State.setTurn, List.getElem?_modify]
  split
  · cases s.callers[job.call]? <;> rfl
  · cases s.callers[job.call]? <;> rfl

theorem stage_setStage (s : State α) (job other : Job) (stage : Stage α) :
    (s.setStage job stage).stage other = if other = job then stage else s.stage other := by
  simp only [State.setStage, Function.update_apply]

/-- The units of a call stay. -/
theorem Step.unit? (step : Step s m t) {u : StatementUnit} (isUnit : s.unit? job = some u) : t.unit? job = some u := by
  cases step with
  | issue units =>
    obtain ⟨caller, isCaller, isUnit⟩ := Option.bind_eq_some_iff.mp isUnit
    have inRange : job.call < s.callers.length := (List.getElem?_eq_some_iff.mp isCaller).1
    rw [State.unit?, List.getElem?_append_left inRange, isCaller]
    exact isUnit
  | submit _ _ _ | refuse _ _ _ | collect _ _ | answer _ _ => exact (unit?_setTurn ..).trans isUnit
  | perform _ _ _ => exact (unit?_setTurn ..).trans isUnit
  | start _ _ | number _ _ _ | does _ | leave _ _ | stop => exact isUnit

/-! ## Jobs that have not begun -/

/-- A job is yet to be submitted, or a first unit is yet to be run. -/
def State.IsAhead (s : State α) (job : Job) : Prop :=
  s.turn? job.call = none ∨ ∃ unit, s.turn? job.call = some (.submitting unit) ∧ (job.unit = 0 ∨ unit ≤ job.unit)

/-- No unit can begin twice. -/
structure Fresh (s : State α) : Prop where
  pos : ∀ call unit, s.turn? call = some (.submitting unit) → 0 < unit
  nodup : s.pool.queue.Nodup
  queued : ∀ job ∈ s.pool.queue, s.stage job = .waiting
  ahead : ∀ job, s.IsAhead job → s.stage job = .waiting ∧ job ∉ s.pool.queue

namespace Fresh

theorem start : Fresh (start size capacity : State α) := ⟨nofun, List.nodup_nil, nofun, fun _ _ => ⟨rfl, List.not_mem_nil⟩⟩

/-- Nothing changes but where callers are. -/
theorem of_callers (fresh : Fresh s) (pool : t.pool = s.pool) (stage : t.stage = s.stage)
    (pos : ∀ call unit, t.turn? call = some (.submitting unit) → 0 < unit) (ahead : ∀ job, t.IsAhead job → s.IsAhead job) :
    Fresh t := by
  refine ⟨pos, pool ▸ fresh.nodup, ?_, ?_⟩
  · rw [pool, stage]
    exact fresh.queued
  · intro job isAhead
    rw [pool, stage]
    exact fresh.ahead job (ahead job isAhead)

/-- A caller does not submit any more. -/
theorem setTurn (fresh : Fresh s) {turn : Turn} (done : ∀ unit, turn ≠ .submitting unit) (began : s.turn? call ≠ none) :
    Fresh (s.setTurn call turn) := by
  refine fresh.of_callers rfl rfl (fun other unit submits => ?_) fun job isAhead => ?_
  · rw [turn?_setTurn] at submits
    split at submits
    · obtain ⟨_, _, same⟩ := Option.map_eq_some_iff.mp submits
      exact absurd same (done unit)
    · exact fresh.pos other unit submits
  · rw [State.IsAhead, turn?_setTurn] at isAhead
    split at isAhead
    · next same =>
      subst same
      rcases isAhead with none | ⟨unit, submits, -⟩
      · exact absurd (Option.map_eq_none_iff.mp none) began
      · obtain ⟨_, _, same⟩ := Option.map_eq_some_iff.mp submits
        exact absurd same (done unit)
    · exact isAhead

/-- The unit of a job that neither waits nor is ahead comes further. -/
theorem setStage (fresh : Fresh s) (stage : Stage α) (unqueued : job ∉ s.pool.queue) (notAhead : ¬ s.IsAhead job) :
    Fresh (s.setStage job stage) where
  pos := fresh.pos
  nodup := fresh.nodup
  queued other member := by
    rw [stage_setStage]
    split
    · next same => exact absurd (same ▸ member) unqueued
    · exact fresh.queued other member
  ahead other isAhead := by
    rw [stage_setStage]
    split
    · next same => exact absurd (same ▸ isAhead) notAhead
    · exact fresh.ahead other isAhead

/-- A unit that has begun neither waits nor is ahead. -/
theorem not_waiting (fresh : Fresh s) (began : s.stage job ≠ .waiting) : job ∉ s.pool.queue ∧ ¬ s.IsAhead job :=
  ⟨fun member => began (fresh.queued job member), fun isAhead => began (fresh.ahead job isAhead).1⟩

theorem isAhead_of_submitting {unit : Nat} (turn : s.turn? call = some (.submitting unit)) : s.IsAhead ⟨call, unit⟩ :=
  .inr ⟨unit, turn, .inr (Nat.le_refl unit)⟩

theorem issue (fresh : Fresh s) (units : List StatementUnit) :
    Fresh { s with callers := s.callers ++ [⟨units, if units.isEmpty then .returned else .submitting 1⟩] } := by
  refine fresh.of_callers rfl rfl (fun other unit submits => ?_) fun job isAhead => ?_
  · rw [turn?_issue] at submits
    split at submits
    · by_cases isEmpty : units.isEmpty = true
      · simp [isEmpty] at submits
      · simp only [isEmpty] at submits
        obtain ⟨⟩ := submits
        exact Nat.one_pos
    · exact fresh.pos other unit submits
  · rw [State.IsAhead, turn?_issue] at isAhead
    split at isAhead
    · next same =>
      have none : s.turn? job.call = none := by
        rw [State.turn?, same, List.getElem?_eq_none (Nat.le_refl _)]
        rfl
      exact .inl none
    · exact isAhead

theorem submit (fresh : Fresh s) {unit : Nat} {pool : Pool Job} (turn : s.turn? call = some (.submitting unit))
    (accepted : s.pool.submit ⟨call, unit⟩ = .ok pool) : Fresh { s.setTurn call (.submitting (unit + 1)) with pool } := by
  obtain ⟨-, rfl⟩ := Pool.submit_eq_ok_iff.mp accepted
  obtain ⟨waiting, unqueued⟩ := fresh.ahead _ (isAhead_of_submitting turn)
  have isAheadBefore {job : Job} (isAhead : (s.setTurn call (.submitting (unit + 1))).IsAhead job) :
      s.IsAhead job ∧ job ≠ ⟨call, unit⟩ := by
    rw [State.IsAhead, turn?_setTurn] at isAhead
    split at isAhead
    · next same =>
      subst same
      rw [turn] at isAhead
      rcases isAhead with none | ⟨next, submits, position⟩
      · cases none
      · obtain rfl : unit + 1 = next := by simpa using submits
        refine ⟨.inr ⟨unit, turn, by omega⟩, fun same => ?_⟩
        have isUnit : job.unit = unit := congrArg Job.unit same
        have pos := fresh.pos _ _ turn
        omega
    · next other =>
      exact ⟨isAhead, fun same => other (congrArg Job.call same).symm⟩
  refine ⟨fun other next submits => ?_, ?_, fun job member => ?_, fun job isAhead => ?_⟩
  · have submits : (s.setTurn call (.submitting (unit + 1))).turn? other = some (.submitting next) := submits
    rw [turn?_setTurn] at submits
    split at submits
    · obtain ⟨_, _, same⟩ := Option.map_eq_some_iff.mp submits
      obtain ⟨⟩ := same
      exact Nat.succ_pos unit
    · exact fresh.pos other next submits
  · exact List.nodup_append.mpr ⟨fresh.nodup, List.nodup_singleton _, fun job member job' last =>
      fun same => unqueued (List.mem_singleton.mp last ▸ same ▸ member)⟩
  · rcases List.mem_append.mp member with early | last
    · exact fresh.queued job early
    · rw [List.mem_singleton.mp last]
      exact waiting
  · obtain ⟨before, different⟩ := isAheadBefore isAhead
    obtain ⟨waiting, unqueued⟩ := fresh.ahead job before
    exact ⟨waiting, fun member => (List.mem_append.mp member).elim unqueued fun last => different (List.mem_singleton.mp last)⟩

/-- Jobs leave the queue. -/
theorem dequeue (fresh : Fresh s) {pool : Pool Job} (sublist : pool.queue.Sublist s.pool.queue) : Fresh { s with pool } where
  pos := fresh.pos
  nodup := fresh.nodup.sublist sublist
  queued job member := fresh.queued job (sublist.subset member)
  ahead job isAhead := ⟨(fresh.ahead job isAhead).1, fun member => (fresh.ahead job isAhead).2 (sublist.subset member)⟩

theorem step (fresh : Fresh s) (step : Step s m t) : Fresh t := by
  cases step with
  | issue units => exact fresh.issue units
  | submit turn _ accepted => exact fresh.submit turn accepted
  | refuse turn _ _ => exact fresh.setTurn nofun (by rw [turn]; exact nofun)
  | @perform call unit u turn _ _ =>
    have unqueued : ⟨call, 0⟩ ∉ s.pool.queue := (fresh.ahead ⟨call, 0⟩ (.inr ⟨unit, turn, .inl rfl⟩)).2
    have performs : Fresh (s.setTurn call .performing) := fresh.setTurn nofun (by rw [turn]; exact nofun)
    refine performs.setStage _ unqueued ?_
    rw [State.IsAhead, turn?_setTurn, if_pos rfl, turn]
    simp
  | @start job u pool took _ =>
    obtain ⟨rest, queue, -, rfl⟩ := Pool.take?_eq_some_iff.mp took
    have nodup := fresh.nodup
    rw [queue] at nodup
    have taken : Fresh { s with pool := { s.pool with queue := rest, running := s.pool.running ++ [job] } } :=
      fresh.dequeue (by rw [queue]; exact List.sublist_cons_self job rest)
    refine taken.setStage (.begun u) (List.nodup_cons.mp nodup).1 fun isAhead => ?_
    exact (fresh.ahead job isAhead).2 (queue ▸ List.mem_cons_self)
  | @number job u events parameters left now _ stage =>
    have begun : s.stage job ≠ .waiting := by
      rw [stage]
      exact nofun
    obtain ⟨unqueued, notAhead⟩ := fresh.not_waiting begun
    have staged := fresh.setStage (.numbered (events ++ [.before s.nextEvent u.dataSource u.sql parameters now]) left) unqueued notAhead
    exact ⟨staged.pos, staged.nodup, staged.queued, staged.ahead⟩
  | @does job _ stage does =>
    obtain ⟨unqueued, notAhead⟩ := fresh.not_waiting does.ne_waiting
    have staged := fresh.setStage stage unqueued notAhead
    exact ⟨staged.pos, staged.nodup, staged.queued, staged.ahead⟩
  | leave _ _ => exact fresh.dequeue (List.Sublist.refl _)
  | collect turn _ => exact fresh.setTurn nofun (by rw [turn]; exact nofun)
  | answer turn _ => exact fresh.setTurn nofun (by rw [turn]; exact nofun)
  | stop => exact fresh.dequeue (List.nil_sublist _)

theorem of_run (run : Run size capacity h s) : Fresh s := by
  induction run with
  | start => exact Fresh.start
  | step _ step ih => exact ih.step step

end Fresh

/-! ## Lives of units -/

/-- A worker or the caller is at work on a unit. -/
def State.IsAtWork (s : State α) (job : Job) : Prop :=
  job ∈ s.pool.running ∨ (job.unit = 0 ∧ s.turn? job.call = some .performing)

theorem State.IsAtWork.issue (works : s.IsAtWork job) (caller : Caller) :
    ({ s with callers := s.callers ++ [caller] } : State α).IsAtWork job := by
  rcases works with running | ⟨isFirst, performs⟩
  · exact .inl running
  · have inRange : job.call < s.callers.length := by
      obtain ⟨_, isCaller, -⟩ := Option.map_eq_some_iff.mp performs
      exact (List.getElem?_eq_some_iff.mp isCaller).1
    refine .inr ⟨isFirst, ?_⟩
    rwa [turn?_issue, if_neg (Nat.ne_of_lt inRange)]

/-- Only the caller itself leaves its first unit. -/
theorem State.IsAtWork.setTurn (works : s.IsAtWork job) {turn : Turn} (other : job = ⟨call, 0⟩ → s.turn? call ≠ some .performing) :
    (s.setTurn call turn).IsAtWork job := by
  rcases works with running | ⟨isFirst, performs⟩
  · exact .inl running
  · refine .inr ⟨isFirst, ?_⟩
    rw [turn?_setTurn]
    split
    · next same =>
      subst same
      exact absurd performs (other (congrArg (Job.mk job.call) isFirst))
    · exact performs

/-- How far a unit has come by a history, and what it has done. -/
inductive Life (h : List (Move α)) (s : State α) (job : Job) : Prop
  | waiting (stage : s.stage job = .waiting) (deeds : deeds h job = []) (notBegan : ¬ Began h job) (notEnded : ¬ Ended h job)
  | running {u : StatementUnit} (isUnit : s.unit? job = some u) (along : (s.stage job).Along u (deeds h job)) (began : Began h job)
    (notEnded : ¬ Ended h job) (atWork : s.IsAtWork job)
  | ended {u : StatementUnit} (isUnit : s.unit? job = some u) (along : (s.stage job).Along u (deeds h job))
    (through : (s.stage job).IsThrough) (began : Began h job) (ended : Ended h job)

namespace Life

theorem start (job : Job) : Life [] (start size capacity : State α) job := .waiting rfl rfl (by simp [Began]) (by simp [Ended])

/-- What happens elsewhere does not touch a unit. -/
theorem passes (life : Life h s job) (step : Step s m t) (stage : t.stage job = s.stage job) (does : m.deed? job = none)
    (begins : ¬ m.Begins job) (ends : ¬ m.Ends job) (atWork : s.IsAtWork job → t.IsAtWork job) : Life (h ++ [m]) t job := by
  have sameDeeds : deeds (h ++ [m]) job = deeds h job := deeds_concat_of_none does
  have sameBegan : Began (h ++ [m]) job ↔ Began h job := by simp [began_concat, begins]
  have sameEnded : Ended (h ++ [m]) job ↔ Ended h job := by simp [ended_concat, ends]
  cases life with
  | waiting waits none notBegan notEnded =>
    exact .waiting (stage.trans waits) (sameDeeds.trans none) (sameBegan.not.mpr notBegan) (sameEnded.not.mpr notEnded)
  | running isUnit along began notEnded works =>
    refine .running (step.unit? isUnit) ?_ (sameBegan.mpr began) (sameEnded.not.mpr notEnded) (atWork works)
    rwa [stage, sameDeeds]
  | ended isUnit along through began ended =>
    refine .ended (step.unit? isUnit) ?_ ?_ (sameBegan.mpr began) (sameEnded.mpr ended)
    · rwa [stage, sameDeeds]
    · rwa [stage]

/-- A unit begins. -/
theorem begins {u : StatementUnit} (life : Life h s job) (waits : s.stage job = .waiting) (isUnit : t.unit? job = some u)
    (stage : t.stage job = .begun u) (begins : m.Begins job) (does : m.deed? job = none) (ends : ¬ m.Ends job)
    (atWork : t.IsAtWork job) : Life (h ++ [m]) t job := by
  cases life with
  | waiting _ none _ notEnded =>
    refine .running isUnit ?_ (began_concat.mpr (.inr begins)) (by simp [ended_concat, notEnded, ends]) atWork
    rw [stage, deeds_concat_of_none does, none]
    exact Stage.Along.begun u
  | running _ along _ _ _ | ended _ along _ _ _ =>
    rw [waits] at along
    cases along

/-- A unit does something. -/
theorem goesOn (life : Life h s job) (step : Step s m t) (begun : s.stage job ≠ .waiting) (notThrough : ¬ (s.stage job).IsThrough)
    (along : ∀ u, s.unit? job = some u → (s.stage job).Along u (deeds h job) → (t.stage job).Along u (deeds (h ++ [m]) job))
    (ends : ¬ m.Ends job) (atWork : s.IsAtWork job → t.IsAtWork job) : Life (h ++ [m]) t job := by
  cases life with
  | waiting waits _ _ _ => exact absurd waits begun
  | @running u isUnit before began notEnded works =>
    exact .running (step.unit? isUnit) (along u isUnit before) (began_concat.mpr (.inl began)) (by simp [ended_concat, notEnded, ends])
      (atWork works)
  | ended _ _ through _ _ => exact absurd through notThrough

/-- A worker or the caller is through with a unit. -/
theorem ends (life : Life h s job) (step : Step s m t) (through : (s.stage job).IsThrough)
    (stage : t.stage job = s.stage job) (does : m.deed? job = none) (ends : m.Ends job) : Life (h ++ [m]) t job := by
  have sameDeeds : deeds (h ++ [m]) job = deeds h job := deeds_concat_of_none does
  cases life with
  | waiting waits _ _ _ =>
    rw [waits] at through
    cases through
  | @running u isUnit along began _ _ | @ended u isUnit along _ began _ =>
    refine .ended (step.unit? isUnit) ?_ ?_ (began_concat.mpr (.inl began)) (ended_concat.mpr (.inr ends))
    · rwa [stage, sameDeeds]
    · rwa [stage]

/-- What happens brings every unit a step along its life, or leaves it where it is. -/
theorem step (life : Life h s job) (fresh : Fresh s) (step : Step s m t) : Life (h ++ [m]) t job := by
  have moves := step
  -- Each move is about one unit at most, and all others pass; so the moves of units are split by whether this one moves.
  cases step with
  | issue units => exact life.passes moves rfl rfl (by simp [Move.Begins]) (by simp [Move.Ends]) (·.issue _)
  | @submit call unit u pool turn _ accepted =>
    obtain ⟨-, rfl⟩ := Pool.submit_eq_ok_iff.mp accepted
    have notPerforming : s.turn? call ≠ some .performing := by simp [turn]
    exact life.passes moves rfl rfl (by simp [Move.Begins]) (by simp [Move.Ends]) fun works => works.setTurn fun _ => notPerforming
  | refuse turn _ _ =>
    exact life.passes moves rfl rfl (by simp [Move.Begins]) (by simp [Move.Ends]) (·.setTurn fun _ => by simp [turn])
  | @perform call unit u turn _ isFirst =>
    by_cases same : job = ⟨call, 0⟩
    · subst same
      have waits : s.stage ⟨call, 0⟩ = .waiting := (fresh.ahead ⟨call, 0⟩ (.inr ⟨unit, turn, .inl rfl⟩)).1
      refine life.begins waits (moves.unit? isFirst) (by simp [stage_setStage]) (begins_perform.mpr rfl) rfl (by simp [Move.Ends]) ?_
      refine .inr ⟨rfl, ?_⟩
      show (s.setTurn call .performing).turn? call = some .performing
      rw [turn?_setTurn, if_pos rfl, turn]
      rfl
    · refine life.passes moves ?_ rfl (begins_perform.not.mpr same) (by simp [Move.Ends]) fun works => ?_
      · rw [stage_setStage, if_neg same]
        rfl
      · have notPerforming : s.turn? call ≠ some .performing := by simp [turn]
        exact works.setTurn fun _ => notPerforming
  | @start other u pool took isUnit =>
    obtain ⟨rest, queue, -, rfl⟩ := Pool.take?_eq_some_iff.mp took
    by_cases same : job = other
    · subst same
      have waits : s.stage job = .waiting := fresh.queued job (queue ▸ List.mem_cons_self)
      refine life.begins waits (moves.unit? isUnit) ?_ (.inl rfl) rfl (by simp [Move.Ends]) ?_
      · exact (stage_setStage ..).trans (if_pos rfl)
      · exact .inl (List.mem_append_right _ List.mem_cons_self)
    · refine life.passes moves ?_ rfl ?_ (by simp [Move.Ends]) ?_
      · exact (stage_setStage ..).trans (if_neg same)
      · simpa [Move.Begins] using Ne.symm same
      · exact fun works => works.imp_left (List.mem_append_left _)
  | @number other u events parameters left now isUnit stage =>
    by_cases same : job = other
    · subst same
      refine life.goesOn moves (by simp [stage]) (by simp [stage, Stage.IsThrough]) (fun u' isUnit' along => ?_) (by simp [Move.Ends]) id
      obtain rfl : u = u' := Option.some.inj (isUnit.symm.trans isUnit')
      rw [stage] at along
      have next := along.number s.nextEvent now
      rw [deeds_concat]
      show Stage.Along u ((s.setStage job _).stage job) (deeds h job ++ [])
      rwa [stage_setStage, if_pos rfl, List.append_nil]
    · refine life.passes moves ?_ rfl (by simp [Move.Begins]) (by simp [Move.Ends]) id
      exact (stage_setStage ..).trans (if_neg same)
  | @does other deed stage does =>
    by_cases same : job = other
    · subst same
      refine life.goesOn moves does.ne_waiting does.not_isThrough (fun u _ along => ?_) (by simp [Move.Ends]) id
      have next := along.does does
      rw [deeds_concat, Move.deed?, if_pos rfl]
      show Stage.Along u ((s.setStage job _).stage job) _
      rwa [stage_setStage, if_pos rfl]
    · refine life.passes moves ?_ ?_ (by simp [Move.Begins]) (by simp [Move.Ends]) id
      · exact (stage_setStage ..).trans (if_neg same)
      · exact if_neg (Ne.symm same)
  | @leave other running through =>
    by_cases same : job = other
    · subst same
      exact life.ends moves through rfl rfl (.inl rfl)
    · refine life.passes moves rfl rfl (by simp [Move.Begins]) (by simpa [Move.Ends] using Ne.symm same) fun works => ?_
      exact works.imp_left (List.mem_erase_of_ne same).mpr
  | @collect call turn through =>
    by_cases same : job = ⟨call, 0⟩
    · subst same
      exact life.ends moves through rfl rfl (ends_collect.mpr rfl)
    · refine life.passes moves rfl rfl (by simp [Move.Begins]) (ends_collect.not.mpr same) ?_
      exact (·.setTurn fun isFirst => absurd isFirst same)
  | answer turn _ =>
    exact life.passes moves rfl rfl (by simp [Move.Begins]) (by simp [Move.Ends]) (·.setTurn fun _ => by simp [turn])
  | stop => exact life.passes moves rfl rfl (by simp [Move.Begins]) (by simp [Move.Ends]) id

theorem of_run (run : Run size capacity h s) (job : Job) : Life h s job := by
  -- A unit that begins must have been waiting, so the step needs that no job can be taken twice.
  induction run with
  | start => exact .start job
  | step run step ih => exact ih.step (.of_run run) step

end Life

end SqlSharding.Execution.Watched
