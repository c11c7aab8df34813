import SqlSharding.Proofs.Answers
import SqlSharding.Proofs.PoolHistories

/-!
# Histories of a call

A call submits the jobs of its units, runs its first unit, and collects outcomes until no job can send one any more.
Meanwhile workers take jobs and end them, other callers submit jobs of their own, and shutdowns drop jobs that wait. In
whatever order this happens, the answer is a function of the outcomes of the units alone, and if no job was refused then
no unit is at work any more when the call returns. A call that was refused leaves the units behind that are at work.
-/

namespace SqlSharding.Execution.Call

variable {α : Type}

/-! ## Steps -/

/-- Where a caller is. -/
inductive Caller (α : Type) where
  /-- It is to submit the job of a unit, or to run its first unit if there is no such unit. -/
  | submitting (unit : Nat)
  /-- It has received outcomes, that of its own unit first. -/
  | collecting (arrivals : List (Nat × Outcome α))
  | returned (result : Outcome (List (Option α)))

/-- A call together with the pool. The job of a unit has its number. -/
structure State (α : Type) where
  pool : Pool Nat
  caller : Caller α
  /-- The units whose jobs can send an outcome. -/
  pending : List Nat
  /-- The outcomes that were sent and not received. -/
  mailbox : List (Nat × Outcome α)

/-- What happens to a call. -/
inductive Move (α : Type) where
  | submit (unit : Nat)
  | refuse (unit : Nat)
  /-- The caller runs its first unit. -/
  | runFirst (outcome : Outcome α)
  /-- A unit is no more at work; it panicked if it has no outcome. -/
  | finish (unit : Nat) (outcome : Option (Outcome α))
  /-- The job of a unit, which a shutdown took from the queue, is released. -/
  | drop (unit : Nat)
  | receive
  | answer
  /-- Something else happens to the pool. -/
  | pool (m : Pool.Move Nat)

/-- The units that have a job. -/
def IsUnit (count unit : Nat) : Prop := 0 < unit ∧ unit < count

/-- What can happen to the pool besides the submissions of a call: other callers have other jobs, and a worker leaves a
unit when its work is over. -/
def IsOther (count : Nat) (pending : List Nat) : Pool.Move Nat → Prop
  | .accept job | .refuse job => ¬ IsUnit count job
  | .finish job _ => job ∉ pending
  | _ => True

/-- One step of a call of some number of units. -/
inductive Step (failFast : Bool) (count : Nat) : State α → Move α → State α → Prop
  | submit {s : State α} {unit : Nat} {pool : Pool Nat} (turn : s.caller = .submitting unit) (inRange : unit < count)
    (accepted : s.pool.submit unit = .ok pool) :
    Step failFast count s (.submit unit) { s with pool, caller := .submitting (unit + 1), pending := s.pending ++ [unit] }
  | refuse {s : State α} {unit : Nat} {f : Failure} (turn : s.caller = .submitting unit) (inRange : unit < count)
    (refused : s.pool.submit unit = .error f) :
    Step failFast count s (.refuse unit) { s with caller := .returned (.error f) }
  | runFirst {s : State α} (outcome : Outcome α) (turn : s.caller = .submitting count) :
    Step failFast count s (.runFirst outcome) { s with caller := .collecting [(0, outcome)] }
  | finish {s : State α} {unit : Nat} (outcome : Option (Outcome α)) (running : unit ∈ s.pool.running)
    (pending : unit ∈ s.pending) :
    Step failFast count s (.finish unit outcome)
      { s with pending := s.pending.erase unit, mailbox := s.mailbox ++ (outcome.map (unit, ·)).toList }
  | drop {s : State α} {unit : Nat} (pending : unit ∈ s.pending) (notQueued : unit ∉ s.pool.queue)
    (notRunning : unit ∉ s.pool.running) : Step failFast count s (.drop unit) { s with pending := s.pending.erase unit }
  | receive {s : State α} {arrivals rest : List (Nat × Outcome α)} {arrival : Nat × Outcome α}
    (turn : s.caller = .collecting arrivals) (mailbox : s.mailbox = arrival :: rest) :
    Step failFast count s .receive { s with caller := .collecting (arrivals ++ [arrival]), mailbox := rest }
  | answer {s : State α} {arrivals : List (Nat × Outcome α)} (turn : s.caller = .collecting arrivals) (mailbox : s.mailbox = [])
    (pending : s.pending = []) :
    Step failFast count s .answer { s with caller := .returned (Execution.answer failFast (arrange count arrivals)) }
  | pool {s : State α} {m : Pool.Move Nat} {pool : Pool Nat} (step : s.pool.Step m pool) (isOther : IsOther count s.pending m) :
    Step failFast count s (.pool m) { s with pool }

/-! ## Histories -/

/-- What a move does to the pool. -/
def Move.poolMove? : Move α → Option (Pool.Move Nat)
  | .submit unit => some (.accept unit)
  | .refuse unit => some (.refuse unit)
  | .pool m => some m
  | _ => none

/-- The history of the pool. -/
def poolMoves (h : List (Move α)) : List (Pool.Move Nat) := h.filterMap Move.poolMove?

/-- The units whose jobs were submitted, and the first unit when it has run. -/
def entered (h : List (Move α)) : List Nat := h.filterMap fun
  | .submit unit => some unit
  | .runFirst _ => some 0
  | _ => none

/-- The units that came to an end, with the outcomes that they sent, if any. -/
def endings (h : List (Move α)) : List (Nat × Option (Outcome α)) := h.filterMap fun
  | .runFirst outcome => some (0, some outcome)
  | .finish unit outcome => some (unit, outcome)
  | .drop unit => some (unit, none)
  | _ => none

/-- The outcomes that the units sent, the first one first. -/
def sent (h : List (Move α)) : List (Nat × Outcome α) := (endings h).filterMap fun (unit, outcome) => outcome.map (unit, ·)

/-- A call that begins. Without units there is nothing to do. -/
def start (size count : Nat) : State α := ⟨.ofSize size, if count = 0 then .returned (.ok []) else .submitting 1, [], []⟩

/-- A call comes by a history to a state. What happened to the pool before the call is part of the history. -/
inductive Run (size : Nat) (failFast : Bool) (count : Nat) : List (Move α) → State α → Prop
  | start : Run size failFast count [] (start size count)
  | step {h : List (Move α)} {s t : State α} {m : Move α} (run : Run size failFast count h s)
    (follows : ∀ move ∈ m.poolMove?, Pool.Follows (poolMoves h) move) (step : Step failFast count s m t) :
    Run size failFast count (h ++ [m]) t

variable {size count unit : Nat} {failFast : Bool} {h : List (Move α)} {m : Move α} {s t : State α}

@[simp]
theorem poolMoves_concat : poolMoves (h ++ [m]) = poolMoves h ++ m.poolMove?.toList := by
  rw [poolMoves, List.filterMap_append, List.filterMap_cons, List.filterMap_nil]
  cases m.poolMove? <;> rfl

@[simp]
theorem entered_concat : entered (h ++ [m]) = entered h ++ match m with | .submit unit => [unit] | .runFirst _ => [0] | _ => [] := by
  rw [entered, List.filterMap_append]
  cases m <;> rfl

@[simp]
theorem endings_concat : endings (h ++ [m]) = endings h ++ match m with
    | .runFirst outcome => [(0, some outcome)]
    | .finish unit outcome => [(unit, outcome)]
    | .drop unit => [(unit, none)]
    | _ => [] := by
  rw [endings, List.filterMap_append]
  cases m <;> rfl

@[simp]
theorem sent_concat : sent (h ++ [m]) = sent h ++ match m with
    | .runFirst outcome => [(0, outcome)]
    | .finish unit outcome => (outcome.map (unit, ·)).toList
    | _ => [] := by
  rw [sent, endings_concat, List.filterMap_append]
  cases m with
  | finish unit outcome => cases outcome <;> rfl
  | _ => rfl

theorem mem_entered : unit ∈ entered h ↔ .submit unit ∈ h ∨ (unit = 0 ∧ ∃ outcome, .runFirst outcome ∈ h) := by
  rw [entered, List.mem_filterMap]
  constructor
  · rintro ⟨m, member, same⟩
    cases m <;> cases same
    · exact .inl member
    · exact .inr ⟨rfl, _, member⟩
  · rintro (member | ⟨rfl, outcome, member⟩)
    · exact ⟨_, member, rfl⟩
    · exact ⟨_, member, rfl⟩

theorem mem_endings {outcome : Option (Outcome α)} : (unit, outcome) ∈ endings h ↔
    (unit = 0 ∧ ∃ first, outcome = some first ∧ .runFirst first ∈ h) ∨ .finish unit outcome ∈ h ∨ (outcome = none ∧ .drop unit ∈ h) := by
  rw [endings, List.mem_filterMap]
  constructor
  · rintro ⟨m, member, same⟩
    cases m <;> cases same
    · exact .inl ⟨rfl, _, rfl, member⟩
    · exact .inr (.inl member)
    · exact .inr (.inr ⟨rfl, member⟩)
  · rintro (⟨rfl, first, rfl, member⟩ | member | ⟨rfl, member⟩)
    · exact ⟨_, member, rfl⟩
    · exact ⟨_, member, rfl⟩
    · exact ⟨_, member, rfl⟩

theorem mem_sent {outcome : Outcome α} : (unit, outcome) ∈ sent h ↔ (unit, some outcome) ∈ endings h := by
  simp [sent]

theorem sent_sublist : ((sent h).map Prod.fst).Sublist ((endings h).map Prod.fst) := by
  rw [sent]
  induction endings h with
  | nil => exact .slnil
  | cons ending rest ih =>
    obtain ⟨unit, outcome⟩ := ending
    cases outcome with
    | none => exact ih.cons unit
    | some outcome => exact ih.cons_cons unit

/-! ## The caller along a history -/

/-- How far a call has come by a history. -/
inductive Phase (failFast : Bool) (count : Nat) (h : List (Move α)) (s : State α) : Prop
  | submitting (unit : Nat) (turn : s.caller = .submitting unit) (bounds : 0 < unit ∧ unit ≤ count)
    (submits : ∀ other, .submit other ∈ h ↔ 0 < other ∧ other < unit) (accepts : ∀ other, .refuse other ∉ h)
    (waits : ∀ outcome, .runFirst outcome ∉ h) (mailbox : s.mailbox.Perm (sent h))
  | collecting (arrivals : List (Nat × Outcome α)) (turn : s.caller = .collecting arrivals)
    (submits : ∀ other, .submit other ∈ h ↔ IsUnit count other) (accepts : ∀ other, .refuse other ∉ h)
    (ranFirst : ∃ outcome, .runFirst outcome ∈ h) (arrived : (arrivals ++ s.mailbox).Perm (sent h))
  | refused (unit : Nat) (turn : s.caller = .returned (.error .executorShutdown)) (refuses : .refuse unit ∈ h)
  | answered (arrivals : List (Nat × Outcome α))
    (turn : s.caller = .returned (Execution.answer failFast (arrange count arrivals)))
    (submits : ∀ other, .submit other ∈ h ↔ IsUnit count other) (accepts : ∀ other, .refuse other ∉ h)
    (ranFirst : 0 < count → ∃ outcome, .runFirst outcome ∈ h) (arrived : arrivals.Perm (sent h)) (pending : s.pending = [])

namespace Phase

theorem start : Phase failFast count [] (start size count : State α) := by
  by_cases none : count = 0
  · subst none
    exact .answered [] rfl (by simp [IsUnit]) (by simp) (by simp) (List.Perm.refl _) rfl
  · refine .submitting 1 (by simp [Call.start, none]) (by omega) (fun other => ?_) (by simp) (by simp) (List.Perm.refl _)
    simp only [List.not_mem_nil, false_iff]
    omega

/-- What happens elsewhere does not move the caller. -/
theorem passes {new : List (Nat × Outcome α)} (phase : Phase failFast count h s) (caller : t.caller = s.caller)
    (submits : ∀ unit, m ≠ .submit unit) (refuses : ∀ unit, m ≠ .refuse unit) (runs : ∀ outcome, m ≠ .runFirst outcome)
    (sends : sent (h ++ [m]) = sent h ++ new) (mailbox : t.mailbox = s.mailbox ++ new)
    (quiet : s.pending = [] → t.pending = [] ∧ new = []) : Phase failFast count (h ++ [m]) t := by
  have elsewhere {m' : Move α} (other : m ≠ m') : m' ∈ h ++ [m] ↔ m' ∈ h := by simp [other.symm]
  have sameSubmits (unit : Nat) := elsewhere (submits unit)
  have sameRefuses (unit : Nat) := elsewhere (refuses unit)
  have sameRuns (outcome : Outcome α) := elsewhere (runs outcome)
  cases phase with
  | submitting unit turn bounds submits accepts waits arrived =>
    refine .submitting unit (caller.trans turn) bounds ?_ ?_ ?_ ?_
    · simpa only [sameSubmits] using submits
    · simpa only [sameRefuses] using accepts
    · simpa only [sameRuns] using waits
    · rw [sends, mailbox]
      exact arrived.append_right new
  | collecting arrivals turn submits accepts ranFirst arrived =>
    refine .collecting arrivals (caller.trans turn) ?_ ?_ ?_ ?_
    · simpa only [sameSubmits] using submits
    · simpa only [sameRefuses] using accepts
    · simpa only [sameRuns] using ranFirst
    · rw [sends, mailbox, ← List.append_assoc]
      exact arrived.append_right new
  | refused unit turn refuses => exact .refused unit (caller.trans turn) (List.mem_append_left _ refuses)
  | answered arrivals turn submits accepts ranFirst arrived pending =>
    obtain ⟨closed, rfl⟩ := quiet pending
    refine .answered arrivals (caller.trans turn) ?_ ?_ ?_ ?_ closed
    · simpa only [sameSubmits] using submits
    · simpa only [sameRefuses] using accepts
    · simpa only [sameRuns] using ranFirst
    · rwa [sends, List.append_nil]

/-- A caller that submits. -/
theorem of_submitting (phase : Phase failFast count h s) (turn : s.caller = .submitting unit) :
    (0 < unit ∧ unit ≤ count) ∧ (∀ other, .submit other ∈ h ↔ 0 < other ∧ other < unit) ∧ (∀ other, .refuse other ∉ h) ∧
      (∀ outcome, .runFirst outcome ∉ h) ∧ s.mailbox.Perm (sent h) := by
  cases phase with
  | submitting current same bounds submits accepts waits mailbox =>
    obtain rfl : unit = current := by simpa [turn] using same
    exact ⟨bounds, submits, accepts, waits, mailbox⟩
  | _ => simp_all

/-- A caller that collects outcomes. -/
theorem of_collecting {arrivals : List (Nat × Outcome α)} (phase : Phase failFast count h s)
    (turn : s.caller = .collecting arrivals) :
    (∀ other, .submit other ∈ h ↔ IsUnit count other) ∧ (∀ other, .refuse other ∉ h) ∧ (∃ outcome, .runFirst outcome ∈ h) ∧
      (arrivals ++ s.mailbox).Perm (sent h) := by
  cases phase with
  | collecting current same submits accepts ranFirst arrived =>
    obtain rfl : arrivals = current := by simpa [turn] using same
    exact ⟨submits, accepts, ranFirst, arrived⟩
  | _ => simp_all

/-- One step of the call brings it to its next phase. -/
theorem step (phase : Phase failFast count h s) (step : Step failFast count s m t) : Phase failFast count (h ++ [m]) t := by
  cases step with
  | submit turn inRange accepted =>
    obtain ⟨bounds, submits, accepts, waits, mailbox⟩ := phase.of_submitting turn
    refine .submitting _ rfl (by omega) (fun other => ?_) (by simpa using accepts) (by simpa using waits) (by simpa using mailbox)
    simp only [List.mem_append, List.mem_singleton, Move.submit.injEq, submits]
    omega
  | refuse turn inRange refused =>
    obtain ⟨-, rfl⟩ := Pool.submit_eq_error_iff.mp refused
    exact .refused _ rfl List.mem_concat_self
  | runFirst outcome turn =>
    obtain ⟨-, submits, accepts, -, mailbox⟩ := phase.of_submitting turn
    refine .collecting _ rfl (by simpa [IsUnit] using submits) (by simpa using accepts) ⟨outcome, List.mem_concat_self⟩ ?_
    rw [sent_concat]
    exact List.perm_append_comm.trans (mailbox.append_right _)
  | finish outcome running pending =>
    refine phase.passes rfl (by simp) (by simp) (by simp) (by simp) rfl fun none => ?_
    simp [none] at pending
  | drop pending =>
    refine phase.passes rfl (by simp) (by simp) (by simp) (by simp) (List.append_nil _).symm fun none => ?_
    simp [none] at pending
  | receive turn mailbox =>
    obtain ⟨submits, accepts, ranFirst, arrived⟩ := phase.of_collecting turn
    refine .collecting _ rfl (by simpa using submits) (by simpa using accepts) (by simpa using ranFirst) ?_
    simpa [mailbox] using arrived
  | answer turn mailbox pending =>
    obtain ⟨submits, accepts, ranFirst, arrived⟩ := phase.of_collecting turn
    refine .answered _ rfl (by simpa using submits) (by simpa using accepts) (fun _ => by simpa using ranFirst) ?_ pending
    simpa [mailbox] using arrived
  | pool step isOther =>
    exact phase.passes rfl (by simp) (by simp) (by simp) (by simp) (List.append_nil _).symm fun none => ⟨none, rfl⟩

end Phase

theorem Run.phase (run : Run size failFast count h s) : Phase failFast count h s := by
  induction run with
  | start => exact .start
  | step _ _ step phase => exact phase.step step

/-! ## The pool along a history -/

/-- A step of the call is at most one step of the pool. -/
theorem Step.poolStep (step : Step failFast count s m t) :
    (∃ move, m.poolMove? = some move ∧ s.pool.Step move t.pool) ∨ (m.poolMove? = none ∧ t.pool = s.pool) := by
  cases step with
  | submit _ _ accepted => exact .inl ⟨_, rfl, .accept accepted⟩
  | refuse _ _ refused => exact .inl ⟨_, rfl, .refuse refused⟩
  | pool step _ => exact .inl ⟨_, rfl, step⟩
  | _ => exact .inr ⟨rfl, rfl⟩

theorem Run.poolRun (run : Run size failFast count h s) : Pool.Run size (poolMoves h) s.pool := by
  induction run with
  | start => exact .new
  | step _ follows step poolRun =>
    rw [poolMoves_concat]
    rcases step.poolStep with ⟨move, isMove, step⟩ | ⟨none, same⟩
    · rw [isMove]
      exact poolRun.step (follows move isMove) step
    · rwa [none, same, Option.toList_none, List.append_nil]

/-- Other callers do not submit the jobs of the units. -/
theorem Run.own (run : Run size failFast count h s) (submitted : unit ∈ Pool.submitted (poolMoves h)) (isUnit : IsUnit count unit) :
    .submit unit ∈ h ∨ .refuse unit ∈ h := by
  induction run with
  | start => cases submitted
  | @step h s t m _ _ step ih =>
    rw [poolMoves_concat] at submitted
    by_cases earlier : unit ∈ Pool.submitted (poolMoves h)
    · exact (ih earlier).imp (List.mem_append_left _) (List.mem_append_left _)
    · cases step with
      | submit => simp_all [Move.poolMove?]
      | refuse => simp_all [Move.poolMove?]
      | pool step isOther =>
        cases step <;> simp_all [Move.poolMove?, IsOther]
      | _ => simp_all [Move.poolMove?]

/-- After a refusal no job is accepted. -/
theorem Run.stopped (run : Run size failFast count h s) (refused : .refuse unit ∈ h) : s.pool.isAccepting = false := by
  induction run with
  | start => cases refused
  | step _ _ step ih =>
    rcases List.mem_append.mp refused with earlier | now
    · rcases step.poolStep with ⟨move, -, step⟩ | ⟨-, same⟩
      · exact step.isAccepting (ih earlier)
      · rw [same]
        exact ih earlier
    · cases step with
      | refuse _ _ failed => exact (Pool.submit_eq_error_iff.mp failed).1
      | _ => simp at now

/-- A unit that waits for a worker can still send its outcome. -/
theorem Run.queued (run : Run size failFast count h s) (waits : unit ∈ s.pool.queue) (isUnit : IsUnit count unit) :
    unit ∈ s.pending := by
  induction run with
  | start => cases waits
  | step run _ step ih =>
    cases step with
    | submit turn inRange accepted =>
      rcases (Pool.Step.accept accepted).queue waits with earlier | now
      · exact List.mem_append_left _ (ih earlier)
      · cases now
        exact List.mem_concat_self
    | @finish taken outcome running pending =>
      have other : unit ≠ taken := fun same => (Pool.Accounted.of_run run.poolRun).not_mem_queue running (same ▸ waits)
      exact (List.mem_erase_of_ne other).mpr (ih waits)
    | @drop dropped pending notQueued notRunning =>
      have other : unit ≠ dropped := fun same => notQueued (same ▸ waits)
      exact (List.mem_erase_of_ne other).mpr (ih waits)
    | pool step isOther =>
      rcases step.queue waits with earlier | rfl
      · exact ih earlier
      · exact absurd isUnit isOther
    | _ => exact ih waits

/-- A unit that a worker has taken can still send its outcome, or has come to its end. -/
theorem Run.running (run : Run size failFast count h s) (runs : unit ∈ s.pool.running) (isUnit : IsUnit count unit) :
    unit ∈ s.pending ∨ ∃ outcome, .finish unit outcome ∈ h := by
  induction run with
  | start => cases runs
  | @step h s t m run _ step ih =>
    have before (earlier : unit ∈ s.pool.running) (stays : unit ∈ s.pending → unit ∈ t.pending) :
        unit ∈ t.pending ∨ ∃ outcome, .finish unit outcome ∈ h ++ [m] :=
      (ih earlier).imp stays fun ⟨outcome, member⟩ => ⟨outcome, List.mem_append_left _ member⟩
    cases step with
    | submit turn inRange accepted =>
      rcases (Pool.Step.accept accepted).running runs with earlier | waited
      · exact before earlier (List.mem_append_left _)
      · exact .inl (List.mem_append_left _ (run.queued waited isUnit))
    | @finish ended outcome running pending =>
      by_cases same : unit = ended
      · subst same
        exact .inr ⟨outcome, List.mem_concat_self⟩
      · exact before runs (List.mem_erase_of_ne same).mpr
    | @drop dropped pending notQueued notRunning =>
      have other : unit ≠ dropped := fun same => notRunning (same ▸ runs)
      exact before runs (List.mem_erase_of_ne other).mpr
    | pool step isOther =>
      rcases step.running runs with earlier | waited
      · exact before earlier id
      · exact .inl (run.queued waited isUnit)
    | _ => exact before runs id

/-! ## Outcomes along a history -/

/-- A unit that has entered can still send an outcome, or has come to its end. -/
theorem Run.entered_perm (run : Run size failFast count h s) : (s.pending ++ (endings h).map Prod.fst).Perm (entered h) := by
  induction run with
  | start => exact List.Perm.refl []
  | @step h s t m run _ step ih =>
    have leaves {unit : Nat} (pending : unit ∈ s.pending) :
        (s.pending.erase unit ++ ((endings h).map Prod.fst ++ [unit])).Perm (entered h) := by
      rw [← List.append_assoc]
      refine (List.perm_append_singleton _ _).trans (.trans ?_ ih)
      exact (List.perm_cons_erase pending).symm.append_right _
    cases step with
    | submit turn inRange accepted =>
      simp only [endings_concat, entered_concat, List.append_nil, List.append_assoc]
      exact List.perm_middle.trans ((ih.cons _).trans (List.perm_append_singleton _ _).symm)
    | runFirst outcome turn =>
      simp only [endings_concat, entered_concat, List.map_append, List.map_cons, List.map_nil, ← List.append_assoc]
      exact ih.append_right _
    | finish outcome running pending => simpa using leaves pending
    | drop pending => simpa using leaves pending
    | _ => simpa using ih

theorem Run.nodup_entered (run : Run size failFast count h s) : (entered h).Nodup := by
  induction run with
  | start => exact List.nodup_nil
  | @step h s t m run _ step ih =>
    have extend {unit : Nat} (isNew : unit ∉ entered h) : (entered h ++ [unit]).Nodup :=
      ih.append (List.nodup_singleton unit) (List.disjoint_singleton.mpr isNew)
    rw [entered_concat]
    cases step with
    | @submit unit pool turn inRange accepted =>
      obtain ⟨bounds, submits, -⟩ := run.phase.of_submitting turn
      refine extend fun member => ?_
      rcases mem_entered.mp member with submitted | ⟨isFirst, -⟩
      · exact Nat.lt_irrefl _ ((submits unit).mp submitted).2
      · omega
    | runFirst outcome turn =>
      obtain ⟨-, submits, -, waits, -⟩ := run.phase.of_submitting turn
      refine extend fun member => ?_
      rcases mem_entered.mp member with submitted | ⟨-, other, ran⟩
      · exact Nat.lt_irrefl _ ((submits 0).mp submitted).1
      · exact waits other ran
    | _ => simpa using ih

/-- No unit comes to its end twice. -/
theorem Run.nodup_endings (run : Run size failFast count h s) : ((endings h).map Prod.fst).Nodup :=
  (run.entered_perm.nodup_iff.mpr run.nodup_entered).of_append_right

/-- When no job can send any more, every unit has come to its end. -/
theorem Run.exists_ending (run : Run size failFast count h s) (pending : s.pending = []) (submitted : .submit unit ∈ h) :
    ∃ ending, (unit, ending) ∈ endings h := by
  have perm := run.entered_perm
  rw [pending, List.nil_append] at perm
  simpa using perm.mem_iff.mpr (mem_entered.mpr (.inl submitted))

theorem Run.ending_unique (run : Run size failFast count h s) {one other : Option (Outcome α)} (ends : (unit, one) ∈ endings h)
    (endsSo : (unit, other) ∈ endings h) : one = other :=
  congrArg Prod.snd (List.inj_on_of_nodup_map run.nodup_endings ends endsSo rfl)

/-- The outcomes of the units of a call: that of the caller's own unit, then what the job of each unit sent. A unit whose job
panicked or was dropped was cancelled. -/
structure AreOutcomes (count : Nat) (h : List (Move α)) (outcomes : List (Outcome α)) : Prop where
  length_eq : outcomes.length = count
  first : 0 < count → ∃ outcome, outcomes[0]? = some outcome ∧ ∀ other, .runFirst other ∈ h ↔ other = outcome
  others : ∀ unit, IsUnit count unit → ∀ outcome, outcomes[unit]? = some outcome ↔
    .finish unit (some outcome) ∈ h ∨ (outcome = .error .cancelled ∧ (.finish unit none ∈ h ∨ .drop unit ∈ h))

/-- Whatever the order of the arrivals is, a unit has the outcome that it sent, or else it was cancelled. -/
theorem Run.getElem?_arrange (run : Run size failFast count h s) {arrivals : List (Nat × Outcome α)} {ending : Option (Outcome α)}
    (arrived : arrivals.Perm (sent h)) (ends : (unit, ending) ∈ endings h) (inRange : unit < count) :
    (arrange count arrivals)[unit]? = some (ending.getD (.error .cancelled)) := by
  cases ending with
  | some outcome =>
    have once : (arrivals.map Prod.fst).Nodup := (arrived.map _).nodup_iff.mpr (sent_sublist.nodup run.nodup_endings)
    exact getElem?_arrange_of_mem once (arrived.mem_iff.mpr (mem_sent.mpr ends)) inRange
  | none =>
    refine getElem?_arrange_of_not_mem (fun arrives => ?_) inRange
    obtain ⟨⟨_, outcome⟩, arrival, rfl⟩ := List.mem_map.mp arrives
    cases run.ending_unique ends (mem_sent.mp (arrived.mem_iff.mp arrival))

/-- The endings of the units that have a job. -/
theorem mem_endings_of_isUnit (isUnit : IsUnit count unit) {ending : Option (Outcome α)} :
    (unit, ending) ∈ endings h ↔ .finish unit ending ∈ h ∨ (ending = none ∧ .drop unit ∈ h) := by
  rw [mem_endings]
  exact or_iff_right fun ⟨isFirst, _⟩ => Nat.ne_of_gt isUnit.1 isFirst

theorem Run.areOutcomes (run : Run size failFast count h s) {arrivals : List (Nat × Outcome α)}
    (submits : ∀ other, .submit other ∈ h ↔ IsUnit count other) (ranFirst : 0 < count → ∃ outcome, .runFirst outcome ∈ h)
    (arrived : arrivals.Perm (sent h)) (pending : s.pending = []) : AreOutcomes count h (arrange count arrivals) where
  length_eq := length_arrange
  first pos := by
    have isFirst {other : Outcome α} (ran : .runFirst other ∈ h) : (0, some other) ∈ endings h :=
      mem_endings.mpr (.inl ⟨rfl, other, rfl, ran⟩)
    obtain ⟨outcome, ran⟩ := ranFirst pos
    refine ⟨outcome, run.getElem?_arrange arrived (isFirst ran) pos, fun other => ⟨fun ranSo => ?_, fun same => same ▸ ran⟩⟩
    exact Option.some.inj (run.ending_unique (isFirst ranSo) (isFirst ran))
  others unit isUnit outcome := by
    obtain ⟨ending, ends⟩ := run.exists_ending pending ((submits unit).mpr isUnit)
    have only (other : Option (Outcome α)) : ending = other ↔ .finish unit other ∈ h ∨ (other = none ∧ .drop unit ∈ h) := by
      rw [← mem_endings_of_isUnit isUnit]
      exact ⟨fun same => same ▸ ends, run.ending_unique ends⟩
    rw [run.getElem?_arrange arrived ends isUnit.2, Option.some.injEq]
    have sends := only (some outcome)
    have cancelled := only none
    simp only [reduceCtorEq, false_and, or_false, true_and] at sends cancelled
    rw [← sends, ← cancelled]
    cases ending with
    | some sentOutcome => simp
    | none => simp [eq_comm]

/-! ## Returning -/

/-- A call with this history can still return. -/
def CanReturn (size : Nat) (failFast : Bool) (count : Nat) (h : List (Move α)) : Prop :=
  ∃ rest t result, Run size failFast count (h ++ rest) t ∧ t.caller = .returned result

theorem Run.canReturn_of_step (run : Run size failFast count h s) (follows : ∀ move ∈ m.poolMove?, Pool.Follows (poolMoves h) move)
    (step : Step failFast count s m t) (returns : Run size failFast count (h ++ [m]) t → CanReturn size failFast count (h ++ [m])) :
    CanReturn size failFast count h := by
  obtain ⟨rest, last, result, run, returned⟩ := returns (run.step follows step)
  exact ⟨m :: rest, last, result, by simpa using run, returned⟩

/-- What is left to be done for a call that collects: each job is to be taken from the queue, to be ended and to be left by its
worker, and each outcome is to be received. -/
def State.load (s : State α) : Nat := s.mailbox.length + s.pending.length + 2 * s.pool.queue.length + s.pool.running.length

/-- Something can happen that leaves less to be done. -/
def Advances (failFast : Bool) (count : Nat) (h : List (Move α)) (s : State α) : Prop :=
  ∃ m t, (∀ move ∈ m.poolMove?, Pool.Follows (poolMoves h) move) ∧ Step failFast count s m t ∧ (∃ arrivals, t.caller = .collecting arrivals) ∧
    t.load < s.load

section
variable {arrivals : List (Nat × Outcome α)}

/-- A worker can end a job. -/
theorem advances_of_running (turn : s.caller = .collecting arrivals) (running : unit ∈ s.pool.running) : Advances failFast count h s := by
  by_cases pending : unit ∈ s.pending
  · refine ⟨_, _, by simp [Move.poolMove?], .finish none running pending, ⟨arrivals, turn⟩, ?_⟩
    have less := List.length_erase_add_one pending
    simp only [State.load, Option.map_none, Option.toList_none, List.append_nil]
    omega
  · refine ⟨_, _, by simp [Move.poolMove?, Pool.Follows], .pool (.finish false running) pending, ⟨arrivals, turn⟩, ?_⟩
    have less := List.length_erase_add_one running
    simp only [State.load, Pool.finish]
    omega

/-- As long as some job can send or some outcome was not received, something can happen. -/
theorem Run.advances (run : Run size failFast count h s) (turn : s.caller = .collecting arrivals)
    (isLeft : s.mailbox ≠ [] ∨ s.pending ≠ []) : Advances failFast count h s := by
  rcases mailbox : s.mailbox with _ | ⟨arrival, rest⟩
  · obtain ⟨unit, pending⟩ := List.exists_mem_of_ne_nil _ (isLeft.resolve_left (not_not.mpr mailbox))
    rcases running : s.pool.running with _ | ⟨job, others⟩
    · rcases queue : s.pool.queue with _ | ⟨oldest, later⟩
      · refine ⟨_, _, by simp [Move.poolMove?], .drop pending (by simp [queue]) (by simp [running]), ⟨arrivals, turn⟩, ?_⟩
        have less := List.length_erase_add_one pending
        simp only [State.load]
        omega
      · have free : s.pool.running.length < s.pool.size := by simpa [running] using run.poolRun.size_pos
        refine ⟨_, _, by simp [Move.poolMove?, Pool.Follows],
          .pool (.start (Pool.take?_eq_some_iff.mpr ⟨later, queue, free, rfl⟩)) trivial, ⟨arrivals, turn⟩, ?_⟩
        simp only [State.load, queue, List.length_cons, List.length_append, List.length_nil]
        omega
    · exact advances_of_running turn (running ▸ List.mem_cons_self)
  · refine ⟨_, _, by simp [Move.poolMove?], .receive turn mailbox, ⟨_, rfl⟩, ?_⟩
    simp only [State.load, mailbox, List.length_cons]
    omega

theorem Run.canReturn_of_collecting (run : Run size failFast count h s) (turn : s.caller = .collecting arrivals) :
    CanReturn size failFast count h := by
  induction load : s.load using Nat.strong_induction_on generalizing h s arrivals with
  | _ n ih =>
    by_cases isLeft : s.mailbox ≠ [] ∨ s.pending ≠ []
    · obtain ⟨m, t, follows, step, ⟨later, collects⟩, less⟩ := run.advances turn isLeft
      exact run.canReturn_of_step follows step fun run => ih t.load (load ▸ less) run collects rfl
    · obtain ⟨mailbox, pending⟩ : s.mailbox = [] ∧ s.pending = [] := by simpa using isLeft
      exact run.canReturn_of_step (by simp [Move.poolMove?]) (.answer turn mailbox pending) fun run => ⟨[], _, _, by simpa using run, rfl⟩

end

theorem Run.canReturn_of_submitting (run : Run size failFast count h s) (turn : s.caller = .submitting unit) :
    CanReturn size failFast count h := by
  generalize measure : count - unit = n
  induction n generalizing h s unit with
  | zero =>
    obtain ⟨bounds, -⟩ := run.phase.of_submitting turn
    obtain rfl : unit = count := by omega
    refine run.canReturn_of_step (by simp [Move.poolMove?]) (.runFirst (.error .cancelled) turn) fun run => ?_
    exact run.canReturn_of_collecting rfl
  | succ n ih =>
    obtain ⟨bounds, submits, accepts, -⟩ := run.phase.of_submitting turn
    have inRange : unit < count := by omega
    have isNew : unit ∉ Pool.submitted (poolMoves h) := by
      intro submitted
      rcases run.own submitted ⟨bounds.1, inRange⟩ with earlier | earlier
      · exact Nat.lt_irrefl _ ((submits unit).mp earlier).2
      · exact accepts unit earlier
    cases submitted : s.pool.submit unit with
    | ok pool =>
      refine run.canReturn_of_step (by simpa [Move.poolMove?, Pool.Follows] using isNew) (.submit turn inRange submitted) fun run => ?_
      exact ih run rfl (by omega)
    | error f =>
      refine run.canReturn_of_step (by simpa [Move.poolMove?, Pool.Follows] using isNew) (.refuse turn inRange submitted) fun run => ?_
      exact ⟨[], _, _, by simpa using run, rfl⟩

/-- A call never gets stuck: from whatever it has come to, it can go on and return. -/
theorem Run.canReturn (run : Run size failFast count h s) : CanReturn size failFast count h := by
  cases run.phase with
  | submitting unit turn => exact run.canReturn_of_submitting turn
  | collecting _ turn => exact run.canReturn_of_collecting turn
  | refused _ turn => exact ⟨[], s, _, by simpa using run, turn⟩
  | answered _ turn => exact ⟨[], s, _, by simpa using run, turn⟩

/-! ## What a call answers, and what it leaves behind -/

/-- In whatever order workers, shutdowns and other callers act, a call can return, and it is then refused or answers what
the outcomes of its units say. -/
theorem answer_of_run (run : Run size failFast count h s) :
    CanReturn size failFast count h ∧ ∀ result, s.caller = .returned result →
      (result = .error .executorShutdown ∧ ∃ unit, .refuse unit ∈ h) ∨
      ((∀ unit, .refuse unit ∉ h) ∧ ∃ outcomes, AreOutcomes count h outcomes ∧
        ∀ other, IsAnswer failFast outcomes other ↔ other = result) := by
  refine ⟨run.canReturn, fun result returned => ?_⟩
  cases run.phase with
  | submitting _ turn => simp [turn] at returned
  | collecting _ turn => simp [turn] at returned
  | refused unit turn refuses =>
    obtain rfl : Except.error Failure.executorShutdown = result := by simpa [turn] using returned
    exact .inl ⟨rfl, unit, refuses⟩
  | answered arrivals turn submits accepts ranFirst arrived pending =>
    obtain rfl : Execution.answer failFast (arrange count arrivals) = result := by simpa [turn] using returned
    exact .inr ⟨accepts, _, run.areOutcomes submits ranFirst arrived pending, fun other => isAnswer_iff⟩

/-- Two workers take the first two jobs and the second one reports first, with a failure that is tolerated; a shutdown
drops the last job. -/
theorem answer_of_run_swapped :
    let h : List (Move Nat) := [.submit 1, .submit 2, .submit 3, .pool (.start 1), .pool (.start 2), .finish 2 (some (.error .connectionClosed)),
      .runFirst (.ok 10), .receive, .pool (.stop [3]), .finish 1 (some (.ok 11)), .drop 3, .receive, .answer]
    let s : State Nat := ⟨⟨2, false, [], [1, 2]⟩, .returned (.ok [some 10, some 11, none, none]), [], []⟩
    Run 2 false 4 h s ∧ ∃ outcomes, AreOutcomes 4 h outcomes ∧
      ∀ other, IsAnswer false outcomes other ↔ other = .ok [some 10, some 11, none, none] := by
  have submits₁ : Run 2 false 4 [Move.submit 1] (⟨⟨2, true, [1], []⟩, .submitting 2, [1], []⟩ : State Nat) :=
    .step (h := []) .start (by simp [Move.poolMove?, Pool.Follows, Pool.submitted, poolMoves]) (.submit rfl (by decide) rfl)
  have submits₂ := submits₁.step (m := .submit 2) (by simp [Move.poolMove?, Pool.Follows, Pool.submitted, poolMoves]) (.submit rfl (by decide) rfl)
  have submits₃ := submits₂.step (m := .submit 3) (by simp [Move.poolMove?, Pool.Follows, Pool.submitted, poolMoves]) (.submit rfl (by decide) rfl)
  have starts₁ := submits₃.step (m := .pool (.start 1)) (by simp [Move.poolMove?, Pool.Follows]) (.pool (.start rfl) trivial)
  have starts₂ := starts₁.step (m := .pool (.start 2)) (by simp [Move.poolMove?, Pool.Follows]) (.pool (.start rfl) trivial)
  have fails := starts₂.step (by simp [Move.poolMove?]) (.finish (some (.error .connectionClosed)) (by decide : 2 ∈ _) (by decide))
  have runsFirst := fails.step (by simp [Move.poolMove?]) (.runFirst (.ok 10) rfl)
  have receives₁ := runsFirst.step (by simp [Move.poolMove?]) (.receive rfl rfl)
  have stops := receives₁.step (m := .pool (.stop [3])) (by simp [Move.poolMove?, Pool.Follows]) (.pool .stop trivial)
  have ends := stops.step (by simp [Move.poolMove?]) (.finish (some (.ok 11)) (by decide : 1 ∈ _) (by decide))
  have drops := ends.step (by simp [Move.poolMove?]) (.drop (by decide : 3 ∈ _) (by decide) (by decide))
  have receives₂ := drops.step (by simp [Move.poolMove?]) (.receive rfl rfl)
  have answers := receives₂.step (by simp [Move.poolMove?]) (.answer rfl rfl rfl)
  refine ⟨answers, ?_⟩
  rcases (answer_of_run answers).2 _ rfl with ⟨refused, -⟩ | ⟨-, outcomes⟩
  · cases refused
  · exact outcomes

/-- When a call returns, none of its units waits for a worker, and if none was refused then each of them has come to an
end. -/
theorem settled_of_run (run : Run size failFast count h s) {result : Outcome (List (Option α))}
    (returned : s.caller = .returned result) :
    (∀ unit, IsUnit count unit → unit ∉ s.pool.queue) ∧
    ((∀ unit, .refuse unit ∉ h) → ∀ unit, IsUnit count unit →
      (∃ outcome, .finish unit outcome ∈ h) ∨ (.drop unit ∈ h ∧ unit ∉ s.pool.running)) := by
  cases run.phase with
  | submitting _ turn => simp [turn] at returned
  | collecting _ turn => simp [turn] at returned
  | refused unit turn refuses =>
    refine ⟨fun other _ => ?_, fun accepts => absurd refuses (accepts unit)⟩
    rw [(Pool.Accounted.of_run run.poolRun).queue_eq (run.stopped refuses)]
    exact List.not_mem_nil
  | answered arrivals turn submits accepts ranFirst arrived pending =>
    refine ⟨fun unit isUnit waits => ?_, fun _ unit isUnit => ?_⟩
    · simpa [pending] using run.queued waits isUnit
    · by_cases runs : unit ∈ s.pool.running
      · exact .inl ((run.running runs isUnit).resolve_left (by simp [pending]))
      · obtain ⟨ending, member⟩ := run.exists_ending pending ((submits unit).mpr isUnit)
        rcases (mem_endings_of_isUnit isUnit).mp member with finished | ⟨-, dropped⟩
        · exact .inl ⟨ending, finished⟩
        · exact .inr ⟨dropped, runs⟩

/-- A call that is refused returns while a worker is at work on a unit that was accepted before: here a shutdown comes
between the submissions of the second and of the third unit. -/
example :
    let h : List (Move Nat) := [.submit 1, .pool (.start 1), .pool (.stop []), .refuse 2]
    let s : State Nat := ⟨⟨1, false, [], [1]⟩, .returned (.error .executorShutdown), [1], []⟩
    Run 1 true 3 h s ∧ 1 ∈ s.pool.running ∧ ∀ outcome, .finish 1 outcome ∉ h := by
  have submits : Run 1 true 3 [Move.submit 1] (⟨⟨1, true, [1], []⟩, .submitting 2, [1], []⟩ : State Nat) :=
    .step (h := []) .start (by simp [Move.poolMove?, Pool.Follows, Pool.submitted, poolMoves]) (.submit rfl (by decide) rfl)
  have starts := submits.step (m := .pool (.start 1)) (by simp [Move.poolMove?, Pool.Follows]) (.pool (.start rfl) trivial)
  have stops := starts.step (m := .pool (.stop [])) (by simp [Move.poolMove?, Pool.Follows]) (.pool .stop trivial)
  have refuses := stops.step (m := .refuse 2) (by simp [Move.poolMove?, Pool.Follows, Pool.submitted, poolMoves])
    (.refuse rfl (by decide) rfl)
  exact ⟨refuses, by simp, by simp⟩

end SqlSharding.Execution.Call
