import SqlSharding.Proofs.Answers
import SqlSharding.Proofs.EventConservation

/-!
# Events of an engine

The calls that an engine makes, one after the other, are among those whose histories are described: a call submits its jobs, its
first unit runs on the caller, and workers run the jobs one after the other. So what a monitor of an engine counts is conserved
(`conserved_of_demands`).
-/

namespace SqlSharding.Execution.Watched

open Physical (Backend)

variable {α β : Type} {size capacity call : Nat} {h : List (Move α)} {s t r : State α} {job : Job} {u : StatementUnit}

/-! ## Ways from one state to another -/

/-- Some steps lead from one state to another. -/
def Reaches (s t : State α) : Prop := Relation.ReflTransGen (fun s t => ∃ m, Step s m t) s t

theorem Step.reaches {m : Move α} (step : Step s m t) : Reaches s t := .single ⟨m, step⟩

theorem Run.reaches (run : Run size capacity h s) (reaches : Reaches s t) : ∃ h', Run size capacity (h ++ h') t := by
  induction reaches with
  | refl => exact ⟨[], by rwa [List.append_nil]⟩
  | tail _ step ih =>
    obtain ⟨h', run⟩ := ih
    obtain ⟨m, step⟩ := step
    refine ⟨h' ++ [m], ?_⟩
    rw [← List.append_assoc]
    exact run.step step

/-- Steps of units, which neither move a caller nor change the pool. -/
structure Inside (s t : State α) : Prop where
  reaches : Reaches s t
  pool : t.pool = s.pool
  callers : t.callers = s.callers

theorem Inside.refl (s : State α) : Inside s s := ⟨.refl, rfl, rfl⟩

theorem Inside.trans (first : Inside r s) (second : Inside s t) : Inside r t :=
  ⟨first.reaches.trans second.reaches, second.pool.trans first.pool, second.callers.trans first.callers⟩

theorem Inside.unit? (inside : Inside s t) : t.unit? job = s.unit? job := by
  rw [State.unit?, inside.callers]
  rfl

/-! ## A unit -/

/-- The events before a unit get their numbers. -/
theorem exists_numbered (now : Nat) {events : List Event} {left : List (List Value)} (isUnit : s.unit? job = some u)
    (stage : s.stage job = .numbered events left) :
    ∃ t, Inside s t ∧ t.stage job = .announcing [] (events ++ (left.zipIdx s.nextEvent).map fun (parameters, id) =>
      .before id u.dataSource u.sql parameters now) ∧ t.nextEvent = s.nextEvent + left.length ∧ t.monitor = s.monitor := by
  induction left generalizing events s with
  | nil =>
    refine ⟨s, .refl s, ?_, rfl, rfl⟩
    rw [stage, List.zipIdx_nil, List.map_nil, List.append_nil]
    rfl
  | cons parameters rest ih =>
    have step := Step.number now isUnit stage
    have first := Inside.mk step.reaches rfl rfl
    obtain ⟨t, later, stage, nextEvent, monitor⟩ := ih (first.unit?.trans isUnit) ((stage_setStage ..).trans (if_pos rfl))
    refine ⟨t, first.trans later, ?_, ?_, monitor⟩
    · rw [stage, List.append_assoc]
      rfl
    · rw [nextEvent, List.length_cons, Nat.add_comm rest.length 1, ← Nat.add_assoc]

/-- A unit does one thing. -/
theorem exists_done {deed : Deed α} {stage : Stage α} (does : (s.stage job).Does deed stage) :
    ∃ t, Inside s t ∧ t.stage job = stage ∧ t.nextEvent = s.nextEvent ∧ t.monitor = deed.event?.elim s.monitor s.monitor.record := by
  have step := Step.does does
  exact ⟨_, ⟨step.reaches, rfl, rfl⟩, (stage_setStage ..).trans (if_pos rfl), rfl, rfl⟩

/-- The events before a unit are told. -/
theorem exists_announced {told untold : List Event} (stage : s.stage job = .announcing told untold) :
    ∃ t, Inside s t ∧ t.stage job = .announcing (told ++ untold) [] ∧ t.nextEvent = s.nextEvent ∧
      t.monitor = untold.foldl Monitor.record s.monitor := by
  induction untold generalizing told s with
  | nil => exact ⟨s, .refl s, by rw [stage, List.append_nil], rfl, rfl⟩
  | cons e rest ih =>
    have does : (s.stage job).Does (.tell e) (.announcing (told ++ [e]) rest) := by
      rw [stage]
      exact .announce
    obtain ⟨s', first, stage', nextEvent', monitor'⟩ := exists_done does
    obtain ⟨t, later, stage, nextEvent, monitor⟩ := ih stage'
    refine ⟨t, first.trans later, ?_, nextEvent.trans nextEvent', ?_⟩
    · rw [stage, List.append_assoc]
      rfl
    · rw [monitor, monitor']
      rfl

/-- The events after a unit are told. -/
theorem exists_reported (now : Nat) {befores told untold : List Event} {outcome : Outcome α}
    (stage : s.stage job = .reporting befores outcome told untold) :
    ∃ t, Inside s t ∧ (t.stage job).IsThrough ∧ t.nextEvent = s.nextEvent ∧
      t.monitor = (untold.map (Engine.eventAfter outcome now)).foldl Monitor.record s.monitor := by
  induction untold generalizing told s with
  | nil => exact ⟨s, .refl s, by rw [stage]; trivial, rfl, rfl⟩
  | cons e rest ih =>
    have does : (s.stage job).Does (.tell (Engine.eventAfter outcome now e))
        (.reporting befores outcome (told ++ [Engine.eventAfter outcome now e]) rest) := by
      rw [stage]
      exact .report now
    obtain ⟨s', first, stage', nextEvent', monitor'⟩ := exists_done does
    obtain ⟨t, later, through, nextEvent, monitor⟩ := ih stage'
    refine ⟨t, first.trans later, through, nextEvent.trans nextEvent', ?_⟩
    rw [monitor, monitor']
    rfl

theorem eventsBefore_eq (u : StatementUnit) (first now : Nat) :
    Engine.eventsBefore u first now =
      (u.told.zipIdx first).map fun (parameters, id) => .before id u.dataSource u.sql parameters now := by
  rw [List.zipIdx_eq_map_add, List.map_map]
  rfl

/-- A unit runs while nothing else happens. -/
theorem exists_through (outcome : Outcome α) (begun finished : Nat) (isUnit : s.unit? job = some u) (stage : s.stage job = .begun u) :
    ∃ t, Inside s t ∧ (t.stage job).IsThrough ∧ t.nextEvent = s.nextEvent + max 1 u.parameterSets.length ∧
      t.monitor = ((Engine.eventsBefore u s.nextEvent begun).map (Engine.eventAfter outcome finished)).foldl Monitor.record
        ((Engine.eventsBefore u s.nextEvent begun).foldl Monitor.record s.monitor) := by
  obtain ⟨s₁, numbers, stage₁, nextEvent₁, monitor₁⟩ := exists_numbered begun isUnit stage
  rw [List.nil_append, ← eventsBefore_eq] at stage₁
  obtain ⟨s₂, announces, stage₂, nextEvent₂, monitor₂⟩ := exists_announced stage₁
  have works : (s₂.stage job).Does (.work outcome) (.reporting (Engine.eventsBefore u s.nextEvent begun) outcome []
      (Engine.eventsBefore u s.nextEvent begun)) := by
    rw [stage₂]
    exact .work outcome
  obtain ⟨s₃, worked, stage₃, nextEvent₃, monitor₃⟩ := exists_done works
  obtain ⟨t, reports, through, nextEvent₄, monitor₄⟩ := exists_reported finished stage₃
  refine ⟨t, ((numbers.trans announces).trans worked).trans reports, through, ?_, ?_⟩
  · rw [nextEvent₄, nextEvent₃, nextEvent₂, nextEvent₁, u.length_told]
  · rw [monitor₄, monitor₃, ← monitor₁, ← monitor₂]
    rfl

/-! ## Engines -/

/-- An engine tells its events to the monitor of a history, and numbers them and accepts jobs as it does. -/
structure Mirrors (s : State α) (e : Engine) : Prop where
  observers : e.observers = [.monitor s.monitor]
  nextEvent : e.nextEvent = s.nextEvent
  isAccepting : e.pool.isAccepting = s.pool.isAccepting

variable {b : Backend} {context : Context} {work : Engine.Work α}

theorem foldl_notify (events : List Event) (e : Engine) {m : Monitor} (observers : e.observers = [.monitor m]) :
    events.foldl Engine.notify e = { e with observers := [.monitor (events.foldl Monitor.record m)] } := by
  induction events generalizing e m with
  | nil =>
    rw [List.foldl_nil, List.foldl_nil, ← observers]
  | cons event rest ih =>
    have next : (e.notify event).observers = [.monitor (m.record event)] := by
      rw [Engine.notify, observers]
      rfl
    rw [List.foldl_cons, ih _ next]
    rfl

/-- What the events before and after a unit do to an engine. -/
theorem Mirrors.tell {e : Engine} (mirrors : Mirrors s e) (before after : List Event) (count : Nat) (pool : t.pool = s.pool)
    (nextEvent : t.nextEvent = s.nextEvent + count)
    (monitor : t.monitor = after.foldl Monitor.record (before.foldl Monitor.record s.monitor)) :
    Mirrors t (after.foldl Engine.notify (before.foldl Engine.notify { e with nextEvent := e.nextEvent + count })) := by
  have first := foldl_notify before { e with nextEvent := e.nextEvent + count } mirrors.observers
  rw [first, foldl_notify after _ rfl, ← monitor]
  refine ⟨rfl, ?_, ?_⟩
  · rw [nextEvent, ← mirrors.nextEvent]
  · rw [pool]
    exact mirrors.isAccepting

/-- An engine runs a unit as a history does. -/
theorem runUnit_mirrored (isUnit : s.unit? job = some u) (stage : s.stage job = .begun u) :
    Ends (fun e => Mirrors s e.engine) (Engine.runUnit b context work .runs u)
      (fun _ e => ∃ t, Inside s t ∧ (t.stage job).IsThrough ∧ Mirrors t e.engine) fun _ _ => False := by
  intro e mirrors
  have ran (outcome : Outcome α) (finished : Nat) := exists_through outcome (b.now e.traffic) finished isUnit stage
  rw [← mirrors.nextEvent] at ran
  simp only [Engine.runUnit, Engine.announce, Bind.bind, EStateM.bind, Pure.pure, EStateM.pure, Engine.Action.number,
    Engine.Action.now, Engine.Action.notify, Engine.Action.attempt]
  cases work context u e.traffic with
  | ok a traffic =>
    obtain ⟨t, inside, through, nextEvent, monitor⟩ := ran (.ok a) (b.now traffic)
    exact ⟨t, inside, through, mirrors.tell _ _ _ inside.pool (mirrors.nextEvent ▸ nextEvent) monitor⟩
  | error f traffic =>
    obtain ⟨t, inside, through, nextEvent, monitor⟩ := ran (.error f) (b.now traffic)
    exact ⟨t, inside, through, mirrors.tell _ _ _ inside.pool (mirrors.nextEvent ▸ nextEvent) monitor⟩

/-! ## Calls -/

/-- The last caller goes on. -/
theorem callers_setTurn {callers : List Caller} {units : List StatementUnit} {turn : Turn} (isLast : s.callers = callers ++ [⟨units, turn⟩])
    (next : Turn) : (s.setTurn callers.length next).callers = callers ++ [⟨units, next⟩] := by
  rw [State.setTurn, isLast, List.modify_eq_take_drop]
  simp

theorem turn?_last {callers : List Caller} {units : List StatementUnit} {turn : Turn} (isLast : s.callers = callers ++ [⟨units, turn⟩]) :
    s.turn? callers.length = some turn := by
  rw [State.turn?, isLast, List.getElem?_concat_length]
  rfl

theorem unit?_last {callers : List Caller} {units : List StatementUnit} {turn : Turn} (isLast : s.callers = callers ++ [⟨units, turn⟩])
    (unit : Nat) : s.unit? ⟨callers.length, unit⟩ = units[unit]? := by
  rw [State.unit?, isLast, List.getElem?_concat_length]
  rfl

variable {callers : List Caller} {units : List StatementUnit} {slots : Nat} {accepts : Bool}

/-- A caller submits all jobs that are left. -/
theorem exists_submitted {unit : Nat} {queue : List Job} (isLast : s.callers = callers ++ [⟨units, .submitting unit⟩])
    (isPool : s.pool = ⟨slots, true, queue, []⟩) (inRange : unit ≤ units.length) :
    ∃ t, Reaches s t ∧ t.callers = callers ++ [⟨units, .submitting units.length⟩] ∧
      t.pool = ⟨slots, true, queue ++ (List.range' unit (units.length - unit)).map (⟨callers.length, ·⟩), []⟩ ∧
      t.nextEvent = s.nextEvent ∧ t.monitor = s.monitor := by
  induction left : units.length - unit generalizing unit queue s with
  | zero =>
    obtain rfl : unit = units.length := by omega
    refine ⟨s, .refl, isLast, ?_, rfl, rfl⟩
    rw [List.range'_zero, List.map_nil, List.append_nil, isPool]
  | succ n ih =>
    have isUnit : s.unit? ⟨callers.length, unit⟩ = some units[unit] := by
      rw [unit?_last isLast, List.getElem?_eq_getElem (by omega)]
    have accepted : s.pool.submit ⟨callers.length, unit⟩ = .ok ⟨slots, true, queue ++ [⟨callers.length, unit⟩], []⟩ := by
      rw [isPool]
      rfl
    have submits := Step.submit (turn?_last isLast) isUnit accepted
    obtain ⟨s', submits, isLast', isPool', nextEvent', monitor'⟩ : ∃ s', Reaches s s' ∧
        s'.callers = callers ++ [⟨units, .submitting (unit + 1)⟩] ∧
        s'.pool = ⟨slots, true, queue ++ [⟨callers.length, unit⟩], []⟩ ∧ s'.nextEvent = s.nextEvent ∧ s'.monitor = s.monitor :=
      ⟨_, submits.reaches, callers_setTurn isLast _, rfl, rfl, rfl⟩
    obtain ⟨t, later, atEnd, pool, nextEvent, monitor⟩ := ih isLast' isPool' (by omega) (by omega)
    refine ⟨t, submits.trans later, atEnd, ?_, nextEvent.trans nextEvent', monitor.trans monitor'⟩
    rw [pool, List.range'_succ, List.map_cons, List.append_assoc, List.singleton_append]

/-- A worker takes the oldest job, runs its unit and leaves it. -/
theorem runJob_mirrored {unit : Nat} {later : List Job} (isPool : s.pool = ⟨slots, accepts, ⟨call, unit⟩ :: later, []⟩)
    (pos : 0 < slots) (isUnit : s.unit? ⟨call, unit⟩ = some u) :
    Ends (fun e => Mirrors s e.engine) (Engine.runUnit b context work .runs u)
      (fun _ e => ∃ t, Reaches s t ∧ t.callers = s.callers ∧ t.pool = ⟨slots, accepts, later, []⟩ ∧ Mirrors t e.engine)
      fun _ _ => False := by
  intro e mirrors
  have took : s.pool.take? = some (⟨call, unit⟩, ⟨slots, accepts, later, [⟨call, unit⟩]⟩) := by
    rw [isPool]
    exact Pool.take?_eq_some_iff.mpr ⟨later, rfl, pos, rfl⟩
  have starts := Step.start took isUnit
  obtain ⟨s', starts, stage, callers, pool, mirrors'⟩ : ∃ s', Reaches s s' ∧ s'.stage ⟨call, unit⟩ = .begun u ∧
      s'.callers = s.callers ∧ s'.pool = ⟨slots, accepts, later, [⟨call, unit⟩]⟩ ∧ Mirrors s' e.engine := by
    refine ⟨_, starts.reaches, (stage_setStage ..).trans (if_pos rfl), rfl, rfl, mirrors.observers, mirrors.nextEvent, ?_⟩
    rw [mirrors.isAccepting, isPool]
  have isUnit' : s'.unit? ⟨call, unit⟩ = some u := by
    rw [State.unit?, callers]
    exact isUnit
  refine (runUnit_mirrored isUnit' stage).weaken ?_ (fun _ _ => id) e mirrors'
  rintro _ e' ⟨r, inside, through, mirrors⟩
  have poolBefore : r.pool = ⟨slots, accepts, later, [⟨call, unit⟩]⟩ := inside.pool.trans pool
  have leaves := Step.leave (by rw [poolBefore]; exact List.mem_cons_self) through
  refine ⟨_, starts.trans (inside.reaches.trans leaves.reaches), inside.callers.trans callers, ?_, mirrors.observers,
    mirrors.nextEvent, mirrors.isAccepting⟩
  show r.pool.finish ⟨call, unit⟩ = ⟨slots, accepts, later, []⟩
  rw [poolBefore, Pool.finish, List.erase_cons_head]

/-- Workers run the jobs that wait one after the other. -/
theorem runUnits_mirrored {numbered : List (StatementUnit × Nat)}
    (isPool : s.pool = ⟨slots, accepts, numbered.map fun entry => ⟨call, entry.2⟩, []⟩) (pos : 0 < slots)
    (areUnits : ∀ entry ∈ numbered, s.unit? ⟨call, entry.2⟩ = some entry.1) :
    Ends (fun e => Mirrors s e.engine) (Engine.runUnits b context work (fun _ => .runs) numbered)
      (fun _ e => ∃ t, Reaches s t ∧ t.callers = s.callers ∧ t.pool = ⟨slots, accepts, [], []⟩ ∧ Mirrors t e.engine)
      fun _ _ => False := by
  induction numbered generalizing s with
  | nil => exact Ends.pure fun e mirrors => ⟨s, .refl, rfl, isPool, mirrors⟩
  | cons entry rest ih =>
    obtain ⟨u, i⟩ := entry
    refine Ends.bind (runJob_mirrored isPool pos (areUnits (u, i) List.mem_cons_self)) fun _ => ?_
    refine Ends.bind ?_ fun _ => Ends.pure fun _ => id
    rintro e ⟨r, first, callers, isPool', mirrors⟩
    have areUnits' (entry : StatementUnit × Nat) (member : entry ∈ rest) : r.unit? ⟨call, entry.2⟩ = some entry.1 := by
      rw [State.unit?, callers]
      exact areUnits entry (List.mem_cons_of_mem _ member)
    refine (ih isPool' areUnits').after ?_ e mirrors
    rintro _ e' ⟨t, later, callers', pool, mirrors'⟩
    exact ⟨t, first.trans later, callers'.trans callers, pool, mirrors'⟩

/-- The jobs of a call are submitted, or the call is refused. -/
theorem submitJobs_mirrored (isLast : s.callers = callers ++ [⟨units, .submitting 1⟩]) (isPool : s.pool = ⟨slots, accepts, [], []⟩)
    (some : 0 < units.length) :
    Ends (fun e => Mirrors s e.engine) (Engine.submitJobs units.length)
      (fun _ e => ∃ t, Reaches s t ∧ t.callers = callers ++ [⟨units, .submitting units.length⟩] ∧
        t.pool = ⟨slots, accepts, (List.range' 1 (units.length - 1)).map (⟨callers.length, ·⟩), []⟩ ∧ Mirrors t e.engine)
      fun _ e => ∃ t, Reaches s t ∧ t.callers = callers ++ [⟨units, .returned⟩] ∧ t.pool = s.pool ∧ Mirrors t e.engine := by
  intro e mirrors
  have jobs : (List.range units.length).drop 1 = List.range' 1 (units.length - 1) := by
    rw [List.range_eq_range', List.drop_range', Nat.zero_add, Nat.one_mul]
  have isAccepting : e.engine.pool.isAccepting = accepts := by rw [mirrors.isAccepting, isPool]
  rw [Engine.submitJobs, Engine.onPool, jobs]
  cases accepts with
  | true =>
    rw [Pool.foldlM_submit isAccepting]
    obtain ⟨t, reaches, atEnd, pool, nextEvent, monitor⟩ := exists_submitted isLast isPool some
    refine ⟨t, reaches, atEnd, pool, ?_, mirrors.nextEvent.trans nextEvent.symm, ?_⟩
    · rw [monitor]
      exact mirrors.observers
    · rw [pool]
      exact isAccepting
  | false =>
    -- A call of one unit submits no job, so it is not refused even after a shutdown.
    cases left : List.range' 1 (units.length - 1) with
    | nil =>
      have one : units.length = 1 := by
        have none := congrArg List.length left
        rw [List.length_range', List.length_nil] at none
        omega
      exact ⟨s, .refl, one ▸ isLast, isPool, mirrors⟩
    | cons unit rest =>
      have several : 1 < units.length := by
        have length := congrArg List.length left
        rw [List.length_range', List.length_cons] at length
        omega
      have isUnit : s.unit? ⟨callers.length, 1⟩ = units[1] := by
        rw [unit?_last isLast, List.getElem?_eq_getElem several]
      have stopped : s.pool.submit ⟨callers.length, 1⟩ = .error .executorShutdown := by
        rw [isPool]
        rfl
      rw [Pool.foldlM_submit_of_stopped isAccepting]
      have refuses := Step.refuse (turn?_last isLast) isUnit stopped
      exact ⟨_, refuses.reaches, callers_setTurn isLast _, rfl, mirrors.observers, mirrors.nextEvent, mirrors.isAccepting⟩

/-- The caller runs its first unit. -/
theorem runFirst_mirrored (isLast : s.callers = callers ++ [⟨units, .submitting units.length⟩]) (isFirst : units[0]? = some u) :
    Ends (fun e => Mirrors s e.engine) (Engine.runUnit b context work .runs u)
      (fun _ e => ∃ t, Reaches s t ∧ t.callers = callers ++ [⟨units, .collecting⟩] ∧ t.pool = s.pool ∧ Mirrors t e.engine)
      fun _ _ => False := by
  intro e mirrors
  have isUnit : s.unit? ⟨callers.length, 0⟩ = some u := (unit?_last isLast 0).trans isFirst
  have all : s.unit? ⟨callers.length, units.length⟩ = none := by
    rw [unit?_last isLast, List.getElem?_eq_none (Nat.le_refl _)]
  have performs := Step.perform (turn?_last isLast) all isUnit
  obtain ⟨s', performs, stage, isLast', pool, mirrors'⟩ : ∃ s' : State α, Reaches s s' ∧ s'.stage ⟨callers.length, 0⟩ = .begun u ∧
      s'.callers = callers ++ [Caller.mk units .performing] ∧ s'.pool = s.pool ∧ Mirrors s' e.engine :=
    ⟨_, performs.reaches, (stage_setStage ..).trans (if_pos rfl), callers_setTurn isLast .performing, rfl, mirrors.observers,
      mirrors.nextEvent, mirrors.isAccepting⟩
  refine (runUnit_mirrored ((unit?_last isLast' 0).trans isFirst) stage).weaken ?_ (fun _ _ => id) e mirrors'
  rintro _ e' ⟨r, inside, through, mirrors⟩
  have isLast'' : r.callers = callers ++ [⟨units, .performing⟩] := inside.callers.trans isLast'
  have collects := Step.collect (turn?_last isLast'') through
  exact ⟨_, performs.trans (inside.reaches.trans collects.reaches), callers_setTurn isLast'' _, inside.pool.trans pool,
    mirrors.observers, mirrors.nextEvent, mirrors.isAccepting⟩

theorem settle_isAccepting (ends : Nat → Bool) (p : Pool Nat) : (p.settle ends).isAccepting = p.isAccepting := by
  induction p using Pool.settle.induct ends with
  | case1 p none =>
    rw [Pool.settle]
    split
    · rfl
    · next took =>
      rw [none] at took
      cases took
  | case2 p job taken took ih =>
    obtain ⟨rest, -, -, rfl⟩ := Pool.take?_eq_some_iff.mp took
    rw [Pool.settle]
    split
    · rfl
    · next job' taken' took' =>
      obtain ⟨rfl, rfl⟩ : job = job' ∧ _ = taken' := by simpa [took] using took'
      refine ih.trans ?_
      split <;> rfl

theorem finishJobs_mirrored : Ends (fun e => Mirrors s e.engine) Engine.finishJobs (fun _ e => Mirrors s e.engine) fun _ _ => False :=
  fun _ mirrors => ⟨mirrors.observers, mirrors.nextEvent, (settle_isAccepting _ _).trans mirrors.isAccepting⟩

/-- All calls have returned, and nothing is left for the workers. -/
structure Idle (s : State α) : Prop where
  returned : ∀ caller ∈ s.callers, caller.turn = .returned
  pool : ∃ slots accepts, 0 < slots ∧ s.pool = ⟨slots, accepts, [], []⟩

theorem Idle.atRest (idle : Idle s) : s.AtRest := by
  obtain ⟨returned, slots, accepts, -, pool⟩ := idle
  exact ⟨returned, by rw [pool]⟩

/-- What an engine is left with can come about by steps, and nothing is under way then. -/
def ComesToRest (s : State α) (e : Engine) : Prop := ∃ t, Reaches s t ∧ Idle t ∧ Mirrors t e

theorem demand_mirrored (outcome : Outcome β) :
    Ends (fun e => ComesToRest s e.engine) (Engine.Action.demand outcome) (fun _ e => ComesToRest s e.engine)
      fun _ e => ComesToRest s e.engine := by
  intro e atRest
  cases outcome <;> exact atRest

/-- After its jobs were submitted a call runs its first unit and then its jobs, and answers. -/
theorem collect_mirrored {rest : List StatementUnit} (isLast : s.callers = callers ++ [⟨u :: rest, .submitting (u :: rest).length⟩])
    (isPool : s.pool = ⟨slots, accepts, (List.range' 1 rest.length).map (⟨callers.length, ·⟩), []⟩) (pos : 0 < slots) :
    Ends (fun e => Mirrors s e.engine) (Engine.runUnits b context work (fun _ => .runs) (u :: rest).zipIdx)
      (fun _ e => ∃ t, Reaches s t ∧ t.callers = callers ++ [⟨u :: rest, .returned⟩] ∧ t.pool = ⟨slots, accepts, [], []⟩ ∧
        Mirrors t e.engine) fun _ _ => False := by
  refine Ends.bind (runFirst_mirrored isLast rfl) fun _ => ?_
  refine Ends.bind ?_ fun _ => Ends.pure fun _ => id
  rintro e ⟨s₁, first, isLast₁, pool₁, mirrors₁⟩
  have jobs : s₁.pool = ⟨slots, accepts, (rest.zipIdx 1).map fun entry => ⟨callers.length, entry.2⟩, []⟩ := by
    rw [pool₁, isPool, ← List.zipIdx_map_snd, List.map_map]
    rfl
  have areUnits (entry : StatementUnit × Nat) (member : entry ∈ rest.zipIdx 1) :
      s₁.unit? ⟨callers.length, entry.2⟩ = some entry.1 := by
    rw [unit?_last isLast₁]
    refine List.mem_zipIdx_iff_getElem?.mp ?_
    rw [List.zipIdx_cons]
    exact List.mem_cons_of_mem _ member
  refine (runUnits_mirrored jobs pos areUnits).weaken ?_ (fun _ _ => id) e mirrors₁
  rintro _ e' ⟨s₂, later, callers₂, pool₂, mirrors₂⟩
  have isLast₂ : s₂.callers = callers ++ [⟨u :: rest, .collecting⟩] := callers₂.trans isLast₁
  have settled (unit : Nat) : ⟨callers.length, unit⟩ ∉ s₂.pool.queue ∧
      (⟨callers.length, unit⟩ ∈ s₂.pool.running → (s₂.stage ⟨callers.length, unit⟩).IsThrough) := by
    rw [pool₂]
    exact ⟨List.not_mem_nil, fun running => absurd running List.not_mem_nil⟩
  have answers := Step.answer (turn?_last isLast₂) settled
  exact ⟨_, first.trans (later.trans answers.reaches), callers_setTurn isLast₂ _, pool₂, mirrors₂.observers, mirrors₂.nextEvent,
    mirrors₂.isAccepting⟩

/-- An engine carries a call out as a history does. -/
theorem execute_mirrored (idle : Idle s) :
    Ends (fun e => Mirrors s e.engine) (Engine.execute b context units work) (fun _ e => ComesToRest s e.engine)
      fun _ e => ComesToRest s e.engine := by
  obtain ⟨returned, slots, accepts, pos, isPool⟩ := id idle
  cases units with
  | nil =>
    have nothing : Ends (fun e => Mirrors s e.engine) (Engine.submitJobs 0) (fun _ e => Mirrors s e.engine) fun _ _ => False :=
      fun _ mirrors => mirrors
    have noUnits : Ends (fun e => Mirrors s e.engine) (Engine.runUnits b context work (fun _ => .runs) []) (fun _ e => Mirrors s e.engine)
        fun _ e => ComesToRest s e.engine := Ends.pure fun _ => id
    refine (nothing.failing fun _ _ => False.elim).bind fun _ => noUnits.bind fun _ => ?_
    refine (finishJobs_mirrored.failing fun _ _ => False.elim).bind fun _ e mirrors => ?_
    exact demand_mirrored _ e ⟨s, .refl, idle, mirrors⟩
  | cons u rest =>
    intro e mirrors
    have issues := Step.issue (s := s) (u :: rest)
    obtain ⟨s₁, issues, isLast, isPool₁, mirrors₁⟩ : ∃ s₁, Reaches s s₁ ∧
        s₁.callers = s.callers ++ [⟨u :: rest, .submitting 1⟩] ∧ s₁.pool = ⟨slots, accepts, [], []⟩ ∧ Mirrors s₁ e.engine :=
      ⟨_, issues.reaches, rfl, isPool, mirrors.observers, mirrors.nextEvent, mirrors.isAccepting⟩
    have rests {t : State α} (callers : t.callers = s.callers ++ [⟨u :: rest, .returned⟩]) (pool : t.pool = ⟨slots, accepts, [], []⟩) :
        Idle t := by
      refine ⟨fun caller member => ?_, slots, accepts, pos, pool⟩
      rw [callers] at member
      rcases List.mem_append.mp member with earlier | last
      · exact returned caller earlier
      · rw [List.mem_singleton.mp last]
    refine ((submitJobs_mirrored isLast isPool₁ (Nat.succ_pos _)).failing ?_).bind (fun _ => ?_) e mirrors₁
    · rintro _ e' ⟨t, reaches, callers, pool, mirrors⟩
      exact ⟨t, issues.trans reaches, rests callers (pool.trans isPool₁), mirrors⟩
    · rintro e' ⟨s₂, submits, isLast₂, isPool₂, mirrors₂⟩
      have collects : Ends (fun e => Mirrors s₂ e.engine) (Engine.runUnits b context work (fun _ => .runs) (u :: rest).zipIdx)
          (fun _ e => ComesToRest s e.engine) fun _ e => ComesToRest s e.engine := by
        refine (collect_mirrored isLast₂ isPool₂ pos).weaken ?_ fun _ _ => False.elim
        rintro _ e'' ⟨t, runs, callers, pool, mirrors⟩
        exact ⟨t, issues.trans (submits.trans runs), rests callers pool, mirrors⟩
      refine (collects.bind fun _ => Ends.bind ?_ fun _ => demand_mirrored _) e' mirrors₂
      rintro e ⟨t, reaches, idle, mirrors⟩
      exact ⟨t, reaches, idle, finishJobs_mirrored e mirrors⟩

/-! ## Demands -/

/-- What is demanded of an engine. -/
inductive Demand (α : Type) where
  | execute (context : Context) (units : List StatementUnit) (work : Engine.Work α)
  | shutdown

/-- What an engine is left with after a demand, whether it fails or not. -/
def Demand.after (b : Backend) (e : Engine.State) : Demand α → Engine.State
  | execute context units work =>
    match Engine.execute b context units work e with
    | .ok _ e' | .error _ e' => e'
  | shutdown => { e with engine := e.engine.shutdown.2 }

theorem Demand.mirrored (demand : Demand α) (e : Engine.State) (idle : Idle s) (mirrors : Mirrors s e.engine) :
    ComesToRest s (demand.after b e).engine := by
  cases demand with
  | execute context units work =>
    have carried : Ends (fun e => Mirrors s e.engine) (Engine.execute b context units work) (fun _ e => ComesToRest s e.engine)
        fun _ e => ComesToRest s e.engine := execute_mirrored idle
    have atEnd := carried e mirrors
    rw [Demand.after]
    cases run : Engine.execute b context units work e with
    | ok _ e' | error _ e' =>
      rw [run] at atEnd
      exact atEnd
  | shutdown =>
    obtain ⟨returned, slots, accepts, pos, isPool⟩ := idle
    refine ⟨_, Step.stop.reaches, ⟨returned, slots, false, pos, ?_⟩, mirrors.observers, mirrors.nextEvent, rfl⟩
    show s.pool.stop = ⟨slots, false, [], []⟩
    rw [isPool]
    rfl

section
variable (b : Backend) (traffic : Physical.Traffic) (workers graceMs capacity : Nat) (demands : List (Demand α))

/-- Whatever is demanded of a new engine with a monitor, it comes to where some history leads. -/
theorem exists_run_of_demands : ∃ h s, Run workers capacity h s ∧ Idle (s : State α) ∧
    Mirrors s (demands.foldl (Demand.after b) ⟨.new workers graceMs [.monitor (.ofCapacity capacity)], traffic⟩).engine := by
  induction demands using List.reverseRecOn with
  | nil => exact ⟨[], _, .start, ⟨nofun, max workers 1, true, Nat.le_max_right workers 1, rfl⟩, rfl, rfl, rfl⟩
  | append_singleton demands demand ih =>
    obtain ⟨h, s, run, idle, mirrors⟩ := ih
    obtain ⟨t, reaches, idle, mirrors⟩ := demand.mirrored (b := b) _ idle mirrors
    obtain ⟨h', run⟩ := run.reaches reaches
    rw [List.foldl_append]
    exact ⟨_, t, run, idle, mirrors⟩

/-- In the end each start that was counted is a success or a failure, and each failure is counted for its data source. -/
theorem conserved_of_demands :
    ∃ m, (demands.foldl (Demand.after b) ⟨.new workers graceMs [.monitor (.ofCapacity capacity)], traffic⟩).engine.observers =
        [.monitor m] ∧ m.metrics.started = m.metrics.succeeded + m.metrics.failed ∧ m.metrics.inFlight = 0 ∧
      Named.total m.metrics.failures = m.metrics.failed := by
  obtain ⟨h, s, run, idle, mirrors⟩ := exists_run_of_demands b traffic workers graceMs capacity demands
  have conserved := run.conserved idle.atRest
  refine ⟨s.monitor, mirrors.observers, conserved, ?_, run.counts.total⟩
  rw [Metrics.inFlight, conserved, Nat.sub_self]

end

end SqlSharding.Execution.Watched
