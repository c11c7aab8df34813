import Mathlib
import SqlSharding.Execution.Workload

/-!
# Histories of a pool

Clients submit jobs, workers take and end them, and shutdowns begin and return, all of this in any order. Whatever the
order is, the accepted jobs are those that were started, then those that a shutdown dropped, then those that still wait,
each of them once and in the order of submission (`Accounted`). So no job is lost or started twice, and a pool that was
shut down stays quiet (`Orderly`).
-/

namespace SqlSharding.Execution

namespace Pool

variable {Job : Type}

/-! ## Steps -/

/-- What happens to a pool. -/
inductive Move (Job : Type) where
  | accept (job : Job)
  | refuse (job : Job)
  /-- A worker takes a job. -/
  | start (job : Job)
  | finish (job : Job) (panics : Bool)
  /-- A shutdown begins, and drops these jobs. -/
  | stop (dropped : List Job)
  /-- The shutdown of this number returns; they are numbered in the order in which they begin. -/
  | conclude (shutdown : Nat) (outcome : Outcome Unit)

/-- One step of a pool. -/
inductive Step [DecidableEq Job] : Pool Job → Move Job → Pool Job → Prop
  | accept {p q : Pool Job} {job : Job} (accepted : p.submit job = .ok q) : Step p (.accept job) q
  | refuse {p : Pool Job} {job : Job} {f : Failure} (refused : p.submit job = .error f) : Step p (.refuse job) p
  | start {p q : Pool Job} {job : Job} (took : p.take? = some (job, q)) : Step p (.start job) q
  | finish {p : Pool Job} {job : Job} (panics : Bool) (running : job ∈ p.running) : Step p (.finish job panics) (p.finish job)
  | stop {p : Pool Job} : Step p (.stop p.queue) p.stop
  | conclude {p : Pool Job} (shutdown graceMs : Nat) : Step p (.conclude shutdown (p.stopped graceMs)) p

theorem submit_eq_ok_iff {p q : Pool Job} {job : Job} :
    p.submit job = .ok q ↔ p.isAccepting = true ∧ q = { p with queue := p.queue ++ [job] } := by
  rw [submit]
  cases p.isAccepting with
  | true => simp [eq_comm]
  | false => simp

theorem submit_eq_error_iff {p : Pool Job} {job : Job} {f : Failure} :
    p.submit job = .error f ↔ p.isAccepting = false ∧ f = .executorShutdown := by
  rw [submit]
  cases p.isAccepting with
  | true => simp
  | false => simp [eq_comm]

theorem take?_eq_some_iff {p q : Pool Job} {job : Job} :
    p.take? = some (job, q) ↔
      ∃ rest, p.queue = job :: rest ∧ p.running.length < p.size ∧ q = { p with queue := rest, running := p.running ++ [job] } := by
  rw [take?]
  cases p.queue with
  | nil => simp
  | cons oldest rest =>
    by_cases free : p.running.length < p.size
    · simp only [free, if_true, Option.some.injEq, Prod.mk.injEq, List.cons.injEq, true_and]
      constructor
      · rintro ⟨rfl, rfl⟩
        exact ⟨rest, ⟨rfl, rfl⟩, rfl⟩
      · rintro ⟨_, ⟨rfl, rfl⟩, rfl⟩
        exact ⟨rfl, rfl⟩
    · simp [free]

theorem stopped_eq_ok_iff {p : Pool Job} {graceMs : Nat} : p.stopped graceMs = .ok () ↔ p.running = [] := by
  rw [stopped]
  cases p.running <;> simp

/-! ## Histories -/

section
variable (h : List (Move Job))

/-- The jobs that were submitted, the first one first. -/
def submitted : List Job := h.filterMap fun
  | .accept job | .refuse job => some job
  | _ => none

/-- The jobs that were accepted, in the order of submission. -/
def accepted : List Job := h.filterMap fun
  | .accept job => some job
  | _ => none

/-- The jobs that workers took, the first one first. -/
def started : List Job := h.filterMap fun
  | .start job => some job
  | _ => none

/-- The jobs that ended, normally or not. -/
def ended : List Job := h.filterMap fun
  | .finish job _ => some job
  | _ => none

/-- For each shutdown the jobs that it dropped. -/
def drops : List (List Job) := h.filterMap fun
  | .stop dropped => some dropped
  | _ => none

end

/-- The shutdown of a number dropped a job. -/
def DroppedBy (h : List (Move Job)) (shutdown : Nat) (job : Job) : Prop :=
  ∃ dropped, (drops h)[shutdown]? = some dropped ∧ job ∈ dropped

/-- Different submissions are of different jobs, and a shutdown returns once, after it has begun. -/
def Follows (h : List (Move Job)) : Move Job → Prop
  | .accept job | .refuse job => job ∉ submitted h
  | .conclude shutdown _ => shutdown < (drops h).length ∧ ∀ outcome, .conclude shutdown outcome ∉ h
  | _ => True

/-- A new pool with some number of workers comes by a history to a state. -/
inductive Run [DecidableEq Job] (size : Nat) : List (Move Job) → Pool Job → Prop
  | new : Run size [] (.ofSize size)
  | step {h : List (Move Job)} {p q : Pool Job} {m : Move Job} (run : Run size h p) (follows : Follows h m) (step : Step p m q) :
    Run size (h ++ [m]) q

variable {size : Nat} {h h₁ h₂ : List (Move Job)} {p q : Pool Job} {m : Move Job}

theorem accepted_subset_submitted : accepted h ⊆ submitted h := by
  intro job member
  obtain ⟨m, inHistory, isAccepted⟩ := List.mem_filterMap.mp member
  refine List.mem_filterMap.mpr ⟨m, inHistory, ?_⟩
  cases m <;> first | exact isAccepted | cases isAccepted

@[simp]
theorem accepted_concat : accepted (h ++ [m]) = accepted h ++ match m with | .accept job => [job] | _ => [] := by
  rw [accepted, List.filterMap_append]
  cases m <;> rfl

@[simp]
theorem submitted_concat : submitted (h ++ [m]) = submitted h ++ match m with | .accept job | .refuse job => [job] | _ => [] := by
  rw [submitted, List.filterMap_append]
  cases m <;> rfl

@[simp]
theorem started_concat : started (h ++ [m]) = started h ++ match m with | .start job => [job] | _ => [] := by
  rw [started, List.filterMap_append]
  cases m <;> rfl

@[simp]
theorem ended_concat : ended (h ++ [m]) = ended h ++ match m with | .finish job _ => [job] | _ => [] := by
  rw [ended, List.filterMap_append]
  cases m <;> rfl

@[simp]
theorem drops_concat : drops (h ++ [m]) = drops h ++ match m with | .stop dropped => [dropped] | _ => [] := by
  rw [drops, List.filterMap_append]
  cases m <;> rfl

theorem mem_started {job : Job} : job ∈ started h ↔ .start job ∈ h := by
  rw [started, List.mem_filterMap]
  constructor
  · rintro ⟨m, member, isStarted⟩
    cases m <;> cases isStarted
    exact member
  · exact fun member => ⟨_, member, rfl⟩

theorem mem_ended {job : Job} : job ∈ ended h ↔ ∃ panics, .finish job panics ∈ h := by
  rw [ended, List.mem_filterMap]
  constructor
  · rintro ⟨m, member, isEnded⟩
    cases m <;> cases isEnded
    exact ⟨_, member⟩
  · rintro ⟨_, member⟩
    exact ⟨_, member, rfl⟩

variable [DecidableEq Job]

theorem Step.of_conclude {shutdown : Nat} {outcome : Outcome Unit} (step : Step p (.conclude shutdown outcome) q) :
    ∃ graceMs, p.stopped graceMs = outcome := by
  generalize same : Move.conclude shutdown outcome = m at step
  cases step <;> cases same
  exact ⟨_, rfl⟩

/-- Only an accepted job comes to the queue. -/
theorem Step.queue (step : Step p m q) {job : Job} (waits : job ∈ q.queue) : job ∈ p.queue ∨ m = .accept job := by
  cases step with
  | accept accepted =>
    obtain ⟨-, rfl⟩ := submit_eq_ok_iff.mp accepted
    rcases List.mem_append.mp waits with waits | isNew
    · exact .inl waits
    · exact .inr (List.mem_singleton.mp isNew ▸ rfl)
  | start took =>
    obtain ⟨rest, queue, -, rfl⟩ := take?_eq_some_iff.mp took
    exact .inl (queue ▸ List.mem_cons_of_mem _ waits)
  | stop => exact absurd waits List.not_mem_nil
  | _ => exact .inl waits

/-- Only a job from the queue comes to a worker. -/
theorem Step.running (step : Step p m q) {job : Job} (runs : job ∈ q.running) : job ∈ p.running ∨ job ∈ p.queue := by
  cases step with
  | accept accepted =>
    obtain ⟨-, rfl⟩ := submit_eq_ok_iff.mp accepted
    exact .inl runs
  | start took =>
    obtain ⟨rest, queue, -, rfl⟩ := take?_eq_some_iff.mp took
    rcases List.mem_append.mp runs with runs | isNew
    · exact .inl runs
    · exact .inr (queue ▸ List.mem_singleton.mp isNew ▸ List.mem_cons_self)
  | finish panics _ => exact .inl (List.mem_of_mem_erase runs)
  | _ => exact .inl runs

/-- A pool that has stopped stays so. -/
theorem Step.isAccepting (step : Step p m q) (stopped : p.isAccepting = false) : q.isAccepting = false := by
  cases step with
  | accept accepted => exact absurd ((submit_eq_ok_iff.mp accepted).1.symm.trans stopped) Bool.noConfusion
  | start took =>
    obtain ⟨rest, queue, -, rfl⟩ := take?_eq_some_iff.mp took
    exact stopped
  | stop => rfl
  | _ => exact stopped

theorem Step.size_eq (step : Step p m q) : q.size = p.size := by
  cases step with
  | accept accepted =>
    obtain ⟨-, rfl⟩ := submit_eq_ok_iff.mp accepted
    rfl
  | start took =>
    obtain ⟨rest, queue, -, rfl⟩ := take?_eq_some_iff.mp took
    rfl
  | _ => rfl

/-- A pool has a worker. -/
theorem Run.size_pos (run : Run size h p) : 0 < p.size := by
  induction run with
  | new => exact Nat.lt_of_lt_of_le Nat.one_pos (Nat.le_max_right size 1)
  | step _ _ step ih => rwa [step.size_eq]

/-- What came before a step of a run is a run of its own. -/
theorem Run.before (run : Run size (h₁ ++ m :: h₂) q) : ∃ p p', Run size h₁ p ∧ Follows h₁ m ∧ Step p m p' := by
  induction h₂ using List.reverseRecOn generalizing q with
  | nil =>
    generalize same : h₁ ++ [m] = h at run
    cases run with
    | new => simp at same
    | step run follows step =>
      obtain ⟨rfl, ⟨⟩⟩ := List.append_inj' same rfl
      exact ⟨_, _, run, follows, step⟩
  | append_singleton rest last ih =>
    generalize same : h₁ ++ m :: (rest ++ [last]) = h at run
    cases run with
    | new => simp at same
    | step run _ _ =>
      rw [← List.cons_append, ← List.append_assoc] at same
      obtain ⟨rfl, -⟩ := List.append_inj' same rfl
      exact ih run

/-! ## Where the jobs are -/

/-- Every accepted job was started, was dropped or waits. -/
structure Accounted (h : List (Move Job)) (p : Pool Job) : Prop where
  accepted_eq : accepted h = started h ++ ((drops h).flatten ++ p.queue)
  nodup : (accepted h).Nodup
  ended_subset : ended h ⊆ started h
  running_eq : p.running = (started h).filter (· ∉ ended h)
  isAccepting_iff : p.isAccepting = true ↔ drops h = []
  queue_eq : p.isAccepting = false → p.queue = []

namespace Accounted

variable {job : Job}

theorem new : Accounted [] (.ofSize size : Pool Job) where
  accepted_eq := rfl
  nodup := List.nodup_nil
  ended_subset := List.Subset.refl _
  running_eq := rfl
  isAccepting_iff := ⟨fun _ => rfl, fun _ => rfl⟩
  queue_eq := fun _ => rfl

theorem nodup_started (acc : Accounted h p) : (started h).Nodup := (acc.accepted_eq ▸ acc.nodup).of_append_left

/-- A job that a worker has taken does not wait. -/
theorem not_mem_queue (acc : Accounted h p) (runs : job ∈ p.running) : job ∉ p.queue := by
  have apart := (List.nodup_append.mp (acc.accepted_eq ▸ acc.nodup)).2.2
  rw [acc.running_eq] at runs
  exact fun waits => apart job (List.mem_of_mem_filter runs) job (List.mem_append_right _ waits) rfl

/-- Jobs wait only as long as there was no shutdown. -/
theorem drops_eq (acc : Accounted h p) (waits : job ∈ p.queue) : drops h = [] := by
  refine acc.isAccepting_iff.mp ?_
  by_contra stopped
  rw [acc.queue_eq (Bool.not_eq_true _ ▸ stopped)] at waits
  exact List.not_mem_nil waits

/-- A refused submission and a shutdown that concludes leave all jobs where they are. -/
theorem rest (acc : Accounted h p) (rests : (∃ job, m = .refuse job) ∨ ∃ shutdown outcome, m = .conclude shutdown outcome) :
    Accounted (h ++ [m]) p := by
  obtain ⟨job, rfl⟩ | ⟨shutdown, outcome, rfl⟩ := rests <;>
  exact {
    accepted_eq := by simpa using acc.accepted_eq
    nodup := by simpa using acc.nodup
    ended_subset := by simpa using acc.ended_subset
    running_eq := by simpa using acc.running_eq
    isAccepting_iff := by simpa using acc.isAccepting_iff
    queue_eq := acc.queue_eq }

theorem accept (acc : Accounted h p) (isNew : job ∉ submitted h) (isAccepting : p.isAccepting = true) :
    Accounted (h ++ [.accept job]) { p with queue := p.queue ++ [job] } where
  accepted_eq := by simp [acc.accepted_eq]
  nodup := by
    have apart : job ∉ accepted h := fun member => isNew (accepted_subset_submitted member)
    rw [accepted_concat]
    exact acc.nodup.append (List.nodup_singleton job) (List.disjoint_singleton.mpr apart)
  ended_subset := by simpa using acc.ended_subset
  running_eq := by simpa using acc.running_eq
  isAccepting_iff := by simpa using acc.isAccepting_iff
  queue_eq := fun stopped => Bool.noConfusion (isAccepting.symm.trans stopped)

theorem start (acc : Accounted h p) {rest : List Job} (queue : p.queue = job :: rest) :
    Accounted (h ++ [.start job]) { p with queue := rest, running := p.running ++ [job] } := by
  have none : drops h = [] := acc.drops_eq (queue ▸ List.mem_cons_self)
  have order : accepted h = started h ++ job :: rest := by rw [acc.accepted_eq, none, queue]; rfl
  have isNew : job ∉ started h := by
    have parts := List.nodup_append.mp (order ▸ acc.nodup)
    exact fun member => parts.2.2 job member job List.mem_cons_self rfl
  exact {
    accepted_eq := by simp [order, none]
    nodup := by simpa using acc.nodup
    ended_subset := by
      rw [ended_concat, started_concat, List.append_nil]
      exact List.subset_append_of_subset_left _ acc.ended_subset
    running_eq := by
      have unfinished : job ∉ ended h := fun member => isNew (acc.ended_subset member)
      simp [acc.running_eq, unfinished]
    isAccepting_iff := by simpa using acc.isAccepting_iff
    queue_eq := fun stopped => by
      rw [acc.queue_eq stopped] at queue
      cases queue }

theorem finish (acc : Accounted h p) (panics : Bool) (running : job ∈ p.running) :
    Accounted (h ++ [.finish job panics]) (p.finish job) where
  accepted_eq := by simpa [Pool.finish] using acc.accepted_eq
  nodup := by simpa using acc.nodup
  ended_subset := by
    rw [acc.running_eq] at running
    have isStarted : job ∈ started h := List.mem_of_mem_filter running
    simpa [isStarted] using acc.ended_subset
  running_eq := by
    have nodup : p.running.Nodup := acc.running_eq ▸ acc.nodup_started.filter _
    rw [Pool.finish, nodup.erase_eq_filter, acc.running_eq, List.filter_filter, started_concat, ended_concat, List.append_nil]
    refine List.filter_congr fun other _ => ?_
    by_cases same : other = job <;> simp [same]
  isAccepting_iff := by simpa [Pool.finish] using acc.isAccepting_iff
  queue_eq := acc.queue_eq

theorem stop (acc : Accounted h p) : Accounted (h ++ [.stop p.queue]) p.stop where
  accepted_eq := by simp [acc.accepted_eq, Pool.stop]
  nodup := by simpa using acc.nodup
  ended_subset := by simpa using acc.ended_subset
  running_eq := by simpa [Pool.stop] using acc.running_eq
  isAccepting_iff := by simp [Pool.stop]
  queue_eq := fun _ => rfl

/-- One step accounts for the jobs that it moves. -/
theorem step (acc : Accounted h p) (follows : Follows h m) (step : Step p m q) : Accounted (h ++ [m]) q := by
  cases step with
  | accept accepted =>
    obtain ⟨isAccepting, rfl⟩ := submit_eq_ok_iff.mp accepted
    exact acc.accept follows isAccepting
  | refuse _ => exact acc.rest (.inl ⟨_, rfl⟩)
  | start took =>
    obtain ⟨rest, queue, -, rfl⟩ := take?_eq_some_iff.mp took
    exact acc.start queue
  | finish panics running => exact acc.finish panics running
  | stop => exact acc.stop
  | conclude shutdown graceMs => exact acc.rest (.inr ⟨_, _, rfl⟩)

theorem of_run (run : Run size h p) : Accounted h p := by
  induction run with
  | new => exact .new
  | step _ follows step acc => exact acc.step follows step

end Accounted

/-! ## After a shutdown -/

/-- Once a shutdown has begun no job is accepted and none is started. -/
theorem Run.quiet (run : Run size (h₁ ++ h₂) p) (stopped : drops h₁ ≠ []) (job : Job) :
    .accept job ∉ h₂ ∧ .start job ∉ h₂ := by
  have at_ (m : Move Job) (member : m ∈ h₂) : ∃ h p p', drops h ≠ [] ∧ Accounted h p ∧ Step p m p' := by
    obtain ⟨between, after, rfl⟩ := List.append_of_mem member
    rw [← List.append_assoc] at run
    obtain ⟨p, p', before, -, step⟩ := run.before
    refine ⟨_, p, p', ?_, .of_run before, step⟩
    rw [drops, List.filterMap_append]
    exact List.append_ne_nil_of_left_ne_nil stopped _
  constructor
  · intro member
    obtain ⟨h, p, p', isStopped, acc, step⟩ := at_ _ member
    cases step with
    | accept accepted => exact isStopped (acc.isAccepting_iff.mp (submit_eq_ok_iff.mp accepted).1)
  · intro member
    obtain ⟨h, p, p', isStopped, acc, step⟩ := at_ _ member
    cases step with
    | start took =>
      obtain ⟨rest, queue, -⟩ := take?_eq_some_iff.mp took
      exact isStopped (acc.drops_eq (queue ▸ List.mem_cons_self))

/-- Once a shutdown has succeeded no job is running, and none is started. -/
theorem Run.quiet_of_conclude {shutdown : Nat} (run : Run size (h₁ ++ .conclude shutdown (.ok ()) :: h₂) p) :
    p.running = [] ∧ ∀ job, .start job ∉ h₂ := by
  obtain ⟨p₁, _, before, ⟨begun, -⟩, step⟩ := run.before
  obtain ⟨graceMs, concluded⟩ := step.of_conclude
  have stopped : drops h₁ ≠ [] := List.ne_nil_of_length_pos (Nat.zero_lt_of_lt begun)
  have allEnded : ∀ job ∈ started h₁, job ∈ ended h₁ := by
    have none := (Accounted.of_run before).running_eq.symm.trans (stopped_eq_ok_iff.mp concluded)
    simpa using none
  have quiet (job : Job) := (run.quiet stopped job).2
  refine ⟨?_, fun job member => quiet job (List.mem_cons_of_mem _ member)⟩
  rw [(Accounted.of_run run).running_eq, List.filter_eq_nil_iff]
  intro job isStarted
  have earlier : job ∈ started h₁ := by
    rw [mem_started, List.mem_append] at isStarted
    exact mem_started.mpr (isStarted.resolve_right (quiet job))
  obtain ⟨panics, member⟩ := mem_ended.mp (allEnded job earlier)
  simpa using mem_ended.mpr ⟨panics, List.mem_append_left _ member⟩

/-! ## All jobs of a history -/

omit [DecidableEq Job] in
theorem mem_flatten_drops {job : Job} : job ∈ (drops h).flatten ↔ ∃ shutdown, DroppedBy h shutdown job := by
  rw [List.mem_flatten]
  constructor
  · rintro ⟨dropped, isDrop, member⟩
    obtain ⟨shutdown, found⟩ := List.mem_iff_getElem?.mp isDrop
    exact ⟨shutdown, dropped, found, member⟩
  · rintro ⟨shutdown, dropped, found, member⟩
    exact ⟨dropped, List.mem_of_getElem? found, member⟩

/-- Two shutdowns do not drop the same job. -/
theorem Accounted.droppedBy_unique (acc : Accounted h p) {job : Job} {i j : Nat} (first : DroppedBy h i job)
    (second : DroppedBy h j job) : i = j := by
  obtain ⟨dropped, atFirst, inFirst⟩ := first
  obtain ⟨others, atSecond, inSecond⟩ := second
  have apart : (drops h).Pairwise List.Disjoint := by
    have nodup := (acc.accepted_eq ▸ acc.nodup).of_append_right.of_append_left
    exact (List.nodup_flatten.mp nodup).2
  rw [List.pairwise_iff_getElem] at apart
  obtain ⟨i_lt, rfl⟩ := List.getElem?_eq_some_iff.mp atFirst
  obtain ⟨j_lt, rfl⟩ := List.getElem?_eq_some_iff.mp atSecond
  by_contra different
  rcases Nat.lt_or_gt_of_ne different with less | greater
  · exact apart i j i_lt j_lt less inFirst inSecond
  · exact apart j i j_lt i_lt greater inSecond inFirst

/-- What becomes of the jobs of a history. -/
structure Orderly (h : List (Move Job)) (p : Pool Job) : Prop where
  /-- No job is started twice. -/
  startedOnce : (started h).Nodup
  /-- Jobs are started in the order in which they were submitted. -/
  inOrder : started h <+: accepted h
  /-- An accepted job was either started, or dropped by one shutdown; it can only be left in the queue as long as jobs are
  accepted. -/
  settled : ∀ job ∈ accepted h,
    (job ∈ started h ∧ job ∉ p.queue ∧ ∀ shutdown, ¬ DroppedBy h shutdown job) ∨
    (job ∉ started h ∧ job ∉ p.queue ∧ ∃! shutdown, DroppedBy h shutdown job) ∨
    (job ∉ started h ∧ job ∈ p.queue ∧ (∀ shutdown, ¬ DroppedBy h shutdown job) ∧ p.isAccepting = true)
  /-- Only accepted jobs are dropped. -/
  dropsAccepted : ∀ shutdown job, DroppedBy h shutdown job → job ∈ accepted h
  /-- The jobs that run are those that were started and have not ended. -/
  running_eq : p.running = (started h).filter (· ∉ ended h)
  /-- After a shutdown has begun no job is accepted. -/
  refuses : ∀ h₁ dropped h₂, h = h₁ ++ .stop dropped :: h₂ → ∀ job, .accept job ∉ h₂
  /-- After a shutdown has succeeded no job is running, and none is started. -/
  rests : ∀ h₁ shutdown h₂, h = h₁ ++ .conclude shutdown (.ok ()) :: h₂ → p.running = [] ∧ ∀ job, .start job ∉ h₂

theorem Accounted.settled (acc : Accounted h p) {job : Job} (member : job ∈ accepted h) :
    (job ∈ started h ∧ job ∉ p.queue ∧ ∀ shutdown, ¬ DroppedBy h shutdown job) ∨
    (job ∉ started h ∧ job ∉ p.queue ∧ ∃! shutdown, DroppedBy h shutdown job) ∨
    (job ∉ started h ∧ job ∈ p.queue ∧ (∀ shutdown, ¬ DroppedBy h shutdown job) ∧ p.isAccepting = true) := by
  have parts := acc.nodup
  rw [acc.accepted_eq, List.nodup_append, List.nodup_append] at parts
  obtain ⟨-, ⟨-, -, dropsApart⟩, startsApart⟩ := parts
  have notDropped (apart : job ∉ (drops h).flatten) (shutdown : Nat) : ¬ DroppedBy h shutdown job :=
    fun dropped => apart (mem_flatten_drops.mpr ⟨shutdown, dropped⟩)
  rw [acc.accepted_eq, List.mem_append, List.mem_append] at member
  rcases member with isStarted | isDropped | waits
  · have apart (elsewhere : job ∈ (drops h).flatten ++ p.queue) : False := startsApart job isStarted job elsewhere rfl
    refine .inl ⟨isStarted, fun waits => apart (List.mem_append_right _ waits), notDropped fun isDropped => ?_⟩
    exact apart (List.mem_append_left _ isDropped)
  · refine .inr (.inl ⟨fun isStarted => ?_, fun waits => dropsApart job isDropped job waits rfl, ?_⟩)
    · exact startsApart job isStarted job (List.mem_append_left _ isDropped) rfl
    · obtain ⟨shutdown, dropped⟩ := mem_flatten_drops.mp isDropped
      exact ⟨shutdown, dropped, fun _ other => acc.droppedBy_unique other dropped⟩
  · refine .inr (.inr ⟨fun isStarted => ?_, waits, notDropped fun isDropped => dropsApart job isDropped job waits rfl, ?_⟩)
    · exact startsApart job isStarted job (List.mem_append_right _ waits) rfl
    · exact acc.isAccepting_iff.mpr (acc.drops_eq waits)

/-- In whatever order clients, workers and shutdowns act, no job is lost or started twice, and a pool that was shut down
is at rest. -/
theorem orderly_of_run (run : Run size h p) : Orderly h p where
  startedOnce := (Accounted.of_run run).nodup_started
  inOrder := (Accounted.of_run run).accepted_eq ▸ List.prefix_append _ _
  settled := fun _ => (Accounted.of_run run).settled
  dropsAccepted := by
    intro shutdown job dropped
    rw [(Accounted.of_run run).accepted_eq]
    exact List.mem_append_right _ (List.mem_append_left _ (mem_flatten_drops.mpr ⟨shutdown, dropped⟩))
  running_eq := (Accounted.of_run run).running_eq
  refuses := by
    rintro h₁ dropped h₂ rfl job
    rw [List.append_cons] at run
    exact (run.quiet (by simp) job).1
  rests := by
    rintro h₁ shutdown h₂ rfl
    exact run.quiet_of_conclude

/-- One worker, a shutdown that times out and another one that succeeds when the job has panicked. -/
theorem orderly_of_run_panics :
    let h : List (Move Nat) := [.accept 1, .accept 2, .start 1, .stop [2], .refuse 3, .conclude 0 (.error (.shutdownTimeout 5)),
      .stop [], .finish 1 true, .conclude 1 (.ok ())]
    Run 0 h ⟨1, false, [], []⟩ ∧ Orderly h ⟨1, false, [], []⟩ := by
  have accepts : Run 0 [.accept 1, .accept 2] (⟨1, true, [1, 2], []⟩ : Pool Nat) := by
    refine .step (h := [.accept 1]) (p := ⟨1, true, [1], []⟩) ?_ (by simp [Follows, submitted]) (.accept rfl)
    exact .step (h := []) .new (by simp [Follows, submitted]) (.accept rfl)
  have starts : Run 0 [.accept 1, .accept 2, .start 1] (⟨1, true, [2], [1]⟩ : Pool Nat) := accepts.step trivial (.start rfl)
  have stops : Run 0 [.accept 1, .accept 2, .start 1, .stop [2]] (⟨1, false, [], [1]⟩ : Pool Nat) := starts.step trivial .stop
  have refuses := stops.step (m := .refuse 3) (by simp [Follows, submitted]) (.refuse rfl)
  have timesOut := refuses.step (m := .conclude 0 (.error (.shutdownTimeout 5))) ⟨by decide, by simp⟩ (.conclude 0 5)
  have stopsAgain := timesOut.step (m := .stop []) trivial .stop
  have ends := stopsAgain.step (m := .finish 1 true) trivial (.finish true List.mem_cons_self)
  have run := ends.step (m := .conclude 1 (.ok ())) ⟨by decide, by simp⟩ (.conclude 1 0)
  exact ⟨run, orderly_of_run run⟩

end Pool

/-! ## Workloads -/

namespace Workload

open Pool (Run submitted)

/-- The workloads that a new pool comes to. -/
inductive Reached (size : Nat) : Workload → Prop
  | new : Reached size (.ofPool (.ofSize size))
  | submit {w : Workload} (kind : JobKind) : Reached size w → Reached size (w.submit kind).2
  | release {w : Workload} : Reached size w → Reached size w.release
  | shutdown {w : Workload} (graceMs : Nat) : Reached size w → Reached size (w.shutdown graceMs).2

/-- The pool of a workload has a history in which its jobs were submitted. -/
def HasHistory (size : Nat) (pool : Pool Nat) (jobs : Nat) : Prop := ∃ h, Run size h pool ∧ submitted h = List.range jobs

namespace HasHistory

variable {size jobs : Nat} {p q : Pool Nat}

/-- A step without a submission. -/
theorem step (history : HasHistory size p jobs) {m : Pool.Move Nat} (step : p.Step m q) (follows : ∀ h, Pool.Follows h m)
    (none : ∀ h, submitted (h ++ [m]) = submitted h) : HasHistory size q jobs := by
  obtain ⟨h, run, jobs⟩ := history
  exact ⟨h ++ [m], run.step (follows h) step, (none h).trans jobs⟩

theorem finish (history : HasHistory size p jobs) {job : Nat} (running : job ∈ p.running) : HasHistory size (p.finish job) jobs :=
  history.step (.finish false running) (fun _ => trivial) fun _ => by simp

theorem settle {ends : Nat → Bool} (history : HasHistory size p jobs) : HasHistory size (p.settle ends) jobs := by
  induction p using Pool.settle.induct ends with
  | case1 p none =>
    rw [Pool.settle]
    split
    · exact history
    · next took =>
      rw [none] at took
      cases took
  | case2 p job taken took ih =>
    have starts : HasHistory size taken jobs := history.step (.start took) (fun _ => trivial) fun _ => by simp
    have runs : job ∈ taken.running := by
      obtain ⟨rest, -, -, rfl⟩ := Pool.take?_eq_some_iff.mp took
      exact List.mem_concat_self
    rw [Pool.settle]
    split
    · exact history
    · next other took' =>
      obtain ⟨rfl, rfl⟩ : job = _ ∧ taken = _ := by simpa [took] using took'
      refine ih ?_
      split
      · exact starts.finish runs
      · exact starts

/-- All jobs that workers have taken can end. -/
theorem finishRunning (history : HasHistory size p jobs) : HasHistory size p.finishRunning jobs := by
  generalize taken : p.running = running
  induction running generalizing p with
  | nil =>
    rw [Pool.finishRunning, ← taken]
    exact history
  | cons job rest ih =>
    have ends := history.finish (taken ▸ List.mem_cons_self)
    have left : (p.finish job).running = rest := by rw [Pool.finish, taken, List.erase_cons_head]
    exact (ih ends left : HasHistory size (p.finish job).finishRunning jobs)

end HasHistory

/-- What a workload does to its pool is a history of the pool. -/
theorem Reached.hasHistory {size : Nat} {w : Workload} (reached : Reached size w) : HasHistory size w.pool w.kinds.length := by
  induction reached with
  | new => exact ⟨[], .new, rfl⟩
  | @submit w kind _ history =>
    obtain ⟨h, run, jobs⟩ := history
    have isNew : w.kinds.length ∉ submitted h := by simp [jobs]
    have longer : submitted (h ++ [.accept w.kinds.length]) = List.range (w.kinds ++ [kind]).length := by
      simp [jobs, List.range_succ]
    rw [Workload.submit]
    cases accepted : w.pool.submit w.kinds.length with
    | ok pool =>
      have accepts : HasHistory size pool (w.kinds ++ [kind]).length := ⟨_, run.step (m := .accept _) isNew (.accept accepted), longer⟩
      exact accepts.settle
    | error f => exact ⟨_, run.step (m := .refuse _) isNew (.refuse accepted), by simpa using longer⟩
  | release _ history => exact history.finishRunning.settle
  | shutdown graceMs _ history => exact history.step .stop (fun _ => trivial) fun _ => by simp

end Workload

end SqlSharding.Execution
