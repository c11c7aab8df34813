import Mathlib
import SqlSharding.Execution.Engine
import SqlSharding.Proofs.Endings

/-!
# Answers of calls

The answer of a call is a function of the outcomes of its units, and these do not depend on the order in which they arrive.
A call that is not disturbed answers what the work of its units gives.
-/

namespace SqlSharding.Execution

open Physical (Backend Exchange)

variable {α : Type}

/-! ## Answers -/

/-- Whether a failure of a unit becomes the answer of the call, if no unit before it has such a failure. -/
def Decides (failFast : Bool) (f : Failure) : Prop :=
  failFast = true ∨ (∃ graceMs, f = .shutdownTimeout graceMs) ∨ ∃ message, f = .internal message

/-- What a call answers when these are the outcomes of its units. -/
def IsAnswer (failFast : Bool) (outcomes : List (Outcome α)) : Outcome (List (Option α)) → Prop
  | .error f => ∃ before after, outcomes = before ++ .error f :: after ∧ Decides failFast f ∧
    ∀ earlier, .error earlier ∈ before → ¬ Decides failFast earlier
  | .ok values => (∀ f, .error f ∈ outcomes → ¬ Decides failFast f) ∧
    List.Forall₂ (fun value outcome => ∀ a, value = some a ↔ outcome = .ok a) values outcomes

theorem decides_iff {failFast : Bool} {f : Failure} : Decides failFast f ↔ (failFast || f.isFatal) = true := by
  rw [Decides, Bool.or_eq_true]
  cases f <;> simp [Failure.isFatal]

theorem decisive?_eq_some_iff {failFast : Bool} {outcome : Outcome α} {f : Failure} :
    decisive? failFast outcome = some f ↔ outcome = .error f ∧ Decides failFast f := by
  cases outcome with
  | ok a => simp [decisive?]
  | error e =>
    rw [decisive?, Option.ite_none_right_eq_some, ← decides_iff, Option.some.injEq]
    constructor
    · rintro ⟨decides, rfl⟩
      exact ⟨rfl, decides⟩
    · rintro ⟨⟨⟩, decides⟩
      exact ⟨decides, rfl⟩

theorem decisive?_eq_none_iff {failFast : Bool} {outcome : Outcome α} :
    decisive? failFast outcome = none ↔ ∀ f, outcome = .error f → ¬ Decides failFast f := by
  rw [Option.eq_none_iff_forall_ne_some]
  exact forall_congr' fun f => (not_congr decisive?_eq_some_iff).trans not_and

theorem valueOf_eq_some_iff {outcome : Outcome α} {a : α} : valueOf outcome = some a ↔ outcome = .ok a := by
  cases outcome <;> simp [valueOf]

theorem eq_map_valueOf_iff {values : List (Option α)} {outcomes : List (Outcome α)} :
    List.Forall₂ (fun value outcome => ∀ a, value = some a ↔ outcome = .ok a) values outcomes ↔
      values = outcomes.map valueOf := by
  have same (value : Option α) (outcome : Outcome α) : (∀ a, value = some a ↔ outcome = .ok a) ↔ value = valueOf outcome := by
    rw [Option.ext_iff]
    exact forall_congr' fun a => by rw [valueOf_eq_some_iff]
  simp only [same]
  rw [← List.forall₂_map_right_iff, List.forall₂_eq_eq_eq]

/-- There is one answer to each list of outcomes. -/
theorem isAnswer_iff {failFast : Bool} {outcomes : List (Outcome α)} {result : Outcome (List (Option α))} :
    IsAnswer failFast outcomes result ↔ result = answer failFast outcomes := by
  have undecided : outcomes.findSome? (decisive? failFast) = none ↔ ∀ f, .error f ∈ outcomes → ¬ Decides failFast f := by
    rw [List.findSome?_eq_none_iff]
    constructor
    · exact fun none f member => decisive?_eq_none_iff.mp (none _ member) f rfl
    · rintro none _ member
      exact decisive?_eq_none_iff.mpr fun f failed => none f (failed ▸ member)
  have decided (f : Failure) : outcomes.findSome? (decisive? failFast) = some f ↔ IsAnswer failFast outcomes (.error f) := by
    rw [List.findSome?_eq_some_iff]
    constructor
    · rintro ⟨before, outcome, after, rfl, isDecisive, none⟩
      obtain ⟨rfl, decides⟩ := decisive?_eq_some_iff.mp isDecisive
      exact ⟨before, after, rfl, decides, fun earlier member => decisive?_eq_none_iff.mp (none _ member) earlier rfl⟩
    · rintro ⟨before, after, rfl, decides, none⟩
      refine ⟨before, _, after, rfl, decisive?_eq_some_iff.mpr ⟨rfl, decides⟩, fun outcome member => ?_⟩
      exact decisive?_eq_none_iff.mpr fun earlier failed => none earlier (failed ▸ member)
  rw [answer]
  cases result with
  | error f =>
    rw [← decided]
    cases outcomes.findSome? (decisive? failFast) <;> simp [eq_comm]
  | ok values =>
    rw [IsAnswer, ← undecided, eq_map_valueOf_iff]
    cases outcomes.findSome? (decisive? failFast) <;> simp

/-! ## Arrivals -/

section
variable {arrivals : List (Nat × Outcome α)} {i count : Nat}

theorem length_arrange : (arrange count arrivals).length = count := by
  have kept (slots : List (Option (Outcome α))) :
      (arrivals.foldl (fun slots (i, outcome) => slots.set i (some outcome)) slots).length = slots.length := by
    induction arrivals generalizing slots with
    | nil => rfl
    | cons arrival rest ih => rw [List.foldl_cons, ih, List.length_set]
  rw [arrange, List.length_map, kept, List.length_replicate]

theorem getElem?_arrivals_of_not_mem (slots : List (Option (Outcome α))) (absent : i ∉ arrivals.map Prod.fst) :
    (arrivals.foldl (fun slots (i, outcome) => slots.set i (some outcome)) slots)[i]? = slots[i]? := by
  induction arrivals generalizing slots with
  | nil => rfl
  | cons arrival rest ih =>
    obtain ⟨other, later⟩ := not_or.mp (List.mem_cons.not.mp absent)
    rw [List.foldl_cons, ih _ later, List.getElem?_set_ne (Ne.symm other)]

theorem getElem?_arrivals_of_mem {outcome : Outcome α} (slots : List (Option (Outcome α))) (once : (arrivals.map Prod.fst).Nodup)
    (member : (i, outcome) ∈ arrivals) (inRange : i < slots.length) :
    (arrivals.foldl (fun slots (i, outcome) => slots.set i (some outcome)) slots)[i]? = some (some outcome) := by
  induction arrivals generalizing slots with
  | nil => cases member
  | cons arrival rest ih =>
    obtain ⟨absent, once⟩ := List.nodup_cons.mp once
    rw [List.foldl_cons]
    rcases List.mem_cons.mp member with rfl | member
    · rw [getElem?_arrivals_of_not_mem _ absent, List.getElem?_set_self inRange]
    · exact ih _ once member (by rwa [List.length_set])

/-- Each unit has the outcome that arrived from it, whatever the order of the arrivals is. -/
theorem getElem?_arrange_of_mem {outcome : Outcome α} (once : (arrivals.map Prod.fst).Nodup) (member : (i, outcome) ∈ arrivals)
    (inRange : i < count) : (arrange count arrivals)[i]? = some outcome := by
  rw [arrange, List.getElem?_map, getElem?_arrivals_of_mem _ once member (by rwa [List.length_replicate])]
  rfl

/-- A unit from which nothing arrived was cancelled. -/
theorem getElem?_arrange_of_not_mem (absent : i ∉ arrivals.map Prod.fst) (inRange : i < count) :
    (arrange count arrivals)[i]? = some (.error .cancelled) := by
  rw [arrange, List.getElem?_map, getElem?_arrivals_of_not_mem _ absent, List.getElem?_replicate_of_lt inRange]
  rfl

end

/-! ## Calls -/

/-- What an exchange gives at some moment. -/
def Gives (x : Exchange α) (outcome : Outcome α) : Prop := ∃ t t', x.attempt t = .ok outcome t'

/-- What comes of a unit: the outcome of its work if it runs. -/
def Fate.Sends (fate : Fate) (x : Exchange α) (outcome : Option (Outcome α)) : Prop :=
  match fate with
  | .runs => ∃ given, outcome = some given ∧ Gives x given
  | .dropped | .breaksOff => outcome = none

/-- The outcomes that arrive from units with these numbers. -/
def reported (numbers : List Nat) (sends : List (Option (Outcome α))) : List (Nat × Outcome α) :=
  (numbers.zip sends).filterMap fun (i, outcome) => outcome.map (i, ·)

theorem reported_sublist (numbers : List Nat) (sends : List (Option (Outcome α))) :
    ((reported numbers sends).map Prod.fst).Sublist numbers := by
  rw [reported]
  induction numbers generalizing sends with
  | nil => exact List.Sublist.refl []
  | cons i rest ih =>
    cases sends with
    | nil => exact List.nil_sublist _
    | cons outcome later =>
      cases outcome with
      | none => exact (ih later).cons i
      | some outcome => exact (ih later).cons_cons i

theorem reported_concat {numbers : List Nat} {sends : List (Option (Outcome α))} (length : numbers.length = sends.length) (i : Nat)
    (outcome : Option (Outcome α)) :
    reported (numbers ++ [i]) (sends ++ [outcome]) = reported numbers sends ++ (outcome.map (i, ·)).toList := by
  rw [reported, List.zip_append length, List.filterMap_append]
  cases outcome <;> rfl

theorem mem_reported {sends : List (Option (Outcome α))} {i : Nat} {outcome : Outcome α} :
    (i, outcome) ∈ reported (List.range sends.length) sends ↔ sends[i]? = some (some outcome) := by
  rw [reported, List.mem_filterMap]
  constructor
  · rintro ⟨⟨j, sentBy⟩, member, same⟩
    obtain ⟨k, found⟩ := List.mem_iff_getElem?.mp member
    obtain ⟨position, sentSo⟩ := List.getElem?_zip_eq_some.mp found
    obtain ⟨_, rfl⟩ := List.getElem?_eq_some_iff.mp position
    cases sentBy with
    | none => cases same
    | some outcome =>
      cases same
      simpa using sentSo
  · intro sentSo
    have inRange : i < sends.length := (List.getElem?_eq_some_iff.mp sentSo).1
    refine ⟨(i, some outcome), List.mem_iff_getElem?.mpr ⟨i, ?_⟩, rfl⟩
    exact List.getElem?_zip_eq_some.mpr ⟨List.getElem?_range inRange, sentSo⟩

/-- Units that report in their order fill the answer in their order. -/
theorem arrange_reported {sends : List (Option (Outcome α))} :
    arrange sends.length (reported (List.range sends.length) sends) = sends.map (·.getD (.error .cancelled)) := by
  have once := (reported_sublist (List.range sends.length) sends).nodup List.nodup_range
  refine List.ext_getElem? fun i => ?_
  rw [List.getElem?_map]
  by_cases inRange : i < sends.length
  · cases found : sends[i] with
    | some outcome =>
      have sentSo : sends[i]? = some (some outcome) := List.getElem?_eq_some_iff.mpr ⟨inRange, found⟩
      rw [getElem?_arrange_of_mem once (mem_reported.mpr sentSo) inRange, sentSo]
      rfl
    | none =>
      have sentNone : sends[i]? = some none := List.getElem?_eq_some_iff.mpr ⟨inRange, found⟩
      have absent : i ∉ (reported (List.range sends.length) sends).map Prod.fst := by
        intro member
        obtain ⟨⟨_, outcome⟩, reports, rfl⟩ := List.mem_map.mp member
        exact absurd (sentNone.symm.trans (mem_reported.mp reports)) (by simp)
      rw [getElem?_arrange_of_not_mem absent inRange, sentNone]
      rfl
  · have outside := Nat.le_of_not_lt inRange
    rw [List.getElem?_eq_none (by rwa [length_arrange]), List.getElem?_eq_none outside]
    rfl

theorem Pool.foldlM_submit {Job : Type} {pool : Pool Job} (isAccepting : pool.isAccepting = true) (jobs : List Job) :
    jobs.foldlM Pool.submit pool = .ok { pool with queue := pool.queue ++ jobs } := by
  induction jobs generalizing pool with
  | nil => rw [List.append_nil]; rfl
  | cons job rest ih =>
    have still : ({ pool with queue := pool.queue ++ [job] } : Pool Job).isAccepting = true := isAccepting
    rw [List.foldlM_cons, Pool.submit, if_pos isAccepting]
    refine (ih still).trans ?_
    rw [List.append_assoc, List.singleton_append]

theorem Pool.foldlM_submit_of_stopped {Job : Type} {pool : Pool Job} (stopped : pool.isAccepting = false) (job : Job) (rest : List Job) :
    (job :: rest).foldlM Pool.submit pool = .error .executorShutdown := by
  rw [List.foldlM_cons, Pool.submit, if_neg (Bool.not_eq_true _ ▸ stopped)]
  rfl

namespace Engine

variable {b : Backend} {context : Context} {work : Work α}

theorem attempt_ends (x : Exchange α) :
    Ends (fun _ => True) (Action.attempt x) (fun outcome _ => Gives x outcome) (fun _ _ => False) := by
  intro s _
  rw [Action.attempt]
  cases given : x s.traffic with
  | ok a t => exact ⟨s.traffic, t, by rw [Physical.Exchange.attempt, given]⟩
  | error f t => exact ⟨s.traffic, t, by rw [Physical.Exchange.attempt, given]⟩

theorem runUnit_ends {fate : Fate} {u : StatementUnit} :
    Ends (fun _ => True) (runUnit b context work fate u) (fun outcome _ => fate.Sends (work context u) outcome) (fun _ _ => False) := by
  have announced : Ends (fun _ => True) (announce b u) (fun _ _ => True) (fun _ _ => False) := fun _ _ => trivial
  cases fate with
  | dropped => exact Ends.pure fun _ _ => rfl
  | breaksOff => exact announced.bind fun _ => Ends.pure fun _ _ => rfl
  | runs =>
    refine announced.bind fun events => (attempt_ends (work context u)).bind fun outcome => ?_
    -- Nothing that follows changes what the unit gave.
    intro s given
    exact ⟨outcome, rfl, given⟩

/-- The units report in their order. -/
theorem runUnits_ends {fates : Nat → Fate} {numbered : List (StatementUnit × Nat)} :
    Ends (fun _ => True) (runUnits b context work fates numbered)
      (fun arrivals _ => ∃ sends, List.Forall₂ (fun (u, i) outcome => (fates i).Sends (work context u) outcome) numbered sends ∧
        arrivals = reported (numbered.map Prod.snd) sends) (fun _ _ => False) := by
  induction numbered with
  | nil => exact Ends.pure fun _ _ => ⟨[], .nil, rfl⟩
  | cons unit rest ih =>
    obtain ⟨u, i⟩ := unit
    refine runUnit_ends.bind fun outcome => Ends.assuming fun sends => ?_
    refine ih.bind fun later => Ends.assuming fun ⟨others, sendSo, reports⟩ => Ends.pure fun _ _ => ?_
    refine ⟨outcome :: others, .cons sends sendSo, ?_⟩
    rw [reports]
    cases outcome <;> rfl

theorem submitJobs_ends {count : Nat} :
    Ends (fun _ => True) (submitJobs count) (fun _ _ => True) (fun f _ => f = .executorShutdown) := by
  intro s _
  rw [submitJobs, onPool]
  cases isAccepting : s.engine.pool.isAccepting with
  | true =>
    rw [Pool.foldlM_submit isAccepting]
    trivial
  | false =>
    cases (List.range count).drop 1 with
    | nil => trivial
    | cons job rest =>
      rw [Pool.foldlM_submit_of_stopped isAccepting]

theorem submitJobs_accepted {count : Nat} :
    Ends (fun s => s.engine.pool.isAccepting = true) (submitJobs count) (fun _ _ => True) (fun _ _ => False) := by
  intro s isAccepting
  rw [submitJobs, onPool, Pool.foldlM_submit isAccepting]
  trivial

/-- What may come of the units of a call. -/
def Sent (context : Context) (work : Work α) (fates : Nat → Fate) (units : List StatementUnit)
    (sends : List (Option (Outcome α))) : Prop :=
  List.Forall₂ (fun (u, i) outcome => (fates i).Sends (work context u) outcome) units.zipIdx sends

/-- After its jobs were accepted a call answers what its units sent. -/
theorem collect_ends {fates : Nat → Fate} {units : List StatementUnit} :
    Ends (fun _ => True)
      (do
        let arrivals ← runUnits b context work fates units.zipIdx
        finishJobs
        Action.demand (answer context.failFast (arrange units.length arrivals)))
      (fun results _ => ∃ sends, Sent context work fates units sends ∧
        answer context.failFast (sends.map (·.getD (.error .cancelled))) = .ok results)
      (fun f _ => ∃ sends, Sent context work fates units sends ∧
        answer context.failFast (sends.map (·.getD (.error .cancelled))) = .error f) := by
  refine (runUnits_ends.failing fun _ _ => False.elim).bind fun arrivals => Ends.assuming fun ⟨sends, sent, reports⟩ => ?_
  have arranged : arrange units.length arrivals = sends.map (·.getD (.error .cancelled)) := by
    have length : units.length = sends.length := by simpa using sent.length_eq
    rw [reports, List.zipIdx_map_snd, ← List.range_eq_range', length, arrange_reported]
  rw [arranged]
  refine (show Ends (fun _ => True) finishJobs (fun _ _ => True) _ from fun _ _ => trivial).bind fun _ => ?_
  intro s _
  cases answered : answer context.failFast (sends.map (·.getD (.error .cancelled))) with
  | ok results => exact ⟨sends, sent, answered⟩
  | error f => exact ⟨sends, sent, answered⟩

/-- A call on a pool that accepts jobs is not refused. -/
theorem call_ends_of_accepting {fates : Nat → Fate} {units : List StatementUnit} :
    Ends (fun s => s.engine.pool.isAccepting = true) (call b context units work fates)
      (fun results _ => ∃ sends, Sent context work fates units sends ∧
        answer context.failFast (sends.map (·.getD (.error .cancelled))) = .ok results)
      (fun f _ => ∃ sends, Sent context work fates units sends ∧
        answer context.failFast (sends.map (·.getD (.error .cancelled))) = .error f) :=
  (submitJobs_accepted.failing fun _ _ => False.elim).bind fun _ => collect_ends

/-- A call answers what its units sent, or it is refused. -/
theorem call_ends {fates : Nat → Fate} {units : List StatementUnit} :
    Ends (fun _ => True) (call b context units work fates)
      (fun results _ => ∃ sends, Sent context work fates units sends ∧
        answer context.failFast (sends.map (·.getD (.error .cancelled))) = .ok results)
      (fun f _ => f = .executorShutdown ∨ ∃ sends, Sent context work fates units sends ∧
        answer context.failFast (sends.map (·.getD (.error .cancelled))) = .error f) :=
  (submitJobs_ends.failing fun _ _ => .inl).bind fun _ => collect_ends.failing fun _ _ => .inr

/-- When every unit runs, a call answers what the work of its units gives. -/
theorem execute_ends {units : List StatementUnit} :
    Ends (fun _ => True) (execute b context units work)
      (fun results _ => ∃ outcomes, List.Forall₂ (fun u outcome => Gives (work context u) outcome) units outcomes ∧
        answer context.failFast outcomes = .ok results)
      (fun f _ => f = .executorShutdown ∨ ∃ outcomes, List.Forall₂ (fun u outcome => Gives (work context u) outcome) units outcomes ∧
        answer context.failFast outcomes = .error f) := by
  have given {sends : List (Option (Outcome α))}
      (sent : Sent context work (fun _ => .runs) units sends) :
      List.Forall₂ (fun u outcome => Gives (work context u) outcome) units (sends.map (·.getD (.error .cancelled))) := by
    have onUnits : List.Forall₂ (fun u outcome => Fate.runs.Sends (work context u) outcome) (units.zipIdx.map Prod.fst) sends :=
      List.forall₂_map_left_iff.mpr sent
    rw [List.zipIdx_map_fst] at onUnits
    rw [List.forall₂_map_right_iff]
    refine onUnits.imp ?_
    rintro u _ ⟨outcome, rfl, gives⟩
    exact gives
  refine call_ends.weaken (fun results _ => ?_) fun f _ => ?_
  · rintro ⟨sends, sent, answered⟩
    exact ⟨_, given sent, answered⟩
  · rintro (refused | ⟨sends, sent, answered⟩)
    · exact .inl refused
    · exact .inr ⟨_, given sent, answered⟩

end Engine

end SqlSharding.Execution
