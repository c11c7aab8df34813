import SqlSharding.Proofs.Counters
import SqlSharding.Proofs.EngineTraffic

/-!
# Events of a unit

A unit takes numbers for the events before it, tells them, works, and tells an event after it for each of them. All this is done
in small steps, so that the steps of other units can come in between (`Stage`). Whatever comes in between, a unit that is through
has told what it has to tell (`Reported`).
-/

namespace SqlSharding.Execution

open Physical (Backend)

variable {α : Type} {u : StatementUnit}

/-! ## What a unit tells -/

/-- The parameter sets that events are told for: an empty one if there is none. -/
def StatementUnit.told (u : StatementUnit) : List (List Value) := if u.parameterSets.isEmpty then [[]] else u.parameterSets

theorem StatementUnit.length_told (u : StatementUnit) : u.told.length = max 1 u.parameterSets.length := by
  unfold told
  cases sets : u.parameterSets with
  | nil => rfl
  | cons set rest =>
    simp

/-- What is seen of a unit from outside. -/
inductive Deed (α : Type) where
  | tell (e : Event)
  /-- The work is done, with an outcome. -/
  | work (outcome : Outcome α)

/-- The event that is told. -/
def Deed.event? : Deed α → Option Event
  | tell e => some e
  | work _ => none

theorem filterMap_tell (events : List Event) : (events.map (.tell : Event → Deed α)).filterMap Deed.event? = events := by
  rw [List.filterMap_map]
  exact List.filterMap_some

/-- The status of the events after a unit. -/
def statusAfter : Outcome α → EventStatus
  | .ok _ => .success
  | .error _ => .failure

/-- An event after a unit belongs to one before it. -/
structure IsAfter (outcome : Outcome α) (before after : Event) : Prop where
  id : after.id = before.id
  dataSource : after.dataSource = before.dataSource
  status : after.status = statusAfter outcome

theorem isAfter_eventAfter (outcome : Outcome α) (now : Nat) (e : Event) : IsAfter outcome e (Engine.eventAfter outcome now e) := by
  cases outcome with
  | ok _ | error _ => exact ⟨rfl, rfl, rfl⟩

/-- Events before a unit, for all parameter sets but those that are left. -/
structure Numbered (u : StatementUnit) (events : List Event) (left : List (List Value)) : Prop where
  parameters : events.map (·.parameters) ++ left = u.told
  before : ∀ e ∈ events, e.status = .before ∧ e.dataSource = u.dataSource ∧ e.sql = u.sql

theorem Numbered.length_eq {events : List Event} (numbered : Numbered u events []) :
    events.length = max 1 u.parameterSets.length := by
  have all := congrArg List.length numbered.parameters
  rwa [List.append_nil, List.length_map, u.length_told] at all

/-- A unit told one event for each parameter set, then did its work, and then told the outcome with the same numbers in the same
order. -/
inductive Reported (u : StatementUnit) : List (Deed α) → Prop
  | intro {befores afters : List Event} (outcome : Outcome α) (count : befores.length = max 1 u.parameterSets.length)
      (numbered : Numbered u befores []) (ends : List.Forall₂ (IsAfter outcome) befores afters) :
      Reported u (befores.map .tell ++ .work outcome :: afters.map .tell)

/-! ## Stages -/

/-- How far a unit has come. -/
inductive Stage (α : Type) where
  | waiting
  /-- Events have got their numbers; parameter sets are left. -/
  | numbering (events : List Event) (left : List (List Value))
  /-- Some of the events before the unit were told. When all are told the unit works. -/
  | announcing (told untold : List Event)
  /-- The unit has worked. Some of the events after it were told, and events before it are left that have none yet. -/
  | reporting (befores : List Event) (outcome : Outcome α) (told : List Event) (untold : List Event)

namespace Stage

/-- The events that have numbers are told when no parameter set is left. -/
def numbered (events : List Event) : List (List Value) → Stage α
  | [] => .announcing [] events
  | left => .numbering events left

/-- A unit begins. -/
def begun (u : StatementUnit) : Stage α := .numbered [] u.told

/-- The work is done and everything was told. -/
def IsThrough : Stage α → Prop
  | .reporting _ _ _ [] => True
  | _ => False

/-- One thing that a unit does. -/
inductive Does : Stage α → Deed α → Stage α → Prop
  | announce {told untold : List Event} {e : Event} : Does (.announcing told (e :: untold)) (.tell e) (.announcing (told ++ [e]) untold)
  | work {told : List Event} (outcome : Outcome α) : Does (.announcing told []) (.work outcome) (.reporting told outcome [] told)
  | report {befores told untold : List Event} {outcome : Outcome α} {e : Event} (now : Nat) :
      Does (.reporting befores outcome told (e :: untold)) (.tell (Engine.eventAfter outcome now e))
        (.reporting befores outcome (told ++ [Engine.eventAfter outcome now e]) untold)

theorem Does.ne_waiting {stage stage' : Stage α} {deed : Deed α} (does : Does stage deed stage') : stage ≠ .waiting := by
  rintro rfl
  cases does

theorem Does.not_isThrough {stage stage' : Stage α} {deed : Deed α} (does : Does stage deed stage') : ¬ stage.IsThrough := by
  intro through
  cases does with
  | announce | work _ | report _ => cases through

/-- What a unit has done when it has come so far. -/
inductive Along (u : StatementUnit) : Stage α → List (Deed α) → Prop
  | numbering {events : List Event} {left : List (List Value)} (numbered : Numbered u events left) : Along u (.numbering events left) []
  | announcing {told untold : List Event} (numbered : Numbered u (told ++ untold) []) :
      Along u (.announcing told untold) (told.map .tell)
  | reporting {befores done told untold : List Event} {outcome : Outcome α} (numbered : Numbered u befores [])
      (split : befores = done ++ untold) (ends : List.Forall₂ (IsAfter outcome) done told) :
      Along u (.reporting befores outcome told untold) (befores.map .tell ++ .work outcome :: told.map .tell)

theorem Along.of_numbered {events : List Event} {left : List (List Value)} (numbered : Numbered u events left) :
    Along (α := α) u (Stage.numbered events left) [] := by
  cases left with
  | nil =>
    show Along u (.announcing [] events) (([] : List Event).map .tell)
    exact .announcing numbered
  | cons set rest => exact .numbering numbered

theorem Along.begun (u : StatementUnit) : Along (α := α) u (begun u) [] := .of_numbered ⟨rfl, nofun⟩

/-- An event gets its number. -/
theorem Along.number {events : List Event} {parameters : List Value} {left : List (List Value)} {deeds : List (Deed α)}
    (along : Along u (.numbering events (parameters :: left)) deeds) (id now : Nat) :
    Along u (Stage.numbered (events ++ [.before id u.dataSource u.sql parameters now]) left : Stage α) deeds := by
  cases along with
  | numbering numbered =>
    refine .of_numbered ⟨?_, fun e member => ?_⟩
    · rw [← numbered.parameters, List.map_append, List.append_assoc]
      rfl
    · rcases List.mem_append.mp member with early | last
      · exact numbered.before e early
      · rw [List.mem_singleton.mp last]
        exact ⟨rfl, rfl, rfl⟩

/-- What a unit does next fits to what it has done. -/
theorem Along.does {stage stage' : Stage α} {deed : Deed α} {deeds : List (Deed α)} (along : Along u stage deeds)
    (does : Does stage deed stage') : Along u stage' (deeds ++ [deed]) := by
  cases does with
  | @announce told untold e =>
    cases along with
    | announcing numbered =>
      have whole : told.map Deed.tell ++ [Deed.tell (α := α) e] = (told ++ [e]).map .tell := by rw [List.map_append]; rfl
      rw [whole]
      refine .announcing ?_
      rwa [List.append_assoc]
  | @work told outcome =>
    cases along with
    | announcing numbered =>
      rw [List.append_nil] at numbered
      have nothing : List.Forall₂ (IsAfter outcome) [] [] := .nil
      exact .reporting numbered rfl nothing
  | @report befores told untold outcome e now =>
    cases along with
    | @reporting _ done _ _ _ numbered split ends =>
      have whole : befores.map Deed.tell ++ .work outcome :: told.map Deed.tell ++ [.tell (Engine.eventAfter outcome now e)] =
          befores.map .tell ++ .work outcome :: (told ++ [Engine.eventAfter outcome now e]).map .tell := by
        rw [List.map_append, List.append_assoc]
        rfl
      rw [whole]
      have next : List.Forall₂ (IsAfter outcome) (done ++ [e]) (told ++ [Engine.eventAfter outcome now e]) :=
        List.rel_append ends (.cons (isAfter_eventAfter outcome now e) .nil)
      refine .reporting numbered ?_ next
      rw [split, List.append_assoc]
      rfl

/-- A unit that is through has told everything. -/
theorem Along.reported {stage : Stage α} {deeds : List (Deed α)} (along : Along u stage deeds) (through : stage.IsThrough) :
    Reported u deeds := by
  cases along with
  | numbering _ | announcing _ => cases through
  | @reporting befores done told untold outcome numbered split ends =>
    cases untold with
    | nil =>
      rw [List.append_nil] at split
      exact .intro outcome numbered.length_eq numbered (split ▸ ends)
    | cons e rest => cases through

end Stage

end SqlSharding.Execution
