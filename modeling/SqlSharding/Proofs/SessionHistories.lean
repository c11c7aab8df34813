import SqlSharding.Proofs.SessionSteps

/-!
# Histories of a session

A session serves one request after the other (`Run`). Between two requests anything can be called on data sources by
others, and other sessions can share out reads of the same groups. What holds of a new session and is kept by each request
and by the others holds after any history (`Run.invariant`); what a request brings about and each later one keeps still
holds in the end (`Run.since`).
-/

namespace SqlSharding.Session

open Physical (Backend Handle Traffic Deals)
open Sources (Registry)

/-! ## Events -/

/-- A request that was served: its outcome and the states before and after it. -/
structure Event where
  request : Request
  before : State
  outcome : Outcome (List Handle)
  after : State

namespace Event

variable {e : Event}

/-- Serves a request. -/
def of (b : Backend) (s : State) (request : Request) : Event :=
  let (outcome, after) := (request.serve b).perform s
  ⟨request, s, outcome, after⟩

/-- The calls that were made to serve the request. -/
def calls (e : Event) : Traffic := e.after.traffic.drop e.before.traffic.length

/-- The connections that these calls opened, the first one first. -/
def opened (e : Event) : List Handle := e.before.traffic.openings e.calls

/-- The connections that these calls closed, the first one first. -/
def closed (e : Event) : List Handle := e.calls.closings

/-- A request led to one of the outcomes that it can lead to. -/
def IsServed (e : Event) : Prop := Served e.before e.request e.outcome e.after

theorem isServed_of (b : Backend) (s : State) (request : Request) : (of b s request).IsServed := by
  have atEnd := serve_served (b := b) s request s rfl
  rw [IsServed, of, Operation.perform]
  cases run : request.serve b s with
  | ok handles t | error f t =>
    rw [run] at atEnd
    exact atEnd

theorem IsServed.gets {logical : String} {kind : Sql.StatementKind} (served : e.IsServed)
    (asks : e.request = .getConnection logical kind) :
    ∃ outcome, Gets e.before logical kind outcome e.after ∧ e.outcome = outcome.map ([·]) := by
  obtain ⟨request, s, outcome, t⟩ := e
  subst asks
  cases served with
  | got gets => exact ⟨_, gets, rfl⟩

theorem IsServed.gives {logical : String} {kind : Sql.StatementKind} {c : Handle} (served : e.IsServed)
    (asks : e.request = .getConnection logical kind) (gave : e.outcome = .ok [c]) : Gets e.before logical kind (.ok c) e.after := by
  obtain ⟨outcome, gets, same⟩ := served.gets asks
  cases outcome with
  | ok c' =>
    obtain ⟨⟩ := gave.symm.trans same
    exact gets
  | error f => cases gave.symm.trans same

theorem IsServed.fails {logical : String} {kind : Sql.StatementKind} {f : Failure} (served : e.IsServed)
    (asks : e.request = .getConnection logical kind) (failed : e.outcome = .error f) :
    Gets e.before logical kind (.error f) e.after := by
  obtain ⟨outcome, gets, same⟩ := served.gets asks
  cases outcome with
  | ok c => cases failed.symm.trans same
  | error f' =>
    obtain ⟨⟩ := failed.symm.trans same
    exact gets

theorem of_deals {opened closed : List Handle} (deals : Deals e.before.traffic e.after.traffic opened closed) :
    e.opened = opened ∧ e.closed = closed := by
  obtain ⟨calls, longer, rfl, rfl⟩ := deals
  have same : e.calls = calls := by rw [Event.calls, longer, List.drop_left]
  rw [Event.opened, Event.closed, same]
  exact ⟨rfl, rfl⟩

theorem calls_eq_nil (same : e.after.traffic = e.before.traffic) : e.calls = [] := by
  rw [calls, same, List.drop_length]

end Event

theorem Served.sameMembers {s t : State} {request : Request} {outcome : Outcome (List Handle)}
    (served : Served s request outcome t) : s.registry.SameMembers t.registry := by
  cases served with
  | got gets | single _ gets => exact gets.sameMembers
  | _ => exact .refl _

/-- Serving a request opens some connections and closes some. -/
theorem Served.deals {s t : State} {request : Request} {outcome : Outcome (List Handle)} (served : Served s request outcome t) :
    ∃ opened closed, Deals s.traffic t.traffic opened closed := by
  cases served with
  | got gets | single _ gets =>
    cases gets with
    | failed _ _ _ _ deals | opened _ _ _ _ _ deals => exact ⟨_, _, deals⟩
    | _ => exact ⟨_, _, .refl _⟩
  | openedAll _ _ _ deals | failedAll _ _ deals | released _ deals | set _ _ deals | committed _ deals | rolledBack _ deals
  | closed _ _ deals => exact ⟨_, _, deals⟩
  | _ => exact ⟨_, _, .refl _⟩

theorem Event.IsServed.deals {e : Event} (served : e.IsServed) : Deals e.before.traffic e.after.traffic e.opened e.closed := by
  obtain ⟨opened, closed, deals⟩ := Served.deals served
  obtain ⟨rfl, rfl⟩ := of_deals deals
  exact deals

/-! ## Runs -/

/-- A new session comes by a history to a state. -/
inductive Run (b : Backend) (r : Registry) : List Event → State → Prop
  | start (t : Traffic) : Run b r [] ⟨.new, r, t⟩
  | serve {h : List Event} {s : State} (run : Run b r h s) (request : Request) :
      Run b r (h ++ [.of b s request]) (Event.of b s request).after
  /-- Others make calls and share out reads. -/
  | elsewhere {h : List Event} {s : State} {r' : Registry} (run : Run b r h s) (same : s.registry.SameMembers r') (calls : Traffic) :
      Run b r h ⟨s.session, r', s.traffic ++ calls⟩

/-- Serves requests one after the other, with nothing in between. -/
def serveAll (b : Backend) (s : State) : List Request → List Event × State
  | [] => ([], s)
  | request :: rest =>
    let (h, t) := serveAll b (Event.of b s request).after rest
    (.of b s request :: h, t)

namespace Run

variable {b : Backend} {r : Registry} {h h₁ h₂ : List Event} {e : Event} {s : State}

theorem sameMembers (run : Run b r h s) : r.SameMembers s.registry := by
  induction run with
  | start => exact .refl r
  | @serve _ s _ request ih => exact ih.trans (Event.isServed_of b s request).sameMembers
  | elsewhere _ same _ ih => exact ih.trans same

/-- What holds of a new session and is kept holds after every history. -/
theorem invariant {P : List Event → State → Prop} (start : ∀ t, P [] ⟨.new, r, t⟩)
    (serve : ∀ h e, Run b r h e.before → e.IsServed → P h e.before → P (h ++ [e]) e.after)
    (elsewhere : ∀ h s r' calls, P h s → P h ⟨s.session, r', s.traffic ++ calls⟩) (run : Run b r h s) : P h s := by
  induction run with
  | start t => exact start t
  | @serve h s run request ih => exact serve h _ run (Event.isServed_of b s request) ih
  | elsewhere _ _ calls ih => exact elsewhere _ _ _ calls ih

/-- What came before an event of a run is a run of its own. -/
theorem before (run : Run b r (h₁ ++ e :: h₂) s) : Run b r h₁ e.before ∧ e = .of b e.before e.request := by
  generalize same : h₁ ++ e :: h₂ = h at run
  induction run generalizing h₂ with
  | start => simp at same
  | elsewhere _ _ _ ih => exact ih same
  | @serve h s run request ih =>
    rcases List.eq_nil_or_concat h₂ with rfl | ⟨rest, last, rfl⟩
    · obtain ⟨rfl, ⟨⟩⟩ := List.append_inj' same rfl
      exact ⟨run, rfl⟩
    · rw [List.concat_eq_append, ← List.cons_append, ← List.append_assoc] at same
      exact ih (List.append_inj' same rfl).1

theorem served (run : Run b r (h₁ ++ e :: h₂) s) : e.IsServed := by
  rw [run.before.2]
  exact Event.isServed_of b e.before e.request

/-- So is what came up to an event. -/
theorem through (run : Run b r (h₁ ++ e :: h₂) s) : Run b r (h₁ ++ [e]) e.after := by
  obtain ⟨before, same⟩ := run.before
  rw [same]
  exact before.serve e.request

/-- What a session is like after an event, and after each later one if it was before, it is like in the end. -/
theorem since {Q : Session → Prop} (run : Run b r (h₁ ++ e :: h₂) s) (after : Q e.after.session)
    (keeps : ∀ e' ∈ h₂, e'.IsServed → Q e'.before.session → Q e'.after.session) : Q s.session := by
  generalize same : h₁ ++ e :: h₂ = h at run
  induction run generalizing h₂ with
  | start => simp at same
  | elsewhere _ _ _ ih => exact ih keeps same
  | @serve h s run request ih =>
    rcases List.eq_nil_or_concat h₂ with rfl | ⟨rest, last, rfl⟩
    · obtain ⟨-, ⟨⟩⟩ := List.append_inj' same rfl
      exact after
    · rw [List.concat_eq_append] at keeps
      rw [List.concat_eq_append, ← List.cons_append, ← List.append_assoc] at same
      obtain ⟨rfl, ⟨⟩⟩ := List.append_inj' same rfl
      have before := ih (fun e' member => keeps e' (List.mem_append_left _ member)) rfl
      exact keeps _ (List.mem_append_right _ List.mem_cons_self) (Event.isServed_of b s request) before

theorem serves (run : Run b r h s) (requests : List Request) :
    Run b r (h ++ (serveAll b s requests).1) (serveAll b s requests).2 := by
  induction requests generalizing h s with
  | nil => exact (List.append_nil h).symm ▸ run
  | cons request rest ih =>
    have step := ih (run.serve request)
    rw [List.append_assoc] at step
    exact step

end Run

/-- Data sources that do what they are asked, but one refuses connections. -/
def refusingBackend (refuses : String) : Backend :=
  { Client.willingBackend with
    connect _ dataSource := if dataSource = refuses then .error (.physical dataSource "connect refused") else .ok () }

end SqlSharding.Session
