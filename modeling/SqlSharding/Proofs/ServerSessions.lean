import SqlSharding.Proofs.EngineTraffic
import SqlSharding.Proofs.SessionHistories

/-!
# Sessions of a server

Whatever clients do with sessions and statements, each session of a server comes by a history to the state that it is in: its
own client and the statements make requests of it, and for everything else it was elsewhere (`Server.Reached.run`). So all
that holds of every history holds of every session of a server.
-/

namespace SqlSharding

open Physical (Backend Handle Control)
open Sources (Registry)

namespace Session

variable {b : Backend} {r : Registry} {s t : State}

/-- A state continues another one: there are further calls, the data sources have the same members, and a history leads to it. -/
structure Continues (b : Backend) (r : Registry) (s t : State) : Prop where
  same : s.registry.SameMembers t.registry
  adds : s.traffic <+: t.traffic
  run : ∃ h, Run b r h t

theorem Continues.serve (request : Request) : Preserves (Continues b r s) (request.serve b) := by
  rintro t ⟨same, adds, h, run⟩
  have served := Event.isServed_of b t request
  have continues : Continues b r s ((request.serve b).perform t).2 :=
    ⟨same.trans served.sameMembers, adds.trans served.deals.adds, _, run.serve request⟩
  rw [Operation.perform] at continues
  cases run : request.serve b t with
  | ok _ _ | error _ _ =>
    rw [run] at continues
    exact continues

/-- Others make calls. -/
theorem Continues.elsewhere {traffic : Physical.Traffic} (continues : Continues b r s t) (adds : t.traffic <+: traffic) :
    Continues b r s { t with traffic } := by
  obtain ⟨calls, rfl⟩ := adds
  obtain ⟨h, run⟩ := continues.run
  exact ⟨continues.same, continues.adds.trans (List.prefix_append _ _), h, run.elsewhere (.refl _) calls⟩

theorem Continues.control (h : Handle) (c : Control) : Preserves (Continues b r s) (Operation.exchange (b.controlOn h c)) := by
  intro t continues
  have atEnd := Execution.make_adds t.traffic (.control h c) (fun t => b.control t h c) t.traffic (List.prefix_refl _)
  rw [Operation.exchange, Backend.controlOn]
  cases run : Physical.Exchange.make (.control h c) (fun t => b.control t h c) t.traffic with
  | ok _ _ | error _ _ =>
    rw [run] at atEnd
    exact continues.elsewhere atEnd

/-- What a client does with its session is to make requests of it, or a call on a connection. -/
theorem Offered.continues {α : Type} {x : Operation α} (offered : Offered b x) : Preserves (Continues b r s) x := by
  cases offered with
  | getConnection logical kind => exact .of_return (Continues.serve (.getConnection logical kind))
  | getAllConnections logical => exact Continues.serve (.getAllConnections logical)
  | control h c => exact Continues.control h c
  | release h => exact .of_return (Continues.serve (.release h))
  | set setting => exact .of_return (Continues.serve (.set setting))
  | commit => exact .of_return (Continues.serve .commit)
  | rollback => exact .of_return (Continues.serve .rollback)
  | close => exact .of_return (Continues.serve .close)

end Session

namespace Client

open Session (Continues Run)

variable {b : Backend} {r : Registry} {S α : Type}

/-- The session of a client with what it changes outside. -/
def State.own (s : State S) : Session.State := ⟨s.session, s.database.registry, s.traffic⟩

@[simp]
theorem State.own_session (s : State S) : s.own.session = s.session := rfl

@[simp]
theorem State.own_registry (s : State S) : s.own.registry = s.database.registry := rfl

theorem Action.onSession_own {x : Session.Operation α} {P : Session.State → Prop} {Q : α → Session.State → Prop}
    {E : Failure → Session.State → Prop} (ends : Ends P x Q E) :
    Ends (fun s => P s.own) (onSession x : Action S α) (fun a t => Q a t.own) fun f t => E f t.own := by
  intro s holds
  have atEnd := ends s.own holds
  rw [onSession]
  cases run : x ⟨s.session, s.database.registry, s.traffic⟩ with
  | ok a t | error f t =>
    rw [State.own, run] at atEnd
    exact atEnd

/-- All that a client does continues its session. -/
theorem Offered.continues {s : Session.State} {x : Action S α} (offered : Offered b x) :
    Preserves (fun t : State S => Continues b r s t.own) x :=
  offered.keeps {
    session := fun offered => Action.onSession_own offered.continues
    engine := by
      intro α x adds t continues
      have atEnd := adds t.traffic ⟨t.database.engine, t.traffic⟩ (List.prefix_refl _)
      rw [Action.onEngine]
      cases run : x ⟨t.database.engine, t.traffic⟩ with
      | ok _ _ | error _ _ =>
        rw [run] at atEnd
        exact continues.elsewhere atEnd
    router := by
      intro α x t continues
      rw [Action.onRouter]
      cases x t.database.router with
      | mk outcome router => cases outcome <;> exact continues
    statement := fun _ _ continues => continues }

/-- The session of a number with what it changes outside. -/
def Server.own (s : Server) (id : Nat) : Session.State := ⟨s.session id, s.database.registry, s.traffic⟩

theorem Server.session_openSession (s : Server) (id : Nat) : s.openSession.2.session id = s.session id := by
  rw [session, session, openSession, List.getElem?_append]
  split
  · rfl
  · next beyond =>
    rw [List.getElem?_eq_none (Nat.le_of_not_lt beyond)]
    cases isFirst : id - s.sessions.length with
    | zero => rfl
    | succ n => rfl

/-- Putting a session at a number leaves those at other numbers as they are, and all of them if none was opened there. -/
theorem Server.session_set (s : Server) (actor id : Nat) (x : Session) (d : Database) (t : Physical.Traffic) :
    actor = id ∧ session ⟨d, t, s.sessions.set actor x⟩ id = x ∨ session ⟨d, t, s.sessions.set actor x⟩ id = s.session id := by
  rw [session, session, List.getElem?_set]
  split
  · next same =>
    subst same
    split
    · exact .inl ⟨rfl, rfl⟩
    · next beyond => exact .inr (by rw [List.getElem?_eq_none (Nat.le_of_not_lt beyond)])
  · exact .inr rfl

/-- Each session of a server came by a history to its state. -/
theorem Server.Reached.run {d : Database} {server : Server} (reached : Reached b d server) (id : Nat) :
    ∃ h, Run b d.registry h (server.own id) := by
  induction reached generalizing id with
  | start => exact ⟨[], .start []⟩
  | openSession _ ih =>
    rw [own, session_openSession]
    exact ih id
  | resetMonitors _ ih | shutdown _ ih => exact ih id
  | @act server S α x actor statement offered _ ih =>
    obtain ⟨h, before⟩ := ih actor
    have continues := offered.continues ⟨server.session actor, server.database, server.traffic, statement⟩
      ⟨.refl _, List.prefix_refl _, h, before⟩
    rw [Server.act]
    cases run : x ⟨server.session actor, server.database, server.traffic, statement⟩ with
    | ok _ t | error _ t =>
      rw [run] at continues
      have continues : Continues b d.registry (server.own actor) t.own := continues
      rw [own]
      dsimp only
      rcases server.session_set actor id t.session t.database t.traffic with ⟨rfl, same⟩ | same
      · rw [same]
        exact continues.run
      · obtain ⟨h, before⟩ := ih id
        obtain ⟨calls, longer⟩ := continues.adds
        have longer : server.traffic ++ calls = t.traffic := longer
        rw [same, ← longer]
        exact ⟨h, before.elsewhere continues.same calls⟩

end Client

end SqlSharding
