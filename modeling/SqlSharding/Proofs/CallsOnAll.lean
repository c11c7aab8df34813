import SqlSharding.Proofs.ConnectionPlaces
import SqlSharding.Proofs.KeptConnections
import SqlSharding.Proofs.SessionCalls

/-!
# Calls on all connections of a session

To commit, to roll back, to make a setting and to close, an open session calls each of its connections once, in the order of the
cache, and does not stop at a failure. The request succeeds if no call failed; otherwise all failures are reported. Closing
ends with a closed session without connections, whatever failed, and such a session never calls a data source again
(`callsOnAll_of_run`).
-/

namespace SqlSharding.Session

open Physical (Backend Handle Control)
open Sources (Registry)

/-! ## The order of the cache -/

namespace CacheKey

variable {x y z : CacheKey}

theorem roleRank_injective : Function.Injective roleRank := by
  rintro (_ | _ | _) (_ | _ | _) same
  all_goals first | rfl | cases same

theorem before_iff : x.before y = true ↔ x.logical < y.logical ∨ x.logical = y.logical ∧ roleRank x.role < roleRank y.role := by
  simp [before]

theorem before_trans (first : x.before y = true) (second : y.before z = true) : x.before z = true := by
  rw [before_iff] at first second ⊢
  rcases first with name | ⟨name, role⟩
  · rcases second with name' | ⟨name', -⟩
    · exact .inl (name.trans name')
    · exact .inl (name' ▸ name)
  · rcases second with name' | ⟨name', role'⟩
    · exact .inl (name ▸ name')
    · exact .inr ⟨name.trans name', role.trans role'⟩

/-- Of two keys one is before the other. -/
theorem before_of_not (different : x ≠ y) (after : ¬ x.before y = true) : y.before x = true := by
  rw [before_iff] at after ⊢
  rw [not_or, not_and, not_lt] at after
  rcases after.1.lt_or_eq with name | name
  · exact .inl name
  · refine .inr ⟨name, lt_of_le_of_ne (not_lt.mp (after.2 name.symm)) fun same => different ?_⟩
    have role : x.role = y.role := roleRank_injective same.symm
    rcases x with ⟨_, _⟩
    rcases y with ⟨_, _⟩
    exact congrArg₂ CacheKey.mk name.symm role

end CacheKey

namespace Cache

variable {c : Cache} {key : CacheKey} {h : Handle}

/-- Each key is before those after it. -/
def Ordered (c : Cache) : Prop := c.Pairwise fun x y => x.1.before y.1 = true

theorem ordered_insert (ordered : c.Ordered) (absent : c.get? key = none) : (c.insert key h).Ordered := by
  induction c with
  | nil => exact List.pairwise_singleton _ _
  | cons entry rest ih =>
    obtain ⟨least, inner⟩ := List.pairwise_cons.mp ordered
    rw [get?_cons] at absent
    split at absent
    · cases absent
    · next different =>
      rw [insert, if_neg fun same => different same.symm]
      split
      · next first =>
        refine List.pairwise_cons.mpr ⟨fun x member => ?_, ordered⟩
        rcases List.mem_cons.mp member with rfl | later
        · exact first
        · exact CacheKey.before_trans first (least x later)
      · next later =>
        refine List.pairwise_cons.mpr ⟨fun x member => ?_, ih inner absent⟩
        rcases List.mem_cons.mp ((insert_perm h absent).mem_iff.mp member) with rfl | old
        · exact CacheKey.before_of_not (fun same => different same.symm) later
        · exact least x old

end Cache

variable {s t : State} {request : Request} {outcome : Outcome (List Handle)}

theorem Served.ordered (served : Served s request outcome t) (before : s.session.cache.Ordered) : t.session.cache.Ordered := by
  cases served with
  | got gets | single _ gets =>
    cases gets with
    | cached _ _ _ => exact (afterUse_cache s.session _ _).symm ▸ before
    | opened _ _ absent _ _ _ => exact Cache.ordered_insert before absent
    | _ => exact before
  | released _ _ => exact before.sublist List.eraseP_sublist
  | closed _ _ _ => exact List.Pairwise.nil
  | _ => exact before

/-! ## Closed sessions -/

/-- A session is closed and has no connections. -/
def IsOver (x : Session) : Prop := x.isClosed = true ∧ x.cache = []

theorem Served.isOver (served : Served s request outcome t) (before : s.session.IsOver) : t.session.IsOver := by
  have closed : t.session.isClosed = true := by
    cases served with
    | got gets | single _ gets =>
      cases gets with
      | cached _ _ _ | opened _ _ _ _ _ _ => exact (afterUse_isClosed s.session _ _).trans before.1
      | _ => exact before.1
    | closed _ _ _ => rfl
    | _ => exact before.1
  exact ⟨closed, served.closedEmpty (fun _ => before.2) closed⟩

theorem Served.isOver_of_close (served : Served s .close outcome t) (isOpen : s.session.isClosed = false) : t.session.IsOver := by
  cases served with
  | closedBefore isClosed => cases isOpen.symm.trans isClosed
  | closed _ _ _ => exact ⟨rfl, rfl⟩

/-! ## A whole history -/

variable {b : Backend} {r : Registry} {h h₁ h₂ : List Event} {e : Event} {c : Control}

theorem Run.ordered (run : Run b r h s) : s.session.cache.Ordered :=
  run.invariant (P := fun _ s => s.session.cache.Ordered) (fun _ => List.Pairwise.nil)
    (fun _ _ _ served before => served.ordered before) fun _ _ _ _ => id

theorem Run.nodup_handles (run : Run b r h s) : s.session.cache.handles.Nodup :=
  (List.nodup_append.mp (run.placed.perm.nodup_iff.mp run.placed.nodup)).1

/-- How an open session makes a call on all its connections, with what comes after it. -/
structure CallsOnAll (c : Control) (e : Event) (later : List Event) : Prop where
  /-- The cache is in the order of its keys, and no connection is in it twice. -/
  ordered : e.before.session.cache.Ordered
  distinct : e.before.session.cache.handles.Nodup
  each : CallsEach c e.before.session.cache.handles e.calls e.outcome
  closes : c = .close → e.after.session.IsOver
  /-- After the session was closed nothing is called for it. -/
  finished : c = .close → ∀ e' ∈ later, e'.calls = [] ∧ (∀ given, e'.outcome = .ok given → given = []) ∧ e'.after.session.IsOver

theorem Run.over (run : Run b r (h₁ ++ e :: h₂) s) (isOver : e.after.session.IsOver) {e' : Event} (later : e' ∈ h₂) :
    e'.calls = [] ∧ (∀ given, e'.outcome = .ok given → given = []) ∧ e'.after.session.IsOver := by
  obtain ⟨between, rest, rfl⟩ := List.append_of_mem later
  have whole : Run b r ((h₁ ++ e :: between) ++ e' :: rest) s := by rwa [List.append_assoc]
  obtain ⟨runBefore, same⟩ := whole.before
  have before : e'.before.session.IsOver := runBefore.since (Q := IsOver) isOver fun _ _ served => served.isOver
  have ends := serve_closed (b := b) e'.before e'.request before.1 before.2
  rcases Event.of_ends ends with ⟨given, gave, none, unchanged⟩ | ⟨f, failed, unchanged⟩
  · rw [← same] at gave unchanged
    refine ⟨Event.calls_eq_nil (congrArg State.traffic unchanged), fun other gaveOther => ?_, ?_⟩
    · obtain rfl := Except.ok.inj (gave.symm.trans gaveOther)
      exact none
    · exact unchanged ▸ before
  · rw [← same] at failed unchanged
    refine ⟨Event.calls_eq_nil (congrArg State.traffic unchanged), fun other gave => ?_, ?_⟩
    · cases failed.symm.trans gave
    · exact unchanged ▸ before

/-- In every history of a session, whatever fails, a commit, a rollback, a setting or a close of the open session is one call on each
connection. -/
theorem callsOnAll_of_run (run : Run b r (h₁ ++ e :: h₂) s) (asks : e.request.control? = some c)
    (isOpen : e.before.session.isClosed = false) : CallsOnAll c e h₂ := by
  have before := run.before.1
  have isOver (isClose : c = .close) : e.after.session.IsOver := by
    have served : Served e.before e.request e.outcome e.after := run.served
    have request : e.request = .close := by
      subst isClose
      cases request : e.request with
      | close => rfl
      | _ =>
        rw [request] at asks
        cases asks
    rw [request] at served
    exact served.isOver_of_close isOpen
  refine ⟨before.ordered, before.nodup_handles, ?_, isOver, fun isClose e' later => run.over (isOver isClose) later⟩
  cases run.does with
  | connects uncontrolled _ _ => cases asks.symm.trans uncontrolled
  | releases isRelease _ _ _ =>
    rw [isRelease] at asks
    cases asks
  | controls asks' _ each =>
    obtain rfl := Option.some.inj (asks.symm.trans asks')
    exact each
  | nothing _ refused =>
    rcases refused with ⟨c, isRelease⟩ | isClosed
    · rw [isRelease] at asks
      cases asks
    · cases isOpen.symm.trans isClosed

/-- Data sources of which two fail to close a connection, one of them with a failure that names where it comes from. -/
def brokenBackend : Backend :=
  { Client.willingBackend with
    control _ c control :=
      if control ≠ .close then .ok ()
      else if c.dataSource = "ds_0" then .error (.physical "pool" "broken pipe")
      else if c.dataSource = "a" then .error (.unsupported "close")
      else .ok () }

/-- Three connections are opened, with a setting in between. -/
def openedThree : List Request :=
  [.getConnection "ds_d" .select, .getConnection "ds_1" .select, .set (.autoCommit false), .getConnection "ds_0" .update, .commit]

/-- The session with the three connections. -/
def withThree : State := (serveAll brokenBackend ⟨.new, Client.threeSources, []⟩ openedThree).2

/-- Two of three connections fail to close. All are called, both failures are reported, and no later request makes a call. -/
theorem callsOnAll_of_run_broken : ∃ h₁ e h₂ s, Run brokenBackend Client.threeSources (h₁ ++ e :: h₂) s ∧
    h₁.map (·.request) = openedThree ∧ e.request = .close ∧ e.before.session.isClosed = false ∧
    e.calls.map (·.call) = [.control ⟨"ds_0", 1⟩ .close, .control ⟨"a", 1⟩ .close, .control ⟨"ds_d", 1⟩ .close] ∧
    e.outcome = .error (.aggregate "close" [.physical "pool" "broken pipe", .physical "a" "unsupported operation: close"]) ∧
    h₂.map (·.request) = [.getConnection "ds_0" .select, .getAllConnections "ds_1", .commit, .close] ∧
    CallsOnAll .close e h₂ := by
  have before : Run brokenBackend Client.threeSources _ withThree := (Run.start []).serves openedThree
  have run := (before.serve .close).serves [.getConnection "ds_0" .select, .getAllConnections "ds_1", .commit, .close]
  rw [List.append_assoc] at run
  have isOpen : withThree.session.isClosed = false := by cbv
  have calls : (Event.of brokenBackend withThree .close).calls.map (·.call) =
      [.control ⟨"ds_0", 1⟩ .close, .control ⟨"a", 1⟩ .close, .control ⟨"ds_d", 1⟩ .close] := by decide +kernel
  have outcome : (Event.of brokenBackend withThree .close).outcome =
      .error (.aggregate "close" [.physical "pool" "broken pipe", .physical "a" "unsupported operation: close"]) := rfl
  exact ⟨_, _, _, _, run, by cbv, rfl, isOpen, calls, outcome, rfl, callsOnAll_of_run run rfl isOpen⟩

end SqlSharding.Session
