import SqlSharding.Proofs.Caches
import SqlSharding.Proofs.SessionHistories

/-!
# Connections that a session keeps

Once a client has got a connection for a logical data source and a role, it gets the same one whenever it asks for that data
source and that role again, until it gives the connection back or closes the session. No place of the cache is taken
twice, and a request that fails leaves the session as it was (`keepsConnections_of_run`).
-/

namespace SqlSharding.Session

open Physical (Backend Handle)
open Sources (Registry)

variable {s t : State} {request : Request} {outcome : Outcome (List Handle)} {key : CacheKey} {c : Handle}

/-- An open session has a connection at a place of the cache. -/
def Keeps (x : Session) (key : CacheKey) (c : Handle) : Prop := x.isClosed = false ∧ x.cache.get? key = some c

/-! ## One request -/

/-- A connection that is cached and neither given back nor closed stays under its key. -/
theorem Served.keeps (served : Served s request outcome t) (kept : request ≠ .release c) (notClosed : request ≠ .close)
    (before : s.session.Keeps key c) : t.session.Keeps key c := by
  obtain ⟨isOpen, hit⟩ := before
  cases served with
  | got gets | single _ gets =>
    cases gets with
    | cached _ _ _ => simpa [Keeps] using ⟨isOpen, hit⟩
    | @opened other _ _ _ _ _ absent _ _ _ =>
      have elsewhere : other ≠ key := by
        rintro rfl
        cases absent.symm.trans hit
      simpa [Keeps, Cache.get?_insert, elsewhere] using ⟨isOpen, hit⟩
    | _ => exact ⟨isOpen, hit⟩
  | released _ _ => exact ⟨isOpen, Cache.get?_remove hit fun same => kept (same ▸ rfl)⟩
  | closedBefore _ | closed _ _ _ => exact absurd rfl notClosed
  | _ => exact ⟨isOpen, hit⟩

/-- A request takes a place of the cache only if it is free. -/
theorem Served.nodup_keys (served : Served s request outcome t) (before : (s.session.cache.map (·.1)).Nodup) :
    (t.session.cache.map (·.1)).Nodup := by
  cases served with
  | got gets | single _ gets =>
    cases gets with
    | cached _ _ _ => simpa using before
    | @opened key h _ _ _ _ absent _ _ _ =>
      have joins : ((s.session.cache.insert key h).map (·.1)).Perm (key :: s.session.cache.map (·.1)) :=
        (Cache.insert_perm h absent).map _
      exact joins.nodup_iff.mpr (List.nodup_cons.mpr ⟨Cache.get?_eq_none_iff.mp absent, before⟩)
    | _ => exact before
  | released _ _ => exact before.sublist (Cache.keys_remove_sublist _ _)
  | closed _ _ _ => exact List.nodup_nil
  | _ => exact before

section
variable {logical : String} {kind : Sql.StatementKind} {found : Outcome Handle}

/-- A connection that a client gets is cached from then on. -/
theorem Gets.cached_after (gets : Gets s logical kind (.ok c) t) (resolved : s.keyFor? logical kind = some key) :
    t.session.Keeps key c := by
  cases gets with
  | cached same isOpen hit =>
    obtain rfl := Option.some.inj (resolved.symm.trans same)
    simpa [Keeps] using ⟨isOpen, hit⟩
  | opened same isOpen _ _ _ _ =>
    obtain rfl := Option.some.inj (resolved.symm.trans same)
    simpa [Keeps, Cache.get?_insert] using isOpen

/-- A client that asks for a cached connection gets it, and no call is made. -/
theorem Gets.again (gets : Gets s logical kind found t) (resolved : s.keyFor? logical kind = some key)
    (before : s.session.Keeps key c) : found = .ok c ∧ t.traffic = s.traffic := by
  obtain ⟨isOpen, hit⟩ := before
  cases gets with
  | missing none => cases none.symm.trans resolved
  | closed isClosed => cases isOpen.symm.trans isClosed
  | cached same _ other =>
    obtain rfl := Option.some.inj (resolved.symm.trans same)
    exact ⟨congrArg _ (Option.some.inj (other.symm.trans hit)), rfl⟩
  | failed same _ absent _ _ | opened same _ absent _ _ _ =>
    obtain rfl := Option.some.inj (resolved.symm.trans same)
    cases absent.symm.trans hit

end

/-! ## A whole history -/

/-- A request asks for the connection at a place of the cache. -/
def Event.Asks (e : Event) (key : CacheKey) : Prop :=
  ∃ logical kind, e.request = .getConnection logical kind ∧ e.before.keyFor? logical kind = some key

/-- How a session keeps connections in a history. -/
structure KeepsConnections (h : List Event) (s : State) : Prop where
  /-- No place of the cache is taken twice. -/
  nodup : (s.session.cache.map (·.1)).Nodup
  /-- After a client got a connection it gets the same one again, without a call, unless it was given back or the session
  was closed in the meantime. -/
  again : ∀ {h₁ h₂ h₃ : List Event} {e e' : Event} {key : CacheKey} {c : Handle}, h = h₁ ++ e :: (h₂ ++ e' :: h₃) →
    e.Asks key → e.outcome = .ok [c] → e'.Asks key → (∀ other ∈ h₂, other.request ≠ .release c ∧ other.request ≠ .close) →
      e'.outcome = .ok [c] ∧ e'.calls = []
  /-- A request for a connection that fails changes nothing in the session. -/
  unchanged : ∀ e ∈ h, ∀ {logical kind f}, e.request = .getConnection logical kind → e.outcome = .error f →
    e.after.session = e.before.session

variable {b : Backend} {r : Registry} {h : List Event}

theorem Run.nodup_keys (run : Run b r h s) : (s.session.cache.map (·.1)).Nodup :=
  run.invariant (P := fun _ s => (s.session.cache.map (·.1)).Nodup) (fun _ => List.nodup_nil)
    (fun _ _ _ served before => served.nodup_keys before) fun _ _ _ _ => id

/-- Every session keeps its connections, whatever is asked of it and whatever fails. -/
theorem keepsConnections_of_run (run : Run b r h s) : KeepsConnections h s where
  nodup := run.nodup_keys
  again := by
    rintro h₁ h₂ h₃ e e' key c rfl ⟨logical, kind, asks, resolved⟩ gave ⟨logical', kind', asksAgain, resolvedAgain⟩ kept
    have whole : Run b r ((h₁ ++ e :: h₂) ++ e' :: h₃) s := by rwa [List.append_assoc]
    have before : e'.before.session.Keeps key c :=
      whole.before.1.since (Q := (·.Keeps key c)) ((run.served.gives asks gave).cached_after resolved) fun other member served =>
        served.keeps (kept other member).1 (kept other member).2
    obtain ⟨found, gets, same⟩ := whole.served.gets asksAgain
    obtain ⟨rfl, quiet⟩ := gets.again resolvedAgain before
    exact ⟨same, Event.calls_eq_nil quiet⟩
  unchanged := by
    intro e happened logical kind f asks failed
    obtain ⟨h₁, h₂, rfl⟩ := List.append_of_mem happened
    exact (run.served.fails asks failed).session_of_error

/-- A connection is asked for twice; in between a commit, and another connection that is refused. -/
def askedTwice : List Request := [.getConnection "ds_1" .select, .getConnection "ds_0" .select, .commit, .getConnection "ds_1" .select]

theorem keepsConnections_of_run_askedTwice : ∃ h s, Run (refusingBackend "ds_0") Client.threeSources h s ∧
    h.map (·.request) = askedTwice ∧
    h.map (·.outcome) = [.ok [⟨"a", 1⟩], .error (.physical "ds_0" "connect refused"), .ok [], .ok [⟨"a", 1⟩]] ∧
    KeepsConnections h s := by
  have run : Run (refusingBackend "ds_0") Client.threeSources _ _ := (Run.start []).serves askedTwice
  exact ⟨_, _, run, by cbv, by cbv, keepsConnections_of_run run⟩

end SqlSharding.Session
