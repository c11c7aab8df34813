import SqlSharding.Proofs.Openings
import SqlSharding.Proofs.RegisteredSources

/-!
# Steps of a session

A client asks a session for connections, gives them back, makes settings, ends transactions and closes the session. What
serving such a request can lead to is said once (`Served`), with the connections that are opened and closed on the way,
and all that is known of whole histories follows from it.
-/

namespace SqlSharding

/-! ## Members of data sources -/

namespace Sources

/-- The data source as it is before any read was shared out. -/
def LogicalSource.rested : LogicalSource → LogicalSource
  | single name => single name
  | group g => group { g with turn := 0 }

/-- A physical data source is the one that a role stands for, or one of them. -/
def LogicalSource.Serves : LogicalSource → Option Role → String → Prop
  | single name, none, dataSource => dataSource = name
  | group g, some .master, dataSource => dataSource = g.master
  | group g, some .slave, dataSource => dataSource ∈ g.slaves
  | _, _, _ => False

namespace LogicalSource

variable {source source' : LogicalSource} {kind : Sql.StatementKind} {hasWritten : Bool}

theorem roleFor_rested (source : LogicalSource) : source.rested.roleFor kind hasWritten = source.roleFor kind hasWritten := by
  cases source <;> rfl

/-- A group stays a group with the same members. -/
theorem exists_group {g : Group} (same : source.rested = (group g).rested) :
    ∃ g', source = group g' ∧ g'.master = g.master ∧ g'.slaves = g.slaves := by
  cases source with
  | single name => cases same
  | group g' =>
    simp only [rested, group.injEq, Group.mk.injEq] at same
    exact ⟨g', rfl, same.2.1, same.2.2.1⟩

theorem serves_rested {role : Option Role} {dataSource : String} :
    source.rested.Serves role dataSource ↔ source.Serves role dataSource := by
  cases source with
  | single name => rfl
  | group g =>
    cases role with
    | none => rfl
    | some role => cases role <;> rfl

/-- A choice may give the next turn to another slave. -/
theorem rested_select (source : LogicalSource) (role : Option Role) (chance : Nat) :
    (source.select role chance).2.rested = source.rested := by
  cases source with
  | single name => rfl
  | group g =>
    simp only [select, Group.select]
    split
    · rfl
    · simp only [Group.nextSlave]
      split <;> rfl

theorem slaves_ne_nil {g : Group} (toSlave : g.roleFor kind hasWritten = .slave) : g.slaves ≠ [] := by
  intro none
  simp [Group.roleFor, none] at toSlave

theorem nextSlave_mem (g : Group) (chance : Nat) (hasSlaves : g.slaves ≠ []) : (g.nextSlave chance).1.getD g.master ∈ g.slaves := by
  have inRange (n : Nat) : n % g.slaves.length < g.slaves.length := Nat.mod_lt _ (List.length_pos_iff.mpr hasSlaves)
  simp only [Group.nextSlave]
  split
  · simp [List.getElem?_eq_getElem (inRange g.turn)]
  · simp [List.getElem?_eq_getElem (inRange chance)]

theorem serves_member (g : Group) (role : Role) (chance : Nat) (possible : role = .slave → g.slaves ≠ []) :
    (group g).Serves (some role) (g.select role chance).1 := by
  cases role with
  | master => exact rfl
  | slave =>
    have hasSlaves : g.slaves ≠ [] := possible rfl
    simp only [Group.select, reduceCtorEq, decide_false, Bool.false_or, List.isEmpty_iff, hasSlaves, if_false]
    exact nextSlave_mem g chance hasSlaves

/-- The data source that is chosen stands for the role. -/
theorem serves_select (source : LogicalSource) (chance : Nat) :
    source.Serves (source.roleFor kind hasWritten) (source.select (source.roleFor kind hasWritten) chance).1 := by
  cases source with
  | single name => exact rfl
  | group g => exact serves_member g (g.roleFor kind hasWritten) chance slaves_ne_nil

end LogicalSource

namespace Registry

variable {r r' r'' : Registry} {name : String} {source : LogicalSource}

/-- Two registries have the same data sources with the same members. -/
def SameMembers (r r' : Registry) : Prop :=
  ∀ name, (Named.get? r' name).map LogicalSource.rested = (Named.get? r name).map LogicalSource.rested

theorem SameMembers.refl (r : Registry) : SameMembers r r := fun _ => rfl

theorem SameMembers.symm (same : SameMembers r r') : SameMembers r' r := fun name => (same name).symm

theorem SameMembers.trans (first : SameMembers r r') (second : SameMembers r' r'') : SameMembers r r'' :=
  fun name => (second name).trans (first name)

theorem find_eq_ok_iff : r.find name = .ok source ↔ Named.get? r name = some source := by
  rw [find, elim_eq_ok_iff]

/-- There is a group under a name. -/
def hasGroup (r : Registry) (name : String) : Bool :=
  match Named.get? r name with
  | some (.group _) => true
  | _ => false

theorem hasGroup_iff : r.hasGroup name = true ↔ ∃ g, r.find name = .ok (.group g) := by
  simp only [find_eq_ok_iff]
  rw [hasGroup]
  split
  · next g isGroup => simp [isGroup]
  · next noGroup => simpa using fun g => noGroup g

theorem SameMembers.find (same : SameMembers r r') (found : r.find name = .ok source) :
    ∃ source', r'.find name = .ok source' ∧ source'.rested = source.rested := by
  have alike := same name
  rw [find_eq_ok_iff.mp found, Option.map_some, Option.map_eq_some_iff] at alike
  obtain ⟨source', isSource, alike⟩ := alike
  exact ⟨source', find_eq_ok_iff.mpr isSource, alike⟩

theorem SameMembers.find_group {g : Group} (same : SameMembers r r') (found : r.find name = .ok (.group g)) :
    ∃ g', r'.find name = .ok (.group g') ∧ g'.master = g.master ∧ g'.slaves = g.slaves := by
  obtain ⟨source, isSource, alike⟩ := same.find found
  obtain ⟨g', rfl, members⟩ := LogicalSource.exists_group alike
  exact ⟨g', isSource, members⟩

theorem SameMembers.hasGroup_eq (same : SameMembers r r') (name : String) : r'.hasGroup name = r.hasGroup name := by
  have keeps {r r' : Registry} (same : SameMembers r r') (isGroup : r.hasGroup name = true) : r'.hasGroup name = true := by
    obtain ⟨g, found⟩ := hasGroup_iff.mp isGroup
    obtain ⟨g', found', -⟩ := same.find_group found
    exact hasGroup_iff.mpr ⟨g', found'⟩
  exact Bool.eq_iff_iff.mpr ⟨keeps same.symm, keeps same⟩

theorem sameMembers_insert {after : LogicalSource} (found : r.find name = .ok source) (alike : after.rested = source.rested) :
    SameMembers r (Named.insert name after r) := by
  intro other
  rw [Named.get?_insert]
  split
  · next same =>
    subst same
    rw [find_eq_ok_iff.mp found, Option.map_some, Option.map_some, alike]
  · rfl

end Registry

end Sources

/-! ## Requests -/

namespace Session

open Physical (Backend Handle Traffic Deals Setting Control attempt_deals controlOn_deals)
open Sources (Registry LogicalSource Role)

/-- What a client can ask of a session. -/
inductive Request where
  | getConnection (logical : String) (kind : Sql.StatementKind)
  | getAllConnections (logical : String)
  | release (h : Handle)
  | set (setting : Setting)
  | commit
  | rollback
  | close
  deriving DecidableEq

/-- Serves a request. It gives the connections that the client gets. -/
def Request.serve (b : Backend) : Request → Operation (List Handle)
  | getConnection logical kind => do return [← Session.getConnection b logical kind]
  | getAllConnections logical => Session.getAllConnections b logical
  | release h => do Session.release b h; return []
  | set setting => do Session.set b setting; return []
  | commit => do Session.commit b; return []
  | rollback => do Session.rollback b; return []
  | close => do Session.close b; return []

/-- The outcome of an operation and the state that it leads to. -/
def Operation.perform {α : Type} (x : Operation α) (s : State) : Outcome α × State :=
  match x s with
  | .ok a t => (.ok a, t)
  | .error f t => (.error f, t)

/-- The place in the cache for the connection that serves statements of a kind at a logical data source. -/
def State.keyFor? (s : State) (logical : String) (kind : Sql.StatementKind) : Option CacheKey :=
  (Named.get? s.registry logical).map fun source => ⟨logical, source.roleFor kind s.session.hasWritten⟩

/-- A physical data source is one that the connection at a place of the cache may be opened at. -/
def Serves (r : Registry) (key : CacheKey) (dataSource : String) : Prop :=
  ∃ source, r.find key.logical = .ok source ∧ source.Serves key.role dataSource

/-! ## What a request for a connection leads to -/

section
variable (x : Session) (role : Option Role) (kind : Sql.StatementKind)

@[simp]
theorem afterUse_cache : (x.afterUse role kind).cache = x.cache := by
  rw [afterUse]
  split <;> rfl

@[simp]
theorem afterUse_settings : (x.afterUse role kind).settings = x.settings := by
  rw [afterUse]
  split <;> rfl

@[simp]
theorem afterUse_isClosed : (x.afterUse role kind).isClosed = x.isClosed := by
  rw [afterUse]
  split <;> rfl

@[simp]
theorem afterUse_hasWritten : (x.afterUse role kind).hasWritten = (x.hasWritten || role.isSome && kind.isWrite) := by
  rw [afterUse]
  cases role.isSome && kind.isWrite <;> simp

end

/-- The outcome of a request for a connection, and the state afterwards. -/
inductive Gets (s : State) (logical : String) (kind : Sql.StatementKind) : Outcome Handle → State → Prop
  | missing (none : s.keyFor? logical kind = none) : Gets s logical kind (.error (.noDataSource logical)) s
  | closed (isClosed : s.session.isClosed = true) : Gets s logical kind (.error .connectionClosed) s
  | cached {key : CacheKey} {h : Handle} (resolved : s.keyFor? logical kind = some key) (isOpen : s.session.isClosed = false)
      (hit : s.session.cache.get? key = some h) :
      Gets s logical kind (.ok h) { s with session := s.session.afterUse key.role kind }
  | failed {key : CacheKey} {f : Failure} {r : Registry} {t : Traffic} {lost : List Handle}
      (resolved : s.keyFor? logical kind = some key) (isOpen : s.session.isClosed = false)
      (absent : s.session.cache.get? key = none) (same : s.registry.SameMembers r) (deals : Deals s.traffic t lost lost) :
      Gets s logical kind (.error f) ⟨s.session, r, t⟩
  | opened {key : CacheKey} {h : Handle} {r : Registry} {t : Traffic}
      (resolved : s.keyFor? logical kind = some key) (isOpen : s.session.isClosed = false)
      (absent : s.session.cache.get? key = none) (serves : Serves s.registry key h.dataSource)
      (same : s.registry.SameMembers r) (deals : Deals s.traffic t [h] []) :
      Gets s logical kind (.ok h) ⟨{ s.session.afterUse key.role kind with cache := s.session.cache.insert key h }, r, t⟩

variable {b : Backend}

theorem State.keyFor?_of_find {s : State} {logical : String} {kind : Sql.StatementKind} {source : LogicalSource}
    (found : s.registry.find logical = .ok source) :
    s.keyFor? logical kind = some ⟨logical, source.roleFor kind s.session.hasWritten⟩ := by
  rw [keyFor?, Registry.find_eq_ok_iff.mp found, Option.map_some]

theorem State.exists_of_keyFor? {s : State} {logical : String} {kind : Sql.StatementKind} {key : CacheKey}
    (resolved : s.keyFor? logical kind = some key) :
    ∃ source, s.registry.find logical = .ok source ∧ key = ⟨logical, source.roleFor kind s.session.hasWritten⟩ := by
  obtain ⟨source, isSource, rfl⟩ := Option.map_eq_some_iff.mp resolved
  exact ⟨source, Registry.find_eq_ok_iff.mpr isSource, rfl⟩

theorem find_gives (s : State) (logical : String) :
    Ends (· = s) (Operation.find logical) (fun source t => s.registry.find logical = .ok source ∧ t = s)
      fun f t => (Named.get? s.registry logical = none ∧ f = .noDataSource logical) ∧ t = s := by
  rintro s rfl
  rw [Operation.find, Registry.find]
  cases found : Named.get? s.registry logical with
  | none => exact ⟨⟨rfl, rfl⟩, rfl⟩
  | some source => exact ⟨rfl, rfl⟩

theorem requireOpen_gives (s : State) :
    Ends (· = s) Operation.requireOpen (fun x t => s.session.isClosed = false ∧ x = s.session ∧ t = s)
      fun f t => s.session.isClosed = true ∧ f = .connectionClosed ∧ t = s := by
  rintro s rfl
  simp only [Operation.requireOpen, Operation.session, bind, EStateM.bind]
  cases isClosed : s.session.isClosed with
  | true => exact ⟨rfl, rfl, rfl⟩
  | false => exact ⟨rfl, rfl, rfl⟩

/-- A connection is found in the cache, or opened and put there. -/
theorem getConnection_gets (s : State) (logical : String) (kind : Sql.StatementKind) :
    Ends (· = s) (getConnection b logical kind) (fun h t => Gets s logical kind (.ok h) t)
      fun f t => Gets s logical kind (.error f) t := by
  refine ((find_gives s logical).failing ?_).bind fun source => Ends.given fun found => ?_
  · rintro f t ⟨⟨none, rfl⟩, rfl⟩
    exact .missing (by rw [State.keyFor?, none, Option.map_none])
  have resolved : s.keyFor? logical kind = some ⟨logical, source.roleFor kind s.session.hasWritten⟩ :=
    State.keyFor?_of_find found
  refine ((requireOpen_gives s).failing ?_).bind fun x => Ends.given fun isOpen => Ends.given fun same => ?_
  · rintro f t ⟨isClosed, rfl, rfl⟩
    exact .closed isClosed
  subst same
  dsimp only
  split
  · next h hit =>
    rintro s rfl
    exact .cached resolved isOpen hit
  · next absent =>
    rintro s rfl
    have serves : Serves s.registry ⟨logical, source.roleFor kind s.session.hasWritten⟩
        (source.select (source.roleFor kind s.session.hasWritten) (b.chance s.traffic)).1 :=
      ⟨source, found, LogicalSource.serves_select source (b.chance s.traffic)⟩
    have members := Registry.sameMembers_insert found (LogicalSource.rested_select source
      (source.roleFor kind s.session.hasWritten) (b.chance s.traffic))
    have opens := openWith_deals (b := b) s.session.settings
      (source.select (source.roleFor kind s.session.hasWritten) (b.chance s.traffic)).1 s.traffic (Deals.refl s.traffic)
    simp only [bind, EStateM.bind, Operation.select, Operation.exchange]
    cases run : openWith b s.session.settings
        (source.select (source.roleFor kind s.session.hasWritten) (b.chance s.traffic)).1 s.traffic with
    | ok h t =>
      rw [run] at opens
      obtain ⟨opened, deals⟩ := opens
      exact .opened resolved isOpen absent (opened ▸ serves) members deals
    | error f t =>
      rw [run] at opens
      obtain ⟨lost, deals⟩ := opens
      exact .failed resolved isOpen absent members deals

namespace Gets

variable {s t : State} {logical : String} {kind : Sql.StatementKind} {outcome : Outcome Handle} {c : Handle}

theorem sameMembers (gets : Gets s logical kind outcome t) : s.registry.SameMembers t.registry := by
  cases gets with
  | failed _ _ _ same _ | opened _ _ _ _ same _ => exact same
  | _ => exact .refl _

theorem isOpen (gets : Gets s logical kind (.ok c) t) : s.session.isClosed = false := by
  cases gets <;> assumption

theorem session_of_error {f : Failure} (gets : Gets s logical kind (.error f) t) : t.session = s.session := by
  cases gets <;> rfl

/-- A session remembers that it has got a connection to write to a group. -/
theorem hasWritten_eq (gets : Gets s logical kind (.ok c) t) :
    t.session.hasWritten = (s.session.hasWritten || kind.isWrite && s.registry.hasGroup logical) := by
  cases gets with
  | cached resolved _ _ | opened resolved _ _ _ _ _ =>
    obtain ⟨source, found, rfl⟩ := State.exists_of_keyFor? resolved
    rw [Registry.hasGroup, Registry.find_eq_ok_iff.mp found]
    cases source with
    | single name => simp [LogicalSource.roleFor]
    | group g => simp [LogicalSource.roleFor]

end Gets

/-! ## What any request leads to -/

/-- A state has the session and the registry of another one, and a property holds of its traffic. -/
def Sends (s : State) (P : Traffic → Prop) (t : State) : Prop := t.session = s.session ∧ t.registry = s.registry ∧ P t.traffic

theorem Sends.eq {s t : State} {P : Traffic → Prop} (sends : Sends s P t) : t = { s with traffic := t.traffic } := by
  obtain ⟨session, registry, -⟩ := sends
  rw [← session, ← registry]

theorem Sends.start {α : Type} {s : State} {x : Operation α} {Q : α → State → Prop} {E : Failure → State → Prop}
    (ends : Ends (Sends s (Deals s.traffic · [] [])) x Q E) : Ends (· = s) x Q E := by
  rintro s rfl
  exact ends s ⟨rfl, rfl, Deals.refl s.traffic⟩

theorem exchange_sends {α : Type} {x : Physical.Exchange α} {P : Traffic → Prop} {Q : α → Traffic → Prop}
    {E : Failure → Traffic → Prop} (s : State) (ends : Ends P x Q E) :
    Ends (Sends s P) (Operation.exchange x) (fun a => Sends s (Q a)) fun f => Sends s (E f) := by
  rintro t ⟨session, registry, holds⟩
  have atEnd := ends t.traffic holds
  rw [Operation.exchange]
  cases run : x t.traffic with
  | ok a t' | error f t' =>
    rw [run] at atEnd
    exact ⟨session, registry, atEnd⟩

/-- Connections to all members of a group are opened, or those up to one that fails. -/
theorem openEach_sends (s : State) (settings : Settings) (members : List String) {opened closed : List Handle} :
    Ends (Sends s (Deals s.traffic · opened closed)) (members.mapM fun member => Operation.exchange (openWith b settings member))
      (fun handles => Sends s fun t => handles.map (·.dataSource) = members ∧ Deals s.traffic t (opened ++ handles) closed)
      fun _ => Sends s fun t => ∃ left lost, Deals s.traffic t (opened ++ (left ++ lost)) (closed ++ lost) := by
  induction members generalizing opened with
  | nil =>
    rw [List.mapM_nil]
    exact Ends.pure fun t ⟨session, registry, deals⟩ => ⟨session, registry, rfl, (List.append_nil opened).symm ▸ deals⟩
  | cons member rest ih =>
    rw [List.mapM_cons]
    refine ((exchange_sends s (openWith_deals settings member)).failing ?_).bind fun h => ?_
    · rintro f t ⟨session, registry, lost, deals⟩
      exact ⟨session, registry, [], lost, deals⟩
    rintro t ⟨session, registry, same, deals⟩
    refine Ends.bind (Ends.failing ih ?_) (fun handles => Ends.pure ?_) t ⟨session, registry, deals⟩
    · rintro f t ⟨session, registry, left, lost, deals⟩
      refine ⟨session, registry, h :: left, lost, ?_⟩
      rwa [List.append_assoc] at deals
    · rintro t ⟨session, registry, names, deals⟩
      refine ⟨session, registry, by rw [List.map_cons, same, names], ?_⟩
      rwa [List.append_assoc] at deals

theorem callOn_sends (s : State) (handles : List Handle) (c : Control) :
    Ends (Sends s (Deals s.traffic · [] [])) (callOn b handles c)
      (fun _ => Sends s (Deals s.traffic · [] (if c = .close then handles else [])))
      fun _ => Sends s (Deals s.traffic · [] (if c = .close then handles else [])) := by
  rw [← flatMap_closes]
  refine ((exchange_sends s (failuresOn_deals c handles)).failing fun _ _ ⟨_, _, never⟩ => never.elim).bind fun failures => ?_
  cases Failure.collapse c.name failures with
  | ok _ => exact fun _ => id
  | error f => exact fun _ => id

/-- The outcome of a request and the state afterwards. -/
inductive Served (s : State) : Request → Outcome (List Handle) → State → Prop
  | got {logical : String} {kind : Sql.StatementKind} {outcome : Outcome Handle} {t : State} (gets : Gets s logical kind outcome t) :
      Served s (.getConnection logical kind) (outcome.map ([·])) t
  | missing {logical : String} (none : Named.get? s.registry logical = none) :
      Served s (.getAllConnections logical) (.error (.noDataSource logical)) s
  | single {logical name : String} {outcome : Outcome Handle} {t : State} (found : s.registry.find logical = .ok (.single name))
      (gets : Gets s logical .select outcome t) : Served s (.getAllConnections logical) (outcome.map ([·])) t
  | refused {logical : String} {g : Sources.Group} (found : s.registry.find logical = .ok (.group g))
      (isClosed : s.session.isClosed = true) : Served s (.getAllConnections logical) (.error .connectionClosed) s
  | openedAll {logical : String} {g : Sources.Group} {handles : List Handle} {t : Traffic}
      (found : s.registry.find logical = .ok (.group g)) (isOpen : s.session.isClosed = false)
      (members : handles.map (·.dataSource) = g.members) (deals : Deals s.traffic t handles []) :
      Served s (.getAllConnections logical) (.ok handles) { s with traffic := t }
  | failedAll {logical : String} {g : Sources.Group} {f : Failure} {left lost : List Handle} {t : Traffic}
      (found : s.registry.find logical = .ok (.group g)) (isOpen : s.session.isClosed = false)
      (deals : Deals s.traffic t (left ++ lost) lost) : Served s (.getAllConnections logical) (.error f) { s with traffic := t }
  | passed {h : Handle} (uncached : h ∉ s.session.cache.handles) : Served s (.release h) (.ok []) s
  | released {h : Handle} {t : Traffic} (cached : h ∈ s.session.cache.handles) (deals : Deals s.traffic t [] [h]) :
      Served s (.release h) (.ok []) ⟨{ s.session with cache := s.session.cache.remove h }, s.registry, t⟩
  | unset {setting : Setting} (isClosed : s.session.isClosed = true) : Served s (.set setting) (.error .connectionClosed) s
  | set {setting : Setting} (done : Outcome Unit) {t : Traffic} (isOpen : s.session.isClosed = false)
      (deals : Deals s.traffic t [] []) : Served s (.set setting) (done.map fun _ => [])
        ⟨{ s.session with settings := s.session.settings.record setting }, s.registry, t⟩
  | committed (done : Outcome Unit) {t : Traffic} (deals : Deals s.traffic t [] []) :
      Served s .commit (done.map fun _ => []) { s with traffic := t }
  | rolledBack (done : Outcome Unit) {t : Traffic} (deals : Deals s.traffic t [] []) :
      Served s .rollback (done.map fun _ => []) { s with traffic := t }
  | closedBefore (isClosed : s.session.isClosed = true) : Served s .close (.ok []) s
  | closed (done : Outcome Unit) {t : Traffic} (isOpen : s.session.isClosed = false)
      (deals : Deals s.traffic t [] s.session.cache.handles) : Served s .close (done.map fun _ => [])
        ⟨{ s.session with cache := [], hasWritten := false, isClosed := true }, s.registry, t⟩

theorem getAllConnections_served (s : State) (logical : String) :
    Ends (· = s) (getAllConnections b logical) (fun handles t => Served s (.getAllConnections logical) (.ok handles) t)
      fun f t => Served s (.getAllConnections logical) (.error f) t := by
  refine ((find_gives s logical).failing ?_).bind fun source => Ends.given fun found => ?_
  · rintro f t ⟨⟨none, rfl⟩, rfl⟩
    exact .missing none
  cases source with
  | single name =>
    refine ((getConnection_gets s logical .select).failing ?_).bind fun h => Ends.pure ?_
    · exact fun f t gets => .single found gets
    · exact fun t gets => .single found gets
  | group g =>
    refine ((requireOpen_gives s).failing ?_).bind fun x => Ends.given fun isOpen => Ends.given fun same => ?_
    · rintro f t ⟨isClosed, rfl, rfl⟩
      exact .refused found isClosed
    subst same
    rintro s rfl
    have opens := openEach_sends (b := b) s s.session.settings g.members s ⟨rfl, rfl, Deals.refl s.traffic⟩
    dsimp only
    cases run : g.members.mapM (fun member => Operation.exchange (openWith b s.session.settings member)) s with
    | ok handles t =>
      rw [run] at opens
      rw [opens.eq]
      exact .openedAll found isOpen opens.2.2.1 opens.2.2.2
    | error f t =>
      rw [run] at opens
      obtain ⟨left, lost, deals⟩ := opens.2.2
      have deals : Deals s.traffic t.traffic (left ++ lost) lost := deals
      rw [opens.eq]
      exact .failedAll found isOpen deals

theorem session_gives (s : State) : Ends (· = s) Operation.session (fun x t => x = s.session ∧ t = s) fun _ _ => False := by
  rintro s rfl
  exact ⟨rfl, rfl⟩

theorem modifySession_gives (s : State) (f : Session → Session) :
    Ends (· = s) (Operation.modifySession f) (fun _ t => t = { s with session := f s.session }) fun _ _ => False := by
  rintro s rfl
  exact rfl

theorem release_served (s : State) (h : Handle) :
    Ends (· = s) (release b h) (fun _ t => Served s (.release h) (.ok []) t) fun _ _ => False := by
  refine (session_gives s).bind fun x => Ends.given fun same => ?_
  subst same
  refine Ends.branch (fun cached => ?_) fun uncached => Ends.pure ?_
  · refine (modifySession_gives s _).bind fun _ => Ends.bind (Ends.failing (Sends.start (exchange_sends _
      (attempt_deals (controlOn_deals h .close)))) fun _ _ ⟨_, _, never⟩ => never) fun _ => Ends.pure ?_
    intro t sends
    rw [sends.eq]
    exact .released cached sends.2.2
  · rintro s rfl
    exact .passed uncached

theorem callOnAll_sends (s : State) (c : Control) :
    Ends (· = s) (callOnAll b c) (fun _ => Sends s (Deals s.traffic · [] (if c = .close then s.session.cache.handles else [])))
      fun _ => Sends s (Deals s.traffic · [] (if c = .close then s.session.cache.handles else [])) := by
  refine ((session_gives s).failing fun _ _ => False.elim).bind fun x => Ends.given fun same => ?_
  subst same
  exact Sends.start (callOn_sends s s.session.cache.handles c)

theorem set_served (s : State) (setting : Setting) :
    Ends (· = s) (set b setting) (fun _ t => Served s (.set setting) (.ok []) t) fun f t => Served s (.set setting) (.error f) t := by
  refine ((requireOpen_gives s).failing ?_).bind fun x => Ends.given fun isOpen => Ends.given fun _ => ?_
  · rintro f t ⟨isClosed, rfl, rfl⟩
    exact .unset isClosed
  refine ((modifySession_gives s _).failing fun _ _ => False.elim).bind fun _ => (callOnAll_sends _ (.set setting)).weaken ?_ ?_
  · intro _ t sends
    rw [sends.eq]
    exact .set (.ok ()) isOpen sends.2.2
  · intro f t sends
    rw [sends.eq]
    exact .set (.error f) isOpen sends.2.2

theorem close_served (s : State) :
    Ends (· = s) (close b) (fun _ t => Served s .close (.ok []) t) fun f t => Served s .close (.error f) t := by
  refine ((session_gives s).failing fun _ _ => False.elim).bind fun x => Ends.given fun same => ?_
  subst same
  refine Ends.branch (fun isOpen => ?_) fun notOpen => Ends.pure ?_
  · have isOpen : s.session.isClosed = false := by simpa using isOpen
    refine ((modifySession_gives s _).failing fun _ _ => False.elim).bind fun _ =>
      (Sends.start (callOn_sends _ s.session.cache.handles .close)).weaken ?_ ?_
    · intro _ t sends
      rw [sends.eq]
      exact .closed (.ok ()) isOpen sends.2.2
    · intro f t sends
      rw [sends.eq]
      exact .closed (.error f) isOpen sends.2.2
  · rintro s rfl
    exact .closedBefore (by simpa using notOpen)

/-- Serving a request leads to an outcome and a state that are listed. -/
theorem serve_served (s : State) (request : Request) :
    Ends (· = s) (request.serve b) (fun handles t => Served s request (.ok handles) t) fun f t => Served s request (.error f) t := by
  cases request with
  | getConnection logical kind =>
    refine ((getConnection_gets s logical kind).failing ?_).bind fun h => Ends.pure ?_
    · exact fun f t gets => .got gets
    · exact fun t gets => .got gets
  | getAllConnections logical => exact getAllConnections_served s logical
  | release h => exact ((release_served s h).failing fun _ _ => False.elim).bind fun _ => Ends.pure fun _ => id
  | set setting => exact (set_served s setting).bind fun _ => Ends.pure fun _ => id
  | commit =>
    refine ((callOnAll_sends s .commit).failing ?_).bind fun _ => Ends.pure ?_
    · exact fun f t sends => sends.eq ▸ .committed (.error f) sends.2.2
    · exact fun t sends => sends.eq ▸ .committed (.ok ()) sends.2.2
  | rollback =>
    refine ((callOnAll_sends s .rollback).failing ?_).bind fun _ => Ends.pure ?_
    · exact fun f t sends => sends.eq ▸ .rolledBack (.error f) sends.2.2
    · exact fun t sends => sends.eq ▸ .rolledBack (.ok ()) sends.2.2
  | close => exact (close_served s).bind fun _ => Ends.pure fun _ => id

end Session

end SqlSharding
