import SqlSharding.Client.Server
import SqlSharding.Proofs.Assignments
import SqlSharding.Proofs.Endings
import SqlSharding.Proofs.EngineTraffic
import SqlSharding.Proofs.Rules

/-!
# Registered data sources

A rule lists the data sources of all its tables, and a logical database is opened only if these and the default one are
registered. Units lie in data sources of their tables, or in the default one, and nothing that clients do takes a name
out of the registry. So the data source of a unit is always found (`bind_finds_sources`).
-/

namespace SqlSharding

/-! ## Data sources of a rule -/

namespace Routing

variable {c : Configuration} {expressions : Expressions} {r : Rule} {t : TableRule}

theorem Rule.bind_dataSources {r' : Rule} {names : List String} (bound : r.bind names = .ok r') :
    r'.dataSources = r.dataSources := by
  rw [Rule.bind] at bound
  split at bound
  · cases bound
  · cases bound
    rfl

theorem Rule.dataSources_of_foldlM {groups : List (List String)} {r' : Rule} (bound : groups.foldlM Rule.bind r = .ok r') :
    r'.dataSources = r.dataSources := by
  induction groups generalizing r with
  | nil => exact congrArg Rule.dataSources (pure_eq_ok_iff.mp bound).symm
  | cons names groups ih =>
    obtain ⟨next, first, bound⟩ := bind_eq_ok_iff.mp bound
    rw [ih bound, Rule.bind_dataSources first]

/-- A rule lists the data sources of its tables. -/
def Rule.ListsSources (r : Rule) : Prop := ∀ t ∈ r.tables, t.dataSources ⊆ r.dataSources

theorem Configuration.listsSources (built : c.rule expressions = .ok r) : r.ListsSources := by
  obtain ⟨tables, -, built⟩ := bind_eq_ok_iff.mp built
  intro t member source lies
  rw [Rule.tables_of_foldlM built] at member
  rw [Rule.dataSources_of_foldlM built]
  have ofTables : source ∈ (Rule.ofTables tables c.defaultDataSource).dataSources :=
    mem_distinct.mpr (List.mem_append_left _ (List.mem_flatMap.mpr ⟨t, member, lies⟩))
  exact mem_distinct.mpr (List.mem_append_left _ ofTables)

/-! ## Data sources of a route -/

variable {s : Sql.Statement} {sql : String} {parameters : List Value} {key : Value} {result : RouteResult}
  {primary : TableRule} {others : List TableRule} {nodes : List DataNode} {assigned assigned' : Assignments} {source : String}

theorem mem_names_insert {α : Type} {name other : String} {a : α} {xs : Named α}
    (member : other ∈ (Named.insert name a xs).map (·.1)) : other = name ∨ other ∈ xs.map (·.1) := by
  obtain ⟨entry, inserted, rfl⟩ := List.mem_map.mp member
  rcases Named.mem_insert inserted with rfl | old
  · exact .inl rfl
  · exact .inr (List.mem_map_of_mem old)

theorem source_of_assignNodes (member : source ∈ (assignNodes t nodes).map (·.1)) : ∃ node ∈ nodes, node.dataSource = source := by
  have folded (nodes : List DataNode) (assigned : Assignments) : source ∈ (nodes.foldl (fun assigned node =>
      addAssignment assigned node.dataSource [(t.logicTable, node.table)]) assigned).map (·.1) →
      (∃ node ∈ nodes, node.dataSource = source) ∨ source ∈ assigned.map (·.1) := by
    intro member
    induction nodes generalizing assigned with
    | nil => exact .inr member
    | cons node nodes ih =>
      rcases ih _ member with ⟨other, later, same⟩ | before
      · exact .inl ⟨other, List.mem_cons_of_mem node later, same⟩
      · rcases mem_names_insert before with rfl | before
        · exact .inl ⟨node, List.mem_cons_self, rfl⟩
        · exact .inr before
  exact (folded nodes [] member).resolve_right List.not_mem_nil

theorem sources_of_addTable (run : addTable r primary s parameters assigned t = .ok assigned') :
    assigned'.map (·.1) ⊆ assigned.map (·.1) := by
  intro source member
  obtain ⟨entry, inAssigned, rfl⟩ := List.mem_map.mp member
  rw [addTable] at run
  split at run
  · obtain ⟨⟨source, as⟩, old, followed⟩ := exists_of_mem_mapM run inAssigned
    obtain ⟨extended, -, followed⟩ := bind_eq_ok_iff.mp followed
    obtain rfl := pure_eq_ok_iff.mp followed
    exact List.mem_map_of_mem (f := (·.1)) old
  · obtain ⟨pins, -, run⟩ := bind_eq_ok_iff.mp run
    obtain ⟨nodes, -, run⟩ := bind_eq_ok_iff.mp run
    obtain rfl := pure_eq_ok_iff.mp run
    obtain ⟨⟨source, as⟩, old, rfl⟩ := List.mem_map.mp (List.mem_filter.mp inAssigned).1
    exact List.mem_map_of_mem (f := (·.1)) old

theorem sources_of_foldlM (run : others.foldlM (addTable r primary s parameters) assigned = .ok assigned') :
    assigned'.map (·.1) ⊆ assigned.map (·.1) := by
  induction others generalizing assigned with
  | nil =>
    obtain rfl := pure_eq_ok_iff.mp run
    exact List.Subset.refl _
  | cons t others ih =>
    obtain ⟨next, first, run⟩ := bind_eq_ok_iff.mp run
    exact fun source member => sources_of_addTable first (ih run member)

/-- The unit of every route lies in a data source of a ruled table, or in the default one. -/
theorem dataSource_of_route (routed : route r s sql parameters key = .ok result) {u : ExecutionUnit}
    (member : u ∈ result.units) :
    (∃ t ∈ r.tables, u.dataSource ∈ t.dataSources) ∨ r.defaultDataSource = some u.dataSource := by
  obtain ⟨-, source, isDefault, rfl⟩ | ⟨primary, others, nodes, assigned, w, units, ruled, first, added, -, made, rfl⟩ :=
    route_cases routed
  · rw [List.mem_singleton] at member
    subst member
    exact .inr isDefault
  · obtain ⟨⟨source, a⟩, placed, made⟩ := exists_of_forall₂ made member
    obtain ⟨⟨source, as⟩, inAssigned, inAs⟩ := List.mem_flatMap.mp placed
    obtain ⟨_, -, ⟨⟩⟩ := List.mem_map.mp inAs
    obtain rfl := unitOf_eq_ok made
    obtain ⟨node, selected, rfl⟩ := source_of_assignNodes (sources_of_foldlM added (List.mem_map_of_mem inAssigned))
    have isNode : node ∈ primary.dataNodes := nodesOf_subset first selected
    have isRuled : primary ∈ ruledTables r s := ruled ▸ List.mem_cons_self
    obtain ⟨name, -, found⟩ := List.mem_filterMap.mp isRuled
    exact .inl ⟨primary, List.mem_of_find?_eq_some found, TableRule.mem_dataSources.mpr ⟨node.table, isNode⟩⟩

end Routing

/-! ## Names of a registry -/

theorem Named.get?_cons {α : Type} (x : String × α) (xs : Named α) (name : String) :
    get? (x :: xs) name = if x.1 = name then some x.2 else xs.get? name := by
  rw [get?, List.find?_cons]
  by_cases same : x.1 = name
  · simp [same]
  · simp [same, get?]

/-- An entry is found under its name, and all others are found as before. -/
theorem Named.get?_insert {α : Type} (xs : Named α) (name other : String) (a : α) :
    (insert name a xs).get? other = if name = other then some a else xs.get? other := by
  induction xs with
  | nil => rw [insert, get?_cons]
  | cons x xs ih =>
    obtain ⟨key, b⟩ := x
    rw [insert]
    split
    · next same =>
      subst same
      simp only [get?_cons]
      split <;> rfl
    · next different =>
      split
      · rw [get?_cons]
      · simp only [get?_cons, ih]
        by_cases here : key = other
        · rw [if_pos here, if_neg fun same => different (same.trans here.symm), if_pos here]
        · rw [if_neg here, if_neg here]

namespace Sources.Registry

variable {r r' r'' : Registry} {name : String} {source : LogicalSource}

/-- Two registries have the same names. -/
def SameNames (r r' : Registry) : Prop := ∀ name, r'.contains name = r.contains name

theorem SameNames.refl (r : Registry) : SameNames r r := fun _ => rfl

theorem sameNames_insert (found : r.contains name = true) : SameNames r (Named.insert name source r) := by
  intro other
  rw [contains, contains, Named.get?_insert]
  split
  · next same => exact same ▸ found.symm
  · rfl

theorem find_eq_ok (found : r.contains name = true) : ∃ source, r.find name = .ok source := by
  obtain ⟨source, isSource⟩ := Option.isSome_iff_exists.mp found
  exact ⟨source, by rw [find, isSource]; rfl⟩

theorem contains_of_find (found : r.find name = .ok source) : r.contains name = true := by
  rw [find, elim_eq_ok_iff] at found
  rw [contains, found]
  rfl

end Sources.Registry

/-! ## Operations of a session -/

open Physical (Backend Exchange Handle Control)
open Sources (Registry LogicalSource)

/-- A failure to find a data source is the answer of some data source. -/
def Physical.Backend.Answers (b : Backend) (f : Failure) : Prop :=
  ∀ name, f = .noDataSource name → ∃ t source, b.connect t source = .error (.noDataSource name)

theorem Failure.tagged_ne (f : Failure) (source name : String) : f.tagged source ≠ .noDataSource name := by
  cases f <;> exact nofun

namespace Session

variable {b : Backend} {r : Registry} {α : Type} {P : State → Prop}

/-- The registry of a state has the names of the given one. -/
def HasNames (r : Registry) (s : State) : Prop := r.SameNames s.registry

theorem Operation.session_ends : Ends P Operation.session (fun x s => P s ∧ s.session = x) fun _ _ => False :=
  fun _ holds => ⟨holds, rfl⟩

theorem Operation.modifySession_preserves (f : Session → Session) : Preserves (HasNames r) (Operation.modifySession f) :=
  fun _ holds => holds

theorem Operation.exchange_ends {x : Exchange α} {E : Failure → Prop} (ends : Ends (fun _ => True) x (fun _ _ => True) fun f _ => E f) :
    Ends (HasNames r) (Operation.exchange x) (fun _ => HasNames r) fun f s => HasNames r s ∧ E f := by
  intro s holds
  have atEnd := ends s.traffic trivial
  rw [Operation.exchange]
  cases run : x s.traffic with
  | ok a t => exact holds
  | error f t =>
    rw [run] at atEnd
    exact ⟨holds, atEnd⟩

theorem Operation.exchange_preserves (x : Exchange α) : Preserves (HasNames r) (Operation.exchange x) := by
  refine (Operation.exchange_ends (E := fun _ => True) fun s _ => ?_).failing fun _ _ holds => holds.1
  split <;> trivial

/-- A name is looked up without a failure exactly if it is registered. -/
theorem Operation.find_ends (logical : String) : Ends (HasNames r) (Operation.find logical)
    (fun _ s => HasNames r s ∧ s.registry.contains logical = true) fun _ s => HasNames r s ∧ r.contains logical = false := by
  intro s holds
  rw [Operation.find]
  cases found : s.registry.find logical with
  | ok source => exact ⟨holds, Registry.contains_of_find found⟩
  | error f =>
    refine ⟨holds, Bool.eq_false_iff.mpr fun isName => ?_⟩
    obtain ⟨source, isSource⟩ := Registry.find_eq_ok ((holds logical).trans isName)
    cases found.symm.trans isSource

theorem Operation.select_preserves (logical : String) (source : LogicalSource) (role : Option Sources.Role) :
    Ends (fun s => HasNames r s ∧ s.registry.contains logical = true) (Operation.select b logical source role)
      (fun _ => HasNames r) fun _ _ => False :=
  fun _ ⟨holds, isName⟩ name => (Registry.sameNames_insert isName name).trans (holds name)

theorem Operation.requireOpen_ends : Ends P Operation.requireOpen (fun _ => P) fun f s => P s ∧ f = .connectionClosed := by
  refine .bind (.weaken Operation.session_ends (fun _ _ holds => holds.1) fun _ _ => False.elim) fun s => .ite ?_ ?_
  · exact .bind (Q := fun _ => P) (.throw fun _ holds => ⟨holds, rfl⟩) fun _ => .pure fun _ => id
  · exact .pure fun _ => id

theorem attempt_ends (x : Exchange α) :
    Ends (fun _ => True) (Exchange.attempt x) (fun _ _ => True) fun _ _ => False := by
  intro t _
  rw [Exchange.attempt]
  cases x t <;> trivial

/-- Opening a connection fails with the answer of its data source, or with the failure of a setting. -/
theorem openWith_ends (settings : Settings) (source : String) :
    Ends (fun _ => True) (openWith b settings source) (fun _ _ => True) fun f _ => b.Answers f := by
  have opens : Ends (fun _ => True) (b.openAt source) (fun _ _ => True) fun f _ => b.Answers f := by
    refine .bind (R := fun _ _ => True) (fun t _ => ?_) fun _ => .bind (Q := fun _ _ => True) (fun _ => id) fun _ => .pure fun _ => id
    rw [Exchange.make]
    cases answer : b.connect t source with
    | ok _ => trivial
    | error f =>
      rintro name rfl
      exact ⟨t, source, answer⟩
  have attempts {α : Type} (x : Exchange α) : Ends (fun _ => True) (Exchange.attempt x) (fun _ _ => True) fun f _ => b.Answers f :=
    (attempt_ends x).failing fun _ _ => False.elim
  refine opens.bind fun h => (attempts _).bind fun outcome => ?_
  cases outcome with
  | ok _ => exact .pure fun _ => id
  | error f =>
    refine (attempts _).bind fun _ => .throw fun _ _ name same => ?_
    exact absurd same (f.tagged_ne source name)

/-- A connection to a data source that has a name fails with its own answers only. -/
theorem getConnection_ends (logical : String) (kind : Sql.StatementKind) :
    Ends (HasNames r) (getConnection b logical kind) (fun _ => HasNames r)
      fun f s => HasNames r s ∧ (r.contains logical = true → b.Answers f) := by
  refine .bind (.failing (Operation.find_ends logical) fun f s ⟨holds, missing⟩ => ?_) fun source => ?_
  · exact ⟨holds, fun isName => Bool.noConfusion (missing.symm.trans isName)⟩
  refine .bind (.failing Operation.requireOpen_ends fun f s ⟨holds, isClosed⟩ => ?_) fun session => ?_
  · exact ⟨holds.1, fun _ name same => Failure.noConfusion (isClosed.symm.trans same)⟩
  dsimp only
  split
  · next h _ =>
    exact .bind (Q := fun _ => HasNames r) (fun _ holds => holds.1) fun _ => .pure fun _ => id
  · next cached =>
    refine .bind (.failing (Operation.select_preserves _ _ _) fun _ _ => False.elim) fun source => ?_
    refine .bind (.failing (Operation.exchange_ends (openWith_ends _ _)) fun _ _ ⟨holds, answers⟩ =>
      ⟨holds, fun _ => answers⟩) fun h => ?_
    exact .bind (Q := fun _ => HasNames r) (fun _ => id) fun _ => .pure fun _ => id

theorem getConnection_preserves (logical : String) (kind : Sql.StatementKind) : Preserves (HasNames r) (getConnection b logical kind) :=
  (getConnection_ends logical kind).failing fun _ _ => And.left

/-- What a client can do with a session by itself. -/
inductive Offered (b : Backend) : {α : Type} → Operation α → Prop
  | getConnection (logical : String) (kind : Sql.StatementKind) : Offered b (getConnection b logical kind)
  | getAllConnections (logical : String) : Offered b (getAllConnections b logical)
  | control (h : Handle) (c : Control) : Offered b (Operation.exchange (b.controlOn h c))
  | release (h : Handle) : Offered b (release b h)
  | set (setting : Physical.Setting) : Offered b (set b setting)
  | commit : Offered b (commit b)
  | rollback : Offered b (rollback b)
  | close : Offered b (close b)

theorem callOn_preserves (handles : List Handle) (c : Control) : Preserves (HasNames r) (callOn b handles c) := by
  refine (Operation.exchange_preserves _).bind fun failures => ?_
  cases Failure.collapse c.name failures with
  | ok _ => exact fun _ => id
  | error _ => exact fun _ => id

/-- Operations leave the names of the registry as they are. -/
theorem Offered.preserves {x : Operation α} (offered : Offered b x) : Preserves (HasNames r) x := by
  have session : Preserves (HasNames r) Operation.session := fun _ => id
  have isOpen : Preserves (HasNames r) Operation.requireOpen :=
    Operation.requireOpen_ends.failing fun _ _ => And.left
  have find (logical : String) : Preserves (HasNames r) (Operation.find logical) :=
    (Operation.find_ends logical).weaken (fun _ _ => And.left) fun _ _ => And.left
  have callOnAll (c : Control) : Preserves (HasNames r) (callOnAll b c) := session.bind fun s => callOn_preserves s.cache.handles c
  cases offered with
  | getConnection logical kind => exact getConnection_preserves logical kind
  | getAllConnections logical =>
    refine (find logical).bind fun source => ?_
    cases source with
    | single _ => exact (getConnection_preserves logical .select).bind fun _ => .pure
    | group g => exact isOpen.bind fun s => .mapM fun member _ => Operation.exchange_preserves _
  | control h c => exact Operation.exchange_preserves _
  | release h =>
    refine session.bind fun s => .ite ?_ .pure
    exact (Operation.modifySession_preserves _).bind fun _ => (Operation.exchange_preserves _).bind fun _ => .pure
  | set setting => exact isOpen.bind fun _ => (Operation.modifySession_preserves _).bind fun _ => callOnAll _
  | commit => exact callOnAll _
  | rollback => exact callOnAll _
  | close =>
    refine session.bind fun s => .ite ?_ .pure
    exact (Operation.modifySession_preserves _).bind fun _ => callOn_preserves _ _

end Session

/-! ## Clients of a database -/

namespace Client

open Routing (Rule RouteResult Configuration Expressions KeySource)
open Execution (Observer Engine)

variable {b : Backend} {r : Registry} {S α : Type}

/-- The registry of a state has the names of the given one. -/
def State.HasNames (r : Registry) (s : State S) : Prop := r.SameNames s.database.registry

namespace Action

theorem onSession_ends {x : Session.Operation α} {E : Failure → Prop}
    (ends : Ends (Session.HasNames r) x (fun _ => Session.HasNames r) fun f s => Session.HasNames r s ∧ E f) :
    Ends (State.HasNames r) (onSession x : Action S α) (fun _ => State.HasNames r) fun f s => s.HasNames r ∧ E f := by
  intro s holds
  have atEnd := ends ⟨s.session, s.database.registry, s.traffic⟩ holds
  rw [onSession]
  cases run : x ⟨s.session, s.database.registry, s.traffic⟩ with
  | ok a t =>
    rw [run] at atEnd
    exact atEnd
  | error f t =>
    rw [run] at atEnd
    exact atEnd

theorem onSession_preserves {x : Session.Operation α} (preserves : Preserves (Session.HasNames r) x) :
    Preserves (State.HasNames r) (onSession x : Action S α) := by
  refine (onSession_ends (E := fun _ => True) ?_).failing fun _ _ => And.left
  exact preserves.failing fun _ _ holds => ⟨holds, trivial⟩

theorem onEngine_preserves (x : Engine.Action α) : Preserves (State.HasNames r) (onEngine x : Action S α) := by
  intro s holds
  rw [onEngine]
  cases x ⟨s.database.engine, s.traffic⟩ <;> exact holds

theorem onRouter_preserves (x : Routing.Router → Outcome α × Routing.Router) :
    Preserves (State.HasNames r) (onRouter x : Action S α) := by
  intro s holds
  rw [onRouter]
  cases x s.database.router with
  | mk outcome router => cases outcome <;> exact holds

theorem modifyStatement_preserves (f : S → S) : Preserves (State.HasNames r) (modifyStatement f) := fun _ holds => holds

end Action

/-- Binding units whose data sources have names fails with answers of data sources only. -/
theorem bind_ends {result : RouteResult} (registered : ∀ u ∈ result.units, r.contains u.dataSource = true) :
    Ends (State.HasNames r) (bind b result : Action S _) (fun _ => State.HasNames r) fun f s => s.HasNames r ∧ b.Answers f := by
  refine .mapM fun u member => .bind (Action.onSession_ends ?_) fun _ => .pure fun _ => id
  refine (Session.getConnection_ends u.dataSource result.kind).failing fun f s ⟨holds, answers⟩ => ?_
  exact ⟨holds, answers (registered u member)⟩

/-- What a client can do with a session, with a plain statement and with a prepared one. -/
inductive Offered (b : Backend) : {S α : Type} → Action S α → Prop
  | session {S α : Type} {x : Session.Operation α} : Session.Offered b x → Offered b (Action.onSession x : Action S α)
  | plainQuery (sql : String) : Offered b (PlainStatement.query b sql)
  | plainUpdate (sql : String) (keys : Physical.GeneratedKeys) : Offered b (PlainStatement.update b sql keys)
  | plainExecute (sql : String) : Offered b (PlainStatement.execute b sql)
  | query : Offered b (PreparedStatement.query b)
  | update (keys : Physical.GeneratedKeys) : Offered b (PreparedStatement.update b keys)
  | execute : Offered b (PreparedStatement.execute b)
  | addBatch : Offered b PreparedStatement.addBatch
  | executeBatch : Offered b (PreparedStatement.executeBatch b)

/-- A property of states that the parts of actions keep. -/
structure KeptByParts (b : Backend) (I : State S → Prop) : Prop where
  session : ∀ {α : Type} {x : Session.Operation α}, Session.Offered b x → Preserves I (Action.onSession x)
  engine : ∀ {α : Type} {x : Engine.Action α}, Execution.OnlyAdds x → Preserves I (Action.onEngine x)
  router : ∀ {α : Type} (x : Routing.Router → Outcome α × Routing.Router), Preserves I (Action.onRouter x)
  statement : ∀ f, Preserves I (Action.modifyStatement f)

theorem KeptByParts.keepsKey {I : State S → Prop} (kept : KeptByParts b I) {x : Action S RouteResult} (routes : Preserves I x)
    (keep : RouteResult → S → S) :
    Preserves I (do
      let result ← x
      Action.modifyStatement (keep result)
      return result) :=
  routes.bind fun _ => (kept.statement _).bind fun _ => .pure

theorem KeptByParts.route {I : State PreparedStatement → Prop} (kept : KeptByParts b I) : Preserves I PreparedStatement.route := by
  have statement : Preserves I (Action.statement : Action PreparedStatement PreparedStatement) := fun _ holds => holds
  refine statement.bind fun p => .ite ?_ (kept.router _)
  exact Preserves.throw.bind fun _ => kept.router _

/-- What the parts keep, all that clients do keeps. -/
theorem Offered.keeps {I : State S → Prop} (kept : KeptByParts b I) {x : Action S α} (offered : Offered b x) : Preserves I x := by
  have statement : Preserves I (Action.statement : Action S S) := fun _ holds => holds
  have connects (logical : String) (kind : Sql.StatementKind) : Preserves I (Action.onSession (Session.getConnection b logical kind)) :=
    kept.session (.getConnection logical kind)
  have binds (result : RouteResult) : Preserves I (bind b result) := .mapM fun _ _ => (connects _ _).bind fun _ => .pure
  have runQuery (context : Execution.Context) (result : RouteResult) : Preserves I (runQuery b context result) :=
    (binds result).bind fun _ => (kept.engine Execution.query_onlyAdds).bind fun _ => .pure
  have runUpdate (context : Execution.Context) (result : RouteResult) (keys : Physical.GeneratedKeys) :
      Preserves I (runUpdate b context result keys) := (binds result).bind fun _ => kept.engine (Execution.update_onlyAdds keys)
  have runExecute (context : Execution.Context) (result : RouteResult) : Preserves I (runExecute b context result) :=
    (binds result).bind fun _ => kept.engine Execution.executeStatement_onlyAdds
  cases offered with
  | session offered => exact kept.session offered
  | plainQuery sql => exact (kept.router _).bind fun _ => statement.bind fun _ => runQuery _ _
  | plainUpdate sql keys => exact (kept.keepsKey (kept.router _) _).bind fun _ => statement.bind fun _ => runUpdate _ _ _
  | plainExecute sql => exact (kept.keepsKey (kept.router _) _).bind fun _ => statement.bind fun _ => runExecute _ _
  | query => exact kept.route.bind fun _ => statement.bind fun _ => runQuery _ _
  | update keys => exact (kept.keepsKey kept.route _).bind fun _ => statement.bind fun _ => runUpdate _ _ _
  | execute => exact (kept.keepsKey kept.route _).bind fun _ => statement.bind fun _ => runExecute _ _
  | addBatch => exact kept.route.bind fun _ => kept.statement _
  | executeBatch =>
    refine statement.bind fun p => (kept.statement _).bind fun _ => .ite .pure ?_
    exact .bind (.mapM fun _ _ => (connects _ _).bind fun _ => .pure) fun _ => kept.engine (Execution.batch_onlyAdds _)

/-- Clients leave the names of the registry as they are. -/
theorem Offered.preserves {x : Action S α} (offered : Offered b x) : Preserves (State.HasNames r) x :=
  offered.keeps {
    session := fun offered => Action.onSession_preserves offered.preserves
    engine := fun _ => Action.onEngine_preserves _
    router := Action.onRouter_preserves
    statement := Action.modifyStatement_preserves }

/-- The servers that the clients of a database lead to. -/
inductive Server.Reached (b : Backend) (d : Database) : Server → Prop
  | start : Reached b d (.of d)
  | openSession {s : Server} : Reached b d s → Reached b d s.openSession.2
  | act {s : Server} {S α : Type} {x : Action S α} (id : Nat) (statement : S) :
    Offered b x → Reached b d s → Reached b d (s.act id statement x).2.2
  | resetMonitors {s : Server} : Reached b d s → Reached b d s.resetMonitors
  | shutdown {s : Server} : Reached b d s → Reached b d s.shutdown.2

theorem Server.Reached.sameNames {d : Database} {s : Server} (reached : Reached b d s) :
    d.registry.SameNames s.database.registry := by
  induction reached with
  | start => exact .refl _
  | openSession _ ih => exact ih
  | resetMonitors _ ih => exact ih
  | shutdown _ ih => exact ih
  | @act s _ _ x id statement offered _ ih =>
    have atEnd := offered.preserves ⟨s.session id, s.database, s.traffic, statement⟩ ih
    rw [Server.act]
    cases run : x ⟨s.session id, s.database, s.traffic, statement⟩ with
    | ok _ t | error _ t =>
      rw [run] at atEnd
      exact atEnd

/-- The data sources that an opened database needs are registered. -/
theorem contains_of_open {rule : Rule} {registry : Registry} {properties : Properties} {keys : KeySource}
    {observers : List Observer} {workers : Nat} {d : Database}
    (opened : Database.of rule registry properties keys observers workers = .ok d) :
    d.registry = registry ∧ ∀ name ∈ Database.requiredSources rule, registry.contains name = true := by
  rw [Database.of] at opened
  split at opened
  · cases opened
  · next none =>
    cases opened
    exact ⟨rfl, fun name member => by simpa using List.find?_eq_none.mp none name member⟩

/-- A database that was opened with the rule of a configuration: every unit of a statement that could be routed lies in a
registered data source. Whatever clients did before, binding the units fails with a missing data source only if a
data source itself answers so when a connection to it is opened; no name is looked up in vain. -/
theorem bind_finds_sources {c : Configuration} {expressions : Expressions} {rule : Rule} {registry : Registry}
    {properties : Properties} {keys : KeySource} {observers : List Observer} {workers : Nat} {d : Database}
    {s : Sql.Statement} {sql : String} {parameters : List Value} {key : Value} {result : RouteResult} {server : Server}
    (built : c.rule expressions = .ok rule) (opened : Database.of rule registry properties keys observers workers = .ok d)
    (routed : Routing.route rule s sql parameters key = .ok result) (reached : server.Reached b d) (id : Nat) (statement : S) :
    (∀ u ∈ result.units, registry.contains u.dataSource = true ∧ server.database.registry.contains u.dataSource = true) ∧
      ∀ name, (server.act id statement (bind b result)).1 = .error (.noDataSource name) →
        ∃ t source, b.connect t source = .error (.noDataSource name) := by
  obtain ⟨rfl, required⟩ := contains_of_open opened
  have registered : ∀ u ∈ result.units, d.registry.contains u.dataSource = true := by
    intro u member
    refine required _ (List.mem_append.mpr ?_)
    rcases Routing.dataSource_of_route routed member with ⟨t, isTable, lies⟩ | isDefault
    · exact .inl (Configuration.listsSources built t isTable lies)
    · exact .inr (Option.mem_toList.mpr isDefault)
  refine ⟨fun u member => ⟨registered u member, (reached.sameNames _).trans (registered u member)⟩, fun name failed => ?_⟩
  have atEnd := bind_ends (b := b) registered ⟨server.session id, server.database, server.traffic, statement⟩ reached.sameNames
  rw [Server.act] at failed
  cases run : bind b result ⟨server.session id, server.database, server.traffic, statement⟩ with
  | ok units t =>
    rw [run] at failed
    cases failed
  | error f t =>
    rw [run] at failed atEnd
    exact atEnd.2 name (Except.error.inj failed)

/-- Orders in two data sources, and everything else in a third one. -/
def ordersInTwoSources : Configuration where
  defaultDataSource := some "ds_d"
  dataSources := []
  tables := [{
    logicTable := "orders"
    actualDataNodes := some "ds_$\x7b0..1\x7d.orders"
    databaseStrategy := none
    tableStrategy := none
    generatedKeyColumn := none }]
  bindingTables := []
  defaultDatabaseStrategy := none
  defaultTableStrategy := none

/-- Those data sources, of which one is a group. -/
def threeSources : Registry :=
  [("ds_0", .single "ds_0"), ("ds_1", .group ⟨"ds_1", "m", ["a", "b"], .roundRobin, 0⟩), ("ds_d", .single "ds_d")]

/-- Data sources that do what they are asked. -/
def willingBackend : Backend where
  connect _ _ := .ok ()
  control _ _ _ := .ok ()
  query _ _ _ _ := .ok ⟨[], []⟩
  update _ _ _ _ _ := .ok 0
  execute _ _ _ _ := .ok false
  batch _ _ _ _ := .ok []
  now _ := 0
  chance _ := 0

/-- The database of that rule over those data sources. -/
def ordersDatabase : Database where
  router := {
    rule := {
      dataSources := ["ds_0", "ds_1", "ds_d"]
      defaultDataSource := some "ds_d"
      tables := [⟨"orders", [⟨"ds_0", "orders"⟩, ⟨"ds_1", "orders"⟩], none, none, none⟩]
      bindingGroups := [] }
    dialect := .mysql
    keys := .listed [] 0 }
  registry := threeSources
  engine := .new 1 5000 []
  properties := .default

/-- A client has read from the group before; the units of another one are bound without a missing data source. -/
theorem bind_finds_sources_orders : ∃ s units server,
    ordersInTwoSources.rule [] = .ok ordersDatabase.router.rule ∧
    Database.of ordersDatabase.router.rule threeSources .default (.listed [] 0) [] 1 = .ok ordersDatabase ∧
    Sql.parse .mysql "SELECT * FROM orders" = .ok s ∧
    Routing.route ordersDatabase.router.rule s "SELECT * FROM orders" [] .null = .ok ⟨.select, units, none, none⟩ ∧
    units = [⟨"ds_0", "SELECT * FROM orders", []⟩, ⟨"ds_1", "SELECT * FROM orders", []⟩] ∧
    Server.Reached willingBackend ordersDatabase server ∧ server.sessions.length = 2 ∧
    (∀ u ∈ units, threeSources.contains u.dataSource = true ∧ server.database.registry.contains u.dataSource = true) ∧
    ∀ name, (server.act 1 () (bind willingBackend ⟨.select, units, none, none⟩)).1 ≠ .error (.noDataSource name) := by
  have drafted : Sql.draft? .mysql "SELECT * FROM orders" =
      some (⟨.select, ⟨[⟨"orders", none⟩]⟩, .empty, [.table ⟨14, 20⟩ "orders" none], 0, none, [], 0, []⟩, 0) := by
    decide +kernel
  have built : ordersInTwoSources.rule [] = .ok ordersDatabase.router.rule := by cbv
  have opened : Database.of ordersDatabase.router.rule threeSources .default (.listed [] 0) [] 1 = .ok ordersDatabase := by cbv
  have routed : Routing.route ordersDatabase.router.rule
      (Sql.Statement.finish ⟨.select, ⟨[⟨"orders", none⟩]⟩, .empty, [.table ⟨14, 20⟩ "orders" none], 0, none, [], 0, []⟩ 0)
      "SELECT * FROM orders" [] .null =
        .ok ⟨.select, [⟨"ds_0", "SELECT * FROM orders", []⟩, ⟨"ds_1", "SELECT * FROM orders", []⟩], none, none⟩ := by cbv
  have twoClients : Server.Reached willingBackend ordersDatabase (Server.of ordersDatabase).openSession.2.openSession.2 :=
    .openSession (.openSession .start)
  have hasRead := twoClients.act 0 () (.session (.getConnection "ds_1" .select))
  have finds := bind_finds_sources built opened routed hasRead 1 ()
  refine ⟨_, _, _, built, opened, Sql.parse_of_draft drafted, routed, rfl, hasRead, by cbv, finds.1, fun name failed => ?_⟩
  obtain ⟨_, _, answer⟩ := finds.2 name failed
  cases answer

end Client

end SqlSharding
