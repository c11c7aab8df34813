import SqlSharding.Proofs.ConnectionPlaces
import SqlSharding.Proofs.KeptConnections

/-!
# The members that serve a session

A session reads from slaves until it has got a connection to write to a group. From then on all its requests go to masters,
those of other groups as well, whatever is given back and whatever fails in between (`member_of_run`).
-/

namespace SqlSharding.Session

open Physical (Backend Handle)
open Sources (Registry LogicalSource Role Group)

variable {s t : State} {request : Request} {outcome : Outcome (List Handle)} {logical : String} {kind : Sql.StatementKind}
  {found : Outcome Handle} {c : Handle} {g : Group}

/-! ## The memory of writes -/

theorem Gets.of_hasWritten (gets : Gets s logical kind found t) (written : t.session.hasWritten = true) :
    s.session.hasWritten = true ∨ kind.isWrite = true ∧ ∃ g c, s.registry.find logical = .ok (.group g) ∧ found = .ok c := by
  cases found with
  | error f => exact .inl (gets.session_of_error ▸ written)
  | ok c =>
    rw [gets.hasWritten_eq, Bool.or_eq_true, Bool.and_eq_true, Registry.hasGroup_iff] at written
    exact written.imp_right fun ⟨writes, g, isGroup⟩ => ⟨writes, g, c, isGroup, rfl⟩

/-- A session that has written remembers it until it is closed. -/
def RemembersWrite (x : Session) : Prop := x.hasWritten = true ∨ x.isClosed = true

theorem Served.remembersWrite (served : Served s request outcome t) (before : s.session.RemembersWrite) :
    t.session.RemembersWrite := by
  cases served with
  | got gets | single _ gets =>
    cases gets with
    | cached _ _ _ | opened _ _ _ _ _ _ => exact before.imp (by simp +contextual) (by simp)
    | _ => exact before
  | closed _ _ _ => exact .inr rfl
  | _ => exact before

/-- A client gets a connection to write to a group. -/
def Event.WritesToGroup (r : Registry) (e : Event) : Prop :=
  ∃ logical kind g c, e.request = .getConnection logical kind ∧ kind.isWrite = true ∧ r.find logical = .ok (.group g) ∧
    e.outcome = .ok [c]

theorem Event.IsServed.writesToGroup {e : Event} {r : Registry} (served : e.IsServed) (same : r.SameMembers e.before.registry)
    (written : e.after.session.hasWritten = true) : e.before.session.hasWritten = true ∨ e.WritesToGroup r := by
  obtain ⟨request, s, outcome, t⟩ := e
  have served : Served s request outcome t := served
  cases served with
  | got gets =>
    rcases gets.of_hasWritten written with before | ⟨writes, g, c, isGroup, rfl⟩
    · exact .inl before
    · obtain ⟨g', isGroup', -⟩ := same.symm.find_group isGroup
      exact .inr ⟨_, _, g', c, rfl, writes, isGroup', rfl⟩
  | single _ gets => exact .inl ((gets.of_hasWritten written).resolve_right fun ⟨writes, _⟩ => Bool.noConfusion writes)
  | closed _ _ _ => cases written
  | _ => exact .inl written

variable {b : Backend} {r r' : Registry} {h h₁ h₂ : List Event} {e : Event} {key key' : CacheKey}

theorem Run.remembersWrite (run : Run b r h s) (happened : e ∈ h) (writes : e.WritesToGroup r) : s.session.RemembersWrite := by
  obtain ⟨h₁, h₂, rfl⟩ := List.append_of_mem happened
  obtain ⟨logical, kind, g, c, asks, isWrite, isGroup, gave⟩ := writes
  have isGroup : e.before.registry.hasGroup logical = true :=
    (run.before.1.sameMembers.hasGroup_eq logical).trans (Registry.hasGroup_iff.mpr ⟨g, isGroup⟩)
  have remembered : e.after.session.RemembersWrite := by
    refine .inl ?_
    rw [(run.served.gives asks gave).hasWritten_eq, isWrite, isGroup]
    exact Bool.or_true _
  exact run.since remembered fun _ _ served => served.remembersWrite

theorem Run.exists_write (run : Run b r h s) (written : s.session.hasWritten = true) : ∃ e ∈ h, e.WritesToGroup r := by
  refine run.invariant (P := fun h s => s.session.hasWritten = true → ∃ e ∈ h, e.WritesToGroup r) nofun ?_ ?_ written
  · intro h e run served before written
    rcases served.writesToGroup run.sameMembers written with written | writes
    · obtain ⟨earlier, happened, writes⟩ := before written
      exact ⟨earlier, List.mem_append_left _ happened, writes⟩
    · exact ⟨e, List.mem_append_right _ List.mem_cons_self, writes⟩
  · exact fun _ _ _ _ before => before

/-! ## The members behind cached connections -/

theorem Serves.of_sameMembers {dataSource : String} (same : r.SameMembers r') (serves : Serves r' key dataSource) :
    Serves r key dataSource := by
  obtain ⟨source', isSource', serves⟩ := serves
  obtain ⟨source, isSource, alike⟩ := same.symm.find isSource'
  refine ⟨source, isSource, ?_⟩
  rwa [← LogicalSource.serves_rested, alike, LogicalSource.serves_rested]

/-- A connection that comes to the cache was opened at a data source that its key stands for. -/
theorem Served.serves (served : Served s request outcome t) {entry : CacheKey × Handle} (member : entry ∈ t.session.cache) :
    entry ∈ s.session.cache ∨ Serves s.registry entry.1 entry.2.dataSource := by
  cases served with
  | got gets | single _ gets =>
    cases gets with
    | cached _ _ _ => exact .inl (by simpa using member)
    | @opened key h _ _ _ _ absent serves _ _ =>
      rcases List.mem_cons.mp ((Cache.insert_perm h absent).mem_iff.mp member) with rfl | before
      · exact .inr serves
      · exact .inl before
    | _ => exact .inl member
  | released _ _ => exact .inl (List.mem_of_mem_eraseP member)
  | closed _ _ _ => cases member
  | _ => exact .inl member

theorem Run.cache_serves (run : Run b r h s) : ∀ entry ∈ s.session.cache, Serves r entry.1 entry.2.dataSource := by
  refine run.invariant (P := fun _ s => ∀ entry ∈ s.session.cache, Serves r entry.1 entry.2.dataSource) nofun ?_ ?_
  · intro h e run served before entry member
    rcases Served.serves served member with cached | serves
    · exact before entry cached
    · exact serves.of_sameMembers run.sameMembers
  · exact fun _ _ _ _ before => before

/-- A connection is cached under one key only. -/
theorem Placed.eq_of_get? (placed : Placed h s) (hit : s.session.cache.get? key = some c)
    (hit' : s.session.cache.get? key' = some c) : key = key' := by
  have apart : s.session.cache.handles.Nodup := (placed.perm.nodup_iff.mp placed.nodup).of_append_left
  have same := List.inj_on_of_nodup_map apart (Cache.mem_of_get? hit) (Cache.mem_of_get? hit') rfl
  exact congrArg Prod.fst same

/-! ## The members that serve requests -/

/-- A request for a connection to a group was served by the member of a role: the session keeps the connection for this
role, and for nothing else. -/
def Event.ServedAs (e : Event) (logical : String) (role : Role) (c : Handle) : Prop :=
  ∀ key, e.after.session.cache.get? key = some c ↔ key = ⟨logical, some role⟩

/-- What a client gets of a group is a connection of the session to a member of the role that the statement has to go to. -/
theorem Run.servedAs (run : Run b r (h₁ ++ e :: h₂) s) (asks : e.request = .getConnection logical kind)
    (isGroup : r.find logical = .ok (.group g)) (gave : e.outcome = .ok [c]) :
    e.before.session.isClosed = false ∧ c ∈ opened (h₁ ++ [e]) ∧
      e.ServedAs logical (g.roleFor kind e.before.session.hasWritten) c ∧
      (LogicalSource.group g).Serves (some (g.roleFor kind e.before.session.hasWritten)) c.dataSource := by
  have gets := run.served.gives asks gave
  obtain ⟨g', isGroup', -, slaves⟩ := run.before.1.sameMembers.find_group isGroup
  have role : g'.roleFor kind e.before.session.hasWritten = g.roleFor kind e.before.session.hasWritten := by
    rw [Group.roleFor, Group.roleFor, slaves]
  have kept := gets.cached_after (State.keyFor?_of_find isGroup')
  rw [LogicalSource.roleFor, role] at kept
  have placed := run.through.placed
  obtain ⟨source, isSource, serves⟩ := run.through.cache_serves _ (Cache.mem_of_get? kept.2)
  obtain rfl := Except.ok.inj (isSource.symm.trans isGroup)
  exact ⟨gets.isOpen, placed.cached (Cache.mem_handles_of_get? kept.2),
    fun key => ⟨fun hit => placed.eq_of_get? hit kept.2, fun same => same ▸ kept.2⟩, serves⟩

/-- Once a session has got a connection to write to some group, whatever it gets of any group is a connection that it opened
at the master. Before that, what it gets to read from a group with slaves is a connection to a slave. -/
theorem member_of_run (run : Run b r (h₁ ++ e :: h₂) s) (asks : e.request = .getConnection logical kind)
    (isGroup : r.find logical = .ok (.group g)) (gave : e.outcome = .ok [c]) :
    c ∈ opened (h₁ ++ [e]) ∧
      ((∃ w ∈ h₁, w.WritesToGroup r) → c.dataSource = g.master ∧ e.ServedAs logical .master c) ∧
      ((∀ w ∈ h₁, ¬ w.WritesToGroup r) → kind.isWrite = false → g.slaves ≠ [] →
        c.dataSource ∈ g.slaves ∧ e.ServedAs logical .slave c ∧ ¬ e.ServedAs logical .master c) := by
  obtain ⟨isOpen, isOpened, servedAs, serves⟩ := run.servedAs asks isGroup gave
  have before := run.before.1
  refine ⟨isOpened, fun ⟨w, happened, writes⟩ => ?_, fun none reads hasSlaves => ?_⟩
  · have written : e.before.session.hasWritten = true :=
      (before.remembersWrite happened writes).resolve_right (by simp [isOpen])
    have role : g.roleFor kind e.before.session.hasWritten = .master := by simp [Group.roleFor, written]
    rw [role] at servedAs serves
    exact ⟨serves, servedAs⟩
  · have unwritten : e.before.session.hasWritten = false := by
      by_contra written
      obtain ⟨w, happened, writes⟩ := before.exists_write (Bool.not_eq_false _ ▸ written)
      exact none w happened writes
    have role : g.roleFor kind e.before.session.hasWritten = .slave := by
      simp [Group.roleFor, reads, unwritten, hasSlaves]
    rw [role] at servedAs serves
    refine ⟨serves, servedAs, fun master => ?_⟩
    cases (master ⟨logical, some .slave⟩).mp ((servedAs _).mpr rfl)

/-- A read, a write that fails, another write and a release. -/
def readThenWritten : List Request :=
  [.getConnection "ds_1" .select, .getConnection "ds_0" .insert, .getConnection "ds_1" .insert, .release ⟨"m", 1⟩]

/-- The first read goes to a slave; a read after the requests goes to the master, though its connection was given back. -/
theorem member_of_run_released : ∃ first h₁ e s,
    Run (refusingBackend "ds_0") Client.threeSources (first :: h₁ ++ [e]) s ∧
      (first :: h₁).map (·.request) = readThenWritten ∧ e.request = .getConnection "ds_1" .select ∧
      (first :: h₁).map (·.outcome) =
        [.ok [⟨"a", 1⟩], .error (.physical "ds_0" "connect refused"), .ok [⟨"m", 1⟩], .ok []] ∧ e.outcome = .ok [⟨"m", 2⟩] ∧
      first.ServedAs "ds_1" .slave ⟨"a", 1⟩ ∧ e.ServedAs "ds_1" .master ⟨"m", 2⟩ := by
  have run : Run (refusingBackend "ds_0") Client.threeSources _ _ :=
    ((Run.start []).serves readThenWritten).serve (.getConnection "ds_1" .select)
  have fromFirst : Run (refusingBackend "ds_0") Client.threeSources ([] ++ _ :: _) _ := run
  refine ⟨_, _, _, _, run, by cbv, by cbv, by cbv, by cbv, ?_, ?_⟩
  · exact ((member_of_run fromFirst rfl rfl (by cbv)).2.2 (by simp) rfl (by simp)).2.1
  · refine ((member_of_run run rfl rfl (by cbv)).2.1 ⟨_, List.mem_of_getElem? (i := 2) rfl, ?_⟩).2
    exact ⟨"ds_1", .insert, _, ⟨"m", 1⟩, rfl, rfl, rfl, by cbv⟩

end SqlSharding.Session
