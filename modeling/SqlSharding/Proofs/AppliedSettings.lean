import SqlSharding.Proofs.CallsOnAll

/-!
# Settings of cached connections

The settings of a session come to a connection on two ways: those that were made before it was opened are made again when
it is opened, and later ones are made on all connections that are cached by then. On either way every cached connection gets
the last value of each setting as its last one (`applied_of_run`).
-/

namespace SqlSharding

namespace Physical

namespace Setting

def autoCommit? : Setting → Option Bool
  | autoCommit on => some on
  | _ => none

def readOnly? : Setting → Option Bool
  | readOnly on => some on
  | _ => none

def isolation? : Setting → Option Isolation
  | isolation level => some level
  | _ => none

end Setting

namespace Traffic

variable {calls : Traffic} {c : Handle}

/-- The settings that were made on a connection without a failure, the first one first. -/
def appliedOn (calls : Traffic) (c : Handle) : List Setting :=
  settingsOn (calls.filter fun e => e.failure.isNone) c

theorem settingsOn_eq_filterMap : calls.settingsOn c = (calls.map (·.call)).filterMap (Call.setOn? c) := by
  rw [List.filterMap_map]
  rfl

/-- No call that makes a setting on a connection failed. -/
def AllSetOn (calls : Traffic) (c : Handle) : Prop := ∀ e ∈ calls, (e.call.setOn? c).isSome = true → e.failure = none

instance : Decidable (calls.AllSetOn c) :=
  inferInstanceAs (Decidable (∀ e ∈ calls, (e.call.setOn? c).isSome = true → e.failure = none))

theorem appliedOn_eq (allSet : calls.AllSetOn c) : calls.appliedOn c = calls.settingsOn c := by
  induction calls with
  | nil => rfl
  | cons e rest ih =>
    have inner := ih fun e' member => allSet e' (List.mem_cons_of_mem e member)
    unfold appliedOn settingsOn at inner ⊢
    rw [List.filter_cons]
    split
    · rw [List.filterMap_cons, List.filterMap_cons, inner]
    · next failed =>
      have notSet : e.call.setOn? c = none := by
        by_contra isSet
        have unfailed := allSet e List.mem_cons_self (Option.isSome_iff_ne_none.mpr isSet)
        exact failed (by rw [unfailed]; rfl)
      rw [List.filterMap_cons, notSet, inner]

end Traffic

end Physical

namespace Session

open Physical (Backend Handle Traffic Setting Control Call)
open Sources (Registry)

/-! ## Recorded settings -/

namespace Settings

theorem foldl_made (x : Settings) : x.made.foldl record empty = x := by
  obtain ⟨autoCommit, readOnly, isolation⟩ := x
  cases autoCommit <;> cases readOnly <;> cases isolation <;> rfl

/-- What is recorded of one kind of settings is the last value that was made, or what was recorded before. -/
theorem foldl_record {α : Type} {recorded : Settings → Option α} {value? : Setting → Option α}
    (records : ∀ x setting, recorded (record x setting) = (value? setting).or (recorded x)) (made : List Setting) (x : Settings) :
    recorded (made.foldl record x) = (made.filterMap value?).getLast?.or (recorded x) := by
  induction made generalizing x with
  | nil => rfl
  | cons setting rest ih =>
    rw [List.foldl_cons, ih, records, List.filterMap_cons]
    cases value? setting with
    | none => rfl
    | some a => cases last : (rest.filterMap value?).getLast? <;> simp [List.getLast?_cons, last]

theorem record_autoCommit (x : Settings) (setting : Setting) :
    (record x setting).autoCommit = setting.autoCommit?.or x.autoCommit := by cases setting <;> rfl

theorem record_readOnly (x : Settings) (setting : Setting) :
    (record x setting).readOnly = setting.readOnly?.or x.readOnly := by cases setting <;> rfl

theorem record_isolation (x : Settings) (setting : Setting) :
    (record x setting).isolation = setting.isolation?.or x.isolation := by cases setting <;> rfl

end Settings

/-! ## One request -/

section

variable {s t : State} {request : Request} {outcome : Outcome (List Handle)} {control : Control} {calls : Traffic}
  {handles : List Handle} {c : Handle} {e : Event}

theorem Served.settings_eq (served : Served s request outcome t) (asks : request.control? = some control)
    (isOpen : s.session.isClosed = false) : t.session.settings = control.setting?.toList.foldl Settings.record s.session.settings := by
  cases served with
  | got _ | missing _ | single _ _ | refused _ _ | openedAll _ _ _ _ | failedAll _ _ _ | passed _ | released _ _ => cases asks
  | unset isClosed | closedBefore isClosed => cases isOpen.symm.trans isClosed
  | set _ _ _ | committed _ _ | rolledBack _ _ | closed _ _ _ =>
    obtain rfl := Option.some.inj asks
    rfl

/-- A setting that is made on all connections is made on each of them once. -/
theorem CallsEach.settingsOn_eq (each : CallsEach control handles calls outcome) (distinct : handles.Nodup) (member : c ∈ handles) :
    calls.settingsOn c = control.setting?.toList := by
  have once (handles : List Handle) (distinct : handles.Nodup) :
      (handles.map (Call.control · control)).filterMap (Call.setOn? c) = if c ∈ handles then control.setting?.toList else [] := by
    induction handles with
    | nil => rfl
    | cons h rest ih =>
      obtain ⟨new, distinct⟩ := List.nodup_cons.mp distinct
      rw [List.map_cons, List.filterMap_cons, ih distinct]
      by_cases same : h = c
      · subst same
        rw [if_neg new, if_pos List.mem_cons_self]
        simp only [Call.setOn?, if_pos]
        cases control.setting? <;> rfl
      · have mem_iff : c ∈ h :: rest ↔ c ∈ rest := by simp [Ne.symm same]
        simp only [Call.setOn?, if_neg same, mem_iff]
  rw [Traffic.settingsOn_eq_filterMap, each.each, once handles distinct, if_pos member]

theorem CallsEach.call_eq (each : CallsEach control handles calls outcome) {x : Physical.Entry} (member : x ∈ calls) :
    ∃ h ∈ handles, x.call = .control h control := by
  have isCall : x.call ∈ handles.map (Call.control · control) := each.each ▸ List.mem_map_of_mem member
  obtain ⟨h, cached, same⟩ := List.mem_map.mp isCall
  exact ⟨h, cached, same.symm⟩

theorem Event.IsServed.traffic_eq (served : e.IsServed) : e.after.traffic = e.before.traffic ++ e.calls := by
  obtain ⟨calls, whole, -⟩ := served.deals
  rw [Event.calls_eq whole, whole]

/-- A connection that is cached after a request was cached before, or the request opened it and left it open. -/
theorem Event.IsServed.cached_after (served : e.IsServed) (distinct : e.before.session.cache.handles.Nodup)
    (known : ∀ c ∈ e.before.session.cache.handles, c.number ≤ e.before.traffic.opened c.dataSource)
    (cached : c ∈ e.after.session.cache.handles) :
    c ∈ e.before.session.cache.handles ∨ (c ∈ e.opened ∧ c ∉ e.closed) := by
  have moves := served.moves known
  have apart : (e.before.session.cache.handles ++ e.opened).Nodup := by
    refine distinct.append served.deals.nodup fun c old new => ?_
    exact Nat.not_lt_of_le (known c old) (served.deals.number_lt new).1
  have from_ := moves.mem_iff.mpr (List.mem_append_left _ cached)
  rcases List.mem_append.mp from_ with old | new
  · exact .inl old
  · refine .inr ⟨new, fun closed => ?_⟩
    have after := List.nodup_append.mp (moves.nodup_iff.mp apart)
    exact after.2.2 c cached c (List.mem_append_left _ closed) rfl

end

/-! ## A whole history -/

/-- The calls that were made to serve the requests of a history. -/
def calls (h : List Event) : Traffic := h.flatMap Event.calls

/-- The cached connections have the recorded settings. -/
structure Synced (h : List Event) (s : State) : Prop where
  /-- No connection that is yet to be opened was called. -/
  known : ∀ e ∈ calls h, ∀ c, e.call.connection? = some c → c.number ≤ s.traffic.opened c.dataSource
  synced : ∀ c ∈ s.session.cache.handles, ((calls h).settingsOn c).foldl Settings.record .empty = s.session.settings

variable {b : Backend} {r : Registry} {h : List Event} {e : Event} {s : State} {c : Handle}

theorem calls_concat (h : List Event) (e : Event) : calls (h ++ [e]) = calls h ++ e.calls := by simp [calls]

namespace Synced

theorem start (t : Traffic) : Synced [] ⟨.new, r, t⟩ := ⟨nofun, nofun⟩

theorem settingsOn_new (synced : Synced h s) (new : s.traffic.opened c.dataSource < c.number) : (calls h).settingsOn c = [] := by
  refine Traffic.settingsOn_eq_nil fun e member here => ?_
  have old := synced.known e member c here
  omega

/-- Calls were made on connections that were there, and those that are cached were there before. -/
theorem serve_controls (synced : Synced h e.before) (served : e.IsServed)
    (onCached : ∀ x ∈ e.calls, ∃ c ∈ e.before.session.cache.handles, x.call.connection? = some c)
    (known : ∀ c ∈ e.before.session.cache.handles, c.number ≤ e.before.traffic.opened c.dataSource)
    (distinct : e.before.session.cache.handles.Nodup)
    (records : ∀ c ∈ e.before.session.cache.handles,
      (e.calls.settingsOn c).foldl Settings.record e.before.session.settings = e.after.session.settings) :
    Synced (h ++ [e]) e.after where
  known := by
    intro x member c here
    rw [calls_concat, List.mem_append] at member
    refine Nat.le_trans ?_ (served.deals.opened_le c.dataSource)
    rcases member with early | late
    · exact synced.known x early c here
    · obtain ⟨c', cached, on⟩ := onCached x late
      obtain rfl : c' = c := Option.some.inj (on.symm.trans here)
      exact known c' cached
  synced := by
    intro c cached
    have old : c ∈ e.before.session.cache.handles := by
      rcases served.cached_after distinct known cached with old | ⟨new, -⟩
      · exact old
      · have none : e.opened = [] := Traffic.openings_eq_nil fun x member => by
          obtain ⟨c, -, on⟩ := onCached x member
          rw [on]
          rfl
        rw [none] at new
        cases new
    rw [calls_concat, Traffic.settingsOn_append, List.foldl_append, synced.synced c old, records c old]

/-- Connections were opened. -/
theorem serve_connects (synced : Synced h e.before) (served : e.IsServed)
    (keeps : e.after.session.settings = e.before.session.settings)
    (opens : OpensOnly e.before.session.settings e.before.traffic e.calls)
    (known : ∀ c ∈ e.before.session.cache.handles, c.number ≤ e.before.traffic.opened c.dataSource)
    (distinct : e.before.session.cache.handles.Nodup) : Synced (h ++ [e]) e.after where
  known := by
    intro x member c here
    rw [calls_concat, List.mem_append] at member
    rcases member with early | late
    · exact Nat.le_trans (synced.known x early c here) (served.deals.opened_le c.dataSource)
    · rw [served.traffic_eq]
      exact (Traffic.mem_openings (opens.onOpened x late c here)).2
  synced := by
    intro c cached
    rw [calls_concat, Traffic.settingsOn_append, keeps]
    -- A connection that was cached before is not called; one that is new has nothing but what it was opened with.
    rcases served.cached_after distinct known cached with old | ⟨new, leftOpen⟩
    · rw [opens.settingsOn_old (known c old), List.append_nil, synced.synced c old]
    · have notBefore : (calls h).settingsOn c = [] := synced.settingsOn_new (served.deals.number_lt new).1
      rw [notBefore, List.nil_append, opens.makes c new leftOpen, Settings.foldl_made]

theorem elsewhere (synced : Synced h s) (r' : Registry) (others : Traffic) : Synced h ⟨s.session, r', s.traffic ++ others⟩ where
  known e member c here := Nat.le_trans (synced.known e member c here) (Traffic.opened_le_append c.dataSource)
  synced := synced.synced

end Synced

/-- After every history the cached connections have the recorded settings. -/
theorem Run.synced (run : Run b r h s) : Synced h s := by
  induction run with
  | start t => exact Synced.start t
  | elsewhere _ _ others synced => exact synced.elsewhere _ others
  | @serve h s run request synced =>
    have served := Event.isServed_of b s request
    have distinct := run.nodup_handles
    have known (c : Handle) (cached : c ∈ s.session.cache.handles) : c.number ≤ s.traffic.opened c.dataSource :=
      run.placed.number_le c (run.placed.cached cached)
    cases Event.of_does b s request run.closedEmpty with
    | connects _ keeps opens => exact synced.serve_connects served keeps opens known distinct
    | @releases c _ cached keeps closes =>
      refine synced.serve_controls served (fun x member => ?_) known distinct fun c' _ => ?_
      · have isClose : x.call ∈ [Call.control c .close] := closes ▸ List.mem_map_of_mem member
        exact ⟨c, cached, by rw [List.mem_singleton.mp isClose]; rfl⟩
      · have none : (Event.of b s request).calls.settingsOn c' = [] := by
          rw [Traffic.settingsOn_eq_filterMap, closes]
          simp [Call.setOn?, Control.setting?]
        rw [none, keeps]
        rfl
    | controls asks isOpen each =>
      refine synced.serve_controls served (fun x member => ?_) known distinct fun c' cached => ?_
      · obtain ⟨c, cached, isCall⟩ := each.call_eq member
        exact ⟨c, cached, by rw [isCall]; rfl⟩
      · rw [each.settingsOn_eq distinct cached]
        exact (Served.settings_eq served asks isOpen).symm
    | nothing same _ =>
      have none : (Event.of b s request).calls = [] := Event.calls_eq_nil (congrArg State.traffic same)
      refine synced.serve_controls served (fun x member => ?_) known distinct fun c' _ => ?_
      · rw [none] at member
        cases member
      · rw [none, same]
        rfl

/-- In every history of a session, a cached connection on which no setting failed has got the recorded value of each setting as
its last one, and no value of a setting that is not recorded. -/
theorem applied_of_run (run : Run b r h s) (cached : c ∈ s.session.cache.handles) (allSet : (calls h).AllSetOn c) :
    (((calls h).appliedOn c).filterMap Setting.autoCommit?).getLast? = s.session.settings.autoCommit ∧
      (((calls h).appliedOn c).filterMap Setting.readOnly?).getLast? = s.session.settings.readOnly ∧
      (((calls h).appliedOn c).filterMap Setting.isolation?).getLast? = s.session.settings.isolation := by
  rw [Traffic.appliedOn_eq allSet, ← run.synced.synced c cached]
  refine ⟨?_, ?_, ?_⟩
  · rw [Settings.foldl_record Settings.record_autoCommit]
    exact (Option.or_none).symm
  · rw [Settings.foldl_record Settings.record_readOnly]
    exact (Option.or_none).symm
  · rw [Settings.foldl_record Settings.record_isolation]
    exact (Option.or_none).symm

/-- Data sources of which one cannot make a connection read-only. -/
def writingBackend : Backend :=
  { Client.willingBackend with
    control _ c control :=
      if c.dataSource = "ds_0" && control = .set (.readOnly true) then .error (.unsupported "read only") else .ok () }

/-- Settings are changed before and after connections are opened. -/
def settingsInBetween : List Request :=
  [.set (.autoCommit true), .set (.isolation .serializable), .getConnection "ds_0" .select, .set (.autoCommit false),
    .getConnection "ds_1" .select, .set (.readOnly true), .getConnection "ds_d" .select, .set (.autoCommit true)]

/-- The history of these requests, and the session after them. -/
def settingsHistory : List Event × State := serveAll writingBackend ⟨.new, Client.threeSources, []⟩ settingsInBetween

/-- Of three connections one fails to be made read-only. The other two, of which one was opened after all but one change, have the
recorded settings. -/
theorem applied_of_run_settingsInBetween : ∃ h s, Run writingBackend Client.threeSources h s ∧
    h.map (·.request) = settingsInBetween ∧ s.session.cache.handles = [⟨"ds_0", 1⟩, ⟨"a", 1⟩, ⟨"ds_d", 1⟩] ∧
    ¬ (calls h).AllSetOn ⟨"ds_0", 1⟩ ∧ (calls h).AllSetOn ⟨"a", 1⟩ ∧
    (calls h).appliedOn ⟨"ds_0", 1⟩ = [.autoCommit true, .isolation .serializable, .autoCommit false, .autoCommit true] ∧
    (calls h).appliedOn ⟨"a", 1⟩ = [.autoCommit false, .isolation .serializable, .readOnly true, .autoCommit true] ∧
    (calls h).appliedOn ⟨"ds_d", 1⟩ = [.autoCommit false, .readOnly true, .isolation .serializable, .autoCommit true] ∧
    (((calls h).appliedOn ⟨"a", 1⟩).filterMap Setting.autoCommit?).getLast? = some true ∧
    (((calls h).appliedOn ⟨"a", 1⟩).filterMap Setting.readOnly?).getLast? = some true ∧
    (((calls h).appliedOn ⟨"a", 1⟩).filterMap Setting.isolation?).getLast? = some .serializable := by
  have run : Run writingBackend Client.threeSources settingsHistory.1 settingsHistory.2 := (Run.start []).serves settingsInBetween
  have handles : settingsHistory.2.session.cache.handles = [⟨"ds_0", 1⟩, ⟨"a", 1⟩, ⟨"ds_d", 1⟩] := by decide +kernel
  have cached : (⟨"a", 1⟩ : Handle) ∈ settingsHistory.2.session.cache.handles := by
    rw [handles]
    exact List.mem_cons_of_mem _ List.mem_cons_self
  have allSet : (calls settingsHistory.1).AllSetOn ⟨"a", 1⟩ := by decide +kernel
  have settings : settingsHistory.2.session.settings = ⟨some true, some true, some .serializable⟩ := by decide +kernel
  have applied := applied_of_run run cached allSet
  rw [settings] at applied
  refine ⟨_, _, run, by decide +kernel, handles, by decide +kernel, allSet, ?_, ?_, ?_, applied⟩
  all_goals decide +kernel

end Session

end SqlSharding
