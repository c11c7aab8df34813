import SqlSharding.Proofs.SessionHistories

/-!
# Calls that a session makes

A request for connections only opens some: it calls nothing on a connection that it has not opened itself, and the
connections that it leaves open have all settings of the session (`Connects`). A setting, an end of transactions and the end
of the session are one call on each cached connection, also after one that failed (`CallsEach`).
-/

namespace SqlSharding

/-! ## Calls on connections -/

namespace Physical

/-- The connection that a call is made on. -/
def Call.connection? : Call → Option Handle
  | connect _ => none
  | control h _ | statement h _ => some h

/-- The setting that a call on a connection makes. -/
def Control.setting? : Control → Option Setting
  | set setting => some setting
  | _ => none

/-- The setting that a call makes on a connection. -/
def Call.setOn? (c : Handle) : Call → Option Setting
  | control h made => if h = c then made.setting? else none
  | _ => none

namespace Traffic

/-- The settings that calls make on a connection, the first one first. -/
def settingsOn (calls : Traffic) (c : Handle) : List Setting := calls.filterMap fun e => e.call.setOn? c

variable {t calls calls' : Traffic} {c : Handle}

theorem settingsOn_append : (calls ++ calls').settingsOn c = calls.settingsOn c ++ calls'.settingsOn c := List.filterMap_append

theorem settingsOn_eq_nil (elsewhere : ∀ e ∈ calls, e.call.connection? ≠ some c) : calls.settingsOn c = [] := by
  refine List.filterMap_eq_nil_iff.mpr fun e member => ?_
  have notHere := elsewhere e member
  cases isCall : e.call with
  | connect _ | statement _ _ => rfl
  | control h control =>
    rw [isCall] at notHere
    exact if_neg fun same => notHere (congrArg some same)

/-- Calls on connections open none. -/
theorem openings_eq_nil (on : ∀ e ∈ calls, e.call.connection?.isSome = true) : t.openings calls = [] := by
  induction calls generalizing t with
  | nil => rfl
  | cons e rest ih =>
    have here := on e List.mem_cons_self
    have none : e.opened? t = none := by
      obtain ⟨call, failure⟩ := e
      cases call with
      | connect dataSource => cases here
      | control h c | statement h c => rfl
    rw [openings, none, ih fun e' member => on e' (List.mem_cons_of_mem e member)]
    rfl

end Traffic

/-- What is reported of a call on a connection that failed. -/
inductive Entry.Reports : Entry → Failure → Prop
  /-- A failure that names a data source is reported as it is. -/
  | asItIs {h : Handle} {c : Control} {dataSource message : String} :
      Reports ⟨.control h c, some (.physical dataSource message)⟩ (.physical dataSource message)
  /-- Any other is put under the data source of the connection. -/
  | tagged {h : Handle} {c : Control} {f : Failure} (other : ∀ dataSource message, f ≠ .physical dataSource message) :
      Reports ⟨.control h c, some f⟩ (.physical h.dataSource f.message)

theorem Entry.reports_tagged (h : Handle) (c : Control) (f : Failure) : Reports ⟨.control h c, some f⟩ (f.tagged h.dataSource) := by
  cases f with
  | physical dataSource message => exact .asItIs
  | _ => exact .tagged nofun

end Physical

namespace Session

open Physical (Backend Exchange Handle Traffic Entry Call Setting Control)
open Sources (Registry LogicalSource)

variable {α : Type} {b : Backend} {t calls calls' : Traffic}

/-! ## Opening connections -/

section

variable {settings : Settings} {h c : Handle}

/-- Calls open connections with settings and do nothing else. -/
structure OpensOnly (settings : Settings) (t calls : Traffic) : Prop where
  noStatement : ∀ e ∈ calls, e.call.isStatement = false
  /-- What is called is called on connections that were opened by these calls. -/
  onOpened : ∀ e ∈ calls, ∀ c, e.call.connection? = some c → c ∈ t.openings calls
  /-- All settings were made on the connections that are left open. -/
  makes : ∀ c ∈ t.openings calls, c ∉ calls.closings → calls.settingsOn c = settings.made

namespace OpensOnly

theorem nil : OpensOnly settings t [] := ⟨nofun, nofun, nofun⟩

/-- Connections that were there before are not called. -/
theorem settingsOn_old (opens : OpensOnly settings t calls) (old : c.number ≤ t.opened c.dataSource) : calls.settingsOn c = [] := by
  refine Traffic.settingsOn_eq_nil fun e member here => ?_
  have new := (Traffic.mem_openings (opens.onOpened e member c here)).1
  omega

/-- Nor are those that will be opened later. -/
theorem settingsOn_new (opens : OpensOnly settings t calls) (new : (t ++ calls).opened c.dataSource < c.number) :
    calls.settingsOn c = [] := by
  refine Traffic.settingsOn_eq_nil fun e member here => ?_
  have old := (Traffic.mem_openings (opens.onOpened e member c here)).2
  omega

theorem append (first : OpensOnly settings t calls) (second : OpensOnly settings (t ++ calls) calls') :
    OpensOnly settings t (calls ++ calls') where
  noStatement e member := (List.mem_append.mp member).elim (first.noStatement e) (second.noStatement e)
  onOpened e member c here := by
    rw [Traffic.openings_append, List.mem_append]
    rcases List.mem_append.mp member with early | late
    · exact .inl (first.onOpened e early c here)
    · exact .inr (second.onOpened e late c here)
  makes c opened leftOpen := by
    rw [Traffic.closings_append, List.mem_append, not_or] at leftOpen
    rw [Traffic.openings_append, List.mem_append] at opened
    rw [Traffic.settingsOn_append]
    rcases opened with early | late
    · rw [first.makes c early leftOpen.1, second.settingsOn_old (Traffic.mem_openings early).2, List.append_nil]
    · rw [second.makes c late leftOpen.2, first.settingsOn_new (Traffic.mem_openings late).1, List.nil_append]

/-- A connection is opened, and all further calls are on it. Then it has all settings, or is closed. -/
theorem connect {dataSource : String} (isNew : h = ⟨dataSource, t.opened dataSource + 1⟩)
    (on : ∀ e ∈ calls, ∃ c : Control, e.call = .control h c) (ends : calls.settingsOn h = settings.made ∨ h ∈ calls.closings) :
    OpensOnly settings t (⟨.connect dataSource, none⟩ :: calls) := by
  have opens : t.openings (⟨.connect dataSource, none⟩ :: calls) = [h] := by
    have none : (t ++ [⟨.connect dataSource, none⟩] : Traffic).openings calls = [] := by
      refine Traffic.openings_eq_nil fun e member => ?_
      obtain ⟨c, isControl⟩ := on e member
      rw [isControl]
      rfl
    rw [Traffic.openings, none, isNew]
    rfl
  constructor
  · intro e member
    rcases List.mem_cons.mp member with rfl | later
    · rfl
    · obtain ⟨c, isControl⟩ := on e later
      rw [isControl]
      rfl
  · intro e member c here
    rw [opens]
    rcases List.mem_cons.mp member with rfl | later
    · cases here
    · obtain ⟨control, isControl⟩ := on e later
      rw [isControl] at here
      obtain rfl := Option.some.inj here
      exact List.mem_singleton_self h
  · intro c opened leftOpen
    rw [opens, List.mem_singleton] at opened
    subst opened
    exact ends.resolve_right leftOpen

end OpensOnly

/-- From one moment to a later one connections with settings were opened, and nothing else was called. -/
def Opens (settings : Settings) (t t' : Traffic) : Prop := ∃ calls, t' = t ++ calls ∧ OpensOnly settings t calls

theorem Opens.refl (t : Traffic) : Opens settings t t := ⟨[], (List.append_nil t).symm, .nil⟩

theorem Opens.trans {t' t'' : Traffic} (first : Opens settings t t') (second : Opens settings t' t'') : Opens settings t t'' := by
  obtain ⟨calls, rfl, opens⟩ := first
  obtain ⟨calls', rfl, opens'⟩ := second
  exact ⟨calls ++ calls', List.append_assoc .., opens.append opens'⟩

/-- A call on a connection is made, whether or not it fails. -/
theorem controlOn_calls (h : Handle) (c : Control) (t : Traffic) :
    Ends (· = t) (b.controlOn h c) (fun _ t' => t' = t ++ [⟨.control h c, none⟩]) fun f t' => t' = t ++ [⟨.control h c, some f⟩] := by
  rintro t rfl
  rw [Backend.controlOn, Exchange.make]
  cases b.control t h c <;> exact rfl

theorem openAt_calls (dataSource : String) (t : Traffic) :
    Ends (· = t) (b.openAt dataSource)
      (fun h t' => h = ⟨dataSource, t.opened dataSource + 1⟩ ∧ t' = t ++ [⟨.connect dataSource, none⟩])
      fun f t' => t' = t ++ [⟨.connect dataSource, some f⟩] := by
  rintro t rfl
  have number : (t ++ [⟨.connect dataSource, none⟩] : Traffic).opened dataSource = t.opened dataSource + 1 :=
    (Traffic.number_of_opened? (e := ⟨.connect dataSource, none⟩) rfl).2
  rw [Backend.openAt]
  simp only [Exchange.make, bind, EStateM.bind]
  cases b.connect t dataSource with
  | error f => exact rfl
  | ok _ => exact ⟨congrArg (Handle.mk dataSource) number, rfl⟩

/-- An attempt gives the outcome of what is attempted. -/
theorem attempt_outcome {x : Exchange α} {P : Traffic → Prop} {Q : α → Traffic → Prop} {E : Failure → Traffic → Prop}
    (ends : Ends P x Q E) :
    Ends P (Exchange.attempt x) (fun outcome t => (∃ a, outcome = .ok a ∧ Q a t) ∨ ∃ f, outcome = .error f ∧ E f t)
      fun _ _ => False := by
  intro t holds
  have atEnd := ends t holds
  rw [Exchange.attempt]
  cases run : x t with
  | ok a t' =>
    rw [run] at atEnd
    exact .inl ⟨a, rfl, atEnd⟩
  | error f t' =>
    rw [run] at atEnd
    exact .inr ⟨f, rfl, atEnd⟩

/-- Settings are made one after the other, up to one that fails. -/
theorem sets_calls (h : Handle) (made : List Setting) (t : Traffic) :
    Ends (· = t) (made.forM fun setting => b.controlOn h (.set setting))
      (fun _ t' => t' = t ++ made.map fun setting => ⟨.control h (.set setting), none⟩)
      fun _ t' => ∃ calls, t' = t ++ calls ∧ ∀ e ∈ calls, ∃ c : Control, e.call = .control h c := by
  induction made generalizing t with
  | nil => exact Ends.pure fun _ same => same.trans (List.append_nil t).symm
  | cons setting rest ih =>
    refine ((controlOn_calls h (.set setting) t).failing ?_).bind fun _ => (ih _).weaken ?_ ?_
    · intro f t' made
      exact ⟨_, made, fun e member => ⟨.set setting, by rw [List.mem_singleton.mp member]⟩⟩
    · intro _ t' made
      rw [made, List.append_assoc]
      rfl
    · rintro f t' ⟨calls, made, on⟩
      refine ⟨_ :: calls, made.trans (List.append_assoc ..), fun e member => ?_⟩
      rcases List.mem_cons.mp member with rfl | later
      · exact ⟨_, rfl⟩
      · exact on e later

theorem settingsOn_made (h : Handle) (made : List Setting) :
    Traffic.settingsOn (made.map fun setting => ⟨.control h (.set setting), none⟩) h = made := by
  rw [Traffic.settingsOn, List.filterMap_map]
  have each : (fun e : Entry => e.call.setOn? h) ∘ (fun setting => ⟨.control h (.set setting), none⟩) = some :=
    funext fun setting => if_pos rfl
  rw [each, List.filterMap_some]

/-- A connection that is opened has all settings, or it is closed again. -/
theorem openWith_opens (settings : Settings) (dataSource : String) (t : Traffic) :
    Ends (· = t) (openWith b settings dataSource) (fun _ t' => Opens settings t t') fun _ t' => Opens settings t t' := by
  refine ((openAt_calls dataSource t).failing ?_).bind fun h => Ends.given fun isNew => ?_
  · intro f t' made
    refine ⟨_, made, fun e member => ?_, fun e member => ?_, nofun⟩
    · rw [List.mem_singleton.mp member]
      rfl
    · rw [List.mem_singleton.mp member]
      exact nofun
  refine ((attempt_outcome (sets_calls (b := b) h settings.made _)).failing fun _ _ => False.elim).bind fun outcome => ?_
  rintro t' (⟨_, rfl, made⟩ | ⟨f, rfl, calls, made, on⟩)
  · refine ⟨_, made.trans (List.append_assoc ..), .connect isNew (fun e member => ?_) (.inl (settingsOn_made h _))⟩
    obtain ⟨setting, -, rfl⟩ := List.mem_map.mp member
    exact ⟨_, rfl⟩
  -- A setting failed, so the connection is closed again and is not among those that need all of them.
  · have closes : Ends (· = t') (Exchange.attempt (b.controlOn h .close))
        (fun _ t'' => ∃ failure, t'' = t' ++ [⟨.control h .close, failure⟩]) fun _ _ => False := by
      refine (attempt_outcome (controlOn_calls h .close t')).after ?_
      rintro _ t'' (⟨_, -, made⟩ | ⟨f, -, made⟩)
      · exact ⟨none, made⟩
      · exact ⟨some f, made⟩
    have closesAndThrows := (closes.failing fun _ _ => False.elim).bind (R := fun (_ : Handle) t'' => Opens settings t t'')
      (E := fun _ t'' => Opens settings t t'') fun _ => Ends.throw (e := f.tagged dataSource) ?_
    · exact closesAndThrows t' rfl
    · rintro t'' ⟨failure, closed⟩
      have whole : t'' = t ++ (⟨.connect dataSource, none⟩ :: (calls ++ [⟨.control h .close, failure⟩])) := by
        rw [closed, made]
        simp only [List.append_assoc, List.cons_append, List.nil_append]
      refine ⟨_, whole, .connect isNew ?_ (.inr ?_)⟩
      · intro e member
        rcases List.mem_append.mp member with set | last
        · exact on e set
        · exact ⟨.close, by rw [List.mem_singleton.mp last]⟩
      · rw [Traffic.closings_append]
        exact List.mem_append_right _ (List.mem_singleton_self h)

/-! ## Requests for connections -/

/-- From one state to a later one connections were opened with the settings of the session, which stay, and nothing else was
called. -/
def Connects (s t : State) : Prop := t.session.settings = s.session.settings ∧ Opens s.session.settings s.traffic t.traffic

theorem Connects.refl (s : State) : Connects s s := ⟨rfl, .refl s.traffic⟩

theorem openWith_connects (s : State) (dataSource : String) :
    Preserves (Connects s) (Operation.exchange (openWith b s.session.settings dataSource)) := by
  rintro t ⟨same, opens⟩
  have atEnd := openWith_opens (b := b) s.session.settings dataSource t.traffic t.traffic rfl
  rw [Operation.exchange]
  cases run : openWith b s.session.settings dataSource t.traffic with
  | ok h t' | error f t' =>
    rw [run] at atEnd
    exact ⟨same, opens.trans atEnd⟩

theorem find_connects (s : State) (logical : String) : Preserves (Connects s) (Operation.find logical) := by
  intro t holds
  refine (find_gives t logical).weaken ?_ ?_ t rfl
  · rintro _ _ ⟨-, rfl⟩
    exact holds
  · rintro _ _ ⟨-, rfl⟩
    exact holds

/-- An open session is looked up with its settings. -/
theorem requireOpen_connects (s : State) :
    Ends (Connects s) Operation.requireOpen (fun x t => x.settings = s.session.settings ∧ Connects s t) fun _ => Connects s := by
  intro t holds
  refine (requireOpen_gives t).weaken ?_ ?_ t rfl
  · rintro _ _ ⟨-, rfl, rfl⟩
    exact ⟨holds.1, holds⟩
  · rintro _ _ ⟨-, -, rfl⟩
    exact holds

theorem modifySession_connects (s : State) {f : Session → Session} (same : ∀ x, (f x).settings = x.settings) :
    Preserves (Connects s) (Operation.modifySession f) :=
  fun t ⟨settings, opens⟩ => ⟨(same t.session).trans settings, opens⟩

theorem select_connects (s : State) (logical : String) (source : LogicalSource) (role : Option Sources.Role) :
    Preserves (Connects s) (Operation.select b logical source role) := fun _ => id

/-- A request for a connection opens at most one, and calls nothing else. -/
theorem getConnection_onlyConnects (s : State) (logical : String) (kind : Sql.StatementKind) :
    Preserves (Connects s) (getConnection b logical kind) := by
  refine (find_connects s logical).bind fun source => (requireOpen_connects s).bind fun x => Ends.given fun same => ?_
  dsimp only
  split
  · exact (modifySession_connects s fun x => afterUse_settings x _ kind).bind fun _ => .pure
  · rw [same]
    refine (select_connects s logical source _).bind fun dataSource => (openWith_connects s dataSource).bind fun h => ?_
    exact (modifySession_connects s fun x => afterUse_settings x _ kind).bind fun _ => Preserves.pure (a := h)

/-- A request for connections to all members of a group opens some, and calls nothing else. -/
theorem getAllConnections_onlyConnects (s : State) (logical : String) : Preserves (Connects s) (getAllConnections b logical) := by
  refine (find_connects s logical).bind fun source => ?_
  cases source with
  | single name => exact (getConnection_onlyConnects s logical .select).bind fun _ => .pure
  | group g =>
    refine (requireOpen_connects s).bind fun x => Ends.given fun same => ?_
    rw [same]
    exact .mapM fun member _ => openWith_connects s member

end

/-! ## Calls on all connections -/

section

variable {c : Control} {handles : List Handle}

/-- A call was made on each of some connections, one after the other, and all failures are reported together. -/
structure CallsEach (c : Control) (handles : List Handle) (calls : Traffic) (outcome : Outcome α) : Prop where
  /-- One call on each connection, in their order, and no other call. -/
  each : calls.map (·.call) = handles.map (.control · c)
  succeeds_iff : (∃ a, outcome = .ok a) ↔ ∀ e ∈ calls, e.failure = none
  /-- The failures are those of the calls that failed, in their order. -/
  reports : ∀ f, outcome = .error f → ∃ failures, f = .aggregate c.name failures ∧
    List.Forall₂ Entry.Reports (calls.filter (·.failure.isSome)) failures

namespace CallsEach

variable {outcome : Outcome α}

theorem of_failures {failures : List Failure} (each : calls.map (·.call) = handles.map (.control · c))
    (reports : List.Forall₂ Entry.Reports (calls.filter (·.failure.isSome)) failures) :
    CallsEach c handles calls (Failure.collapse c.name failures) where
  each := each
  succeeds_iff := by
    have none : failures = [] ↔ ∀ e ∈ calls, e.failure = none := by
      rw [← List.length_eq_zero_iff, ← reports.length_eq, List.length_eq_zero_iff, List.filter_eq_nil_iff]
      simp
    rw [← none, Failure.collapse]
    cases failures with
    | nil => simp
    | cons f rest => simp
  reports := by
    rw [Failure.collapse]
    intro f failed
    split at failed
    · cases failed
    · exact ⟨failures, (Except.error.inj failed).symm, reports⟩

theorem map {β : Type} {f : α → β} (callsEach : CallsEach c handles calls outcome) : CallsEach c handles calls (outcome.map f) where
  each := callsEach.each
  succeeds_iff := by
    rw [← callsEach.succeeds_iff]
    cases outcome with
    | ok a => simp [Except.map]
    | error e => simp [Except.map]
  reports g failed := by
    cases outcome with
    | ok a => cases failed
    | error e =>
      obtain rfl : e = g := Except.error.inj failed
      exact callsEach.reports e rfl

end CallsEach

/-- A call is made on connections one after the other, whether or not it fails on some. -/
theorem failuresOn_calls (c : Control) (handles : List Handle) (t : Traffic) :
    Ends (· = t) (failuresOn b c handles)
      (fun failures t' => ∃ calls : Traffic, t' = t ++ calls ∧ calls.map (·.call) = handles.map (.control · c) ∧
        List.Forall₂ Entry.Reports (calls.filter (·.failure.isSome)) failures)
      fun _ _ => False := by
  induction handles generalizing t with
  | nil => exact Ends.pure fun _ same => ⟨[], same.trans (List.append_nil t).symm, rfl, .nil⟩
  | cons h rest ih =>
    refine (attempt_outcome (controlOn_calls (b := b) h c t)).bind fun outcome => ?_
    rintro t' (⟨_, rfl, rfl⟩ | ⟨f, rfl, rfl⟩)
    · refine Ends.bind (ih _) (fun later => Ends.pure ?_) _ rfl
      rintro t' ⟨calls, rfl, each, reports⟩
      exact ⟨⟨.control h c, none⟩ :: calls, List.append_assoc .., congrArg _ each, reports⟩
    · refine Ends.bind (ih _) (fun later => Ends.pure ?_) _ rfl
      rintro t' ⟨calls, rfl, each, reports⟩
      exact ⟨⟨.control h c, some f⟩ :: calls, List.append_assoc .., congrArg _ each, .cons (Entry.reports_tagged h c f) reports⟩

/-- From one state to a later one a call was made on each of some connections. -/
def Calls {α : Type} (s : State) (c : Control) (handles : List Handle) (outcome : Outcome α) (t : State) : Prop :=
  ∃ calls, t.traffic = s.traffic ++ calls ∧ CallsEach c handles calls outcome

theorem callOn_calls (s : State) (handles : List Handle) (c : Control) :
    Ends (· = s) (callOn b handles c) (fun _ => Calls s c handles (.ok ())) fun f => Calls s c handles (Except.error f : Outcome Unit) := by
  rintro s rfl
  have atEnd := failuresOn_calls (b := b) c handles s.traffic s.traffic rfl
  simp only [callOn, bind, EStateM.bind, Operation.exchange]
  cases run : failuresOn b c handles s.traffic with
  | error f t =>
    rw [run] at atEnd
    exact atEnd.elim
  | ok failures t =>
    rw [run] at atEnd
    obtain ⟨calls, same, each, reports⟩ := atEnd
    have all := CallsEach.of_failures each reports
    dsimp only
    cases done : Failure.collapse c.name failures with
    | ok _ => exact ⟨calls, same, done ▸ all⟩
    | error f => exact ⟨calls, same, done ▸ all⟩

theorem callOnAll_calls (s : State) (c : Control) :
    Ends (· = s) (callOnAll b c) (fun _ => Calls s c s.session.cache.handles (.ok ()))
      fun f => Calls s c s.session.cache.handles (Except.error f : Outcome Unit) := by
  refine ((session_gives s).failing fun _ _ => False.elim).bind fun x => Ends.given fun same => ?_
  subst same
  exact callOn_calls s s.session.cache.handles c

theorem set_calls (s : State) (setting : Setting) (isOpen : s.session.isClosed = false) :
    Ends (· = s) (set b setting) (fun _ => Calls s (.set setting) s.session.cache.handles (.ok ()))
      fun f => Calls s (.set setting) s.session.cache.handles (Except.error f : Outcome Unit) := by
  refine ((requireOpen_gives s).failing ?_).bind fun x => Ends.given fun _ => Ends.given fun _ => ?_
  · rintro f t ⟨isClosed, -, -⟩
    cases isOpen.symm.trans isClosed
  refine ((modifySession_gives s _).failing fun _ _ => False.elim).bind fun _ => ?_
  exact callOnAll_calls { s with session := { s.session with settings := s.session.settings.record setting } } (.set setting)

theorem close_calls (s : State) (isOpen : s.session.isClosed = false) :
    Ends (· = s) (close b) (fun _ => Calls s .close s.session.cache.handles (.ok ()))
      fun f => Calls s .close s.session.cache.handles (Except.error f : Outcome Unit) := by
  refine ((session_gives s).failing fun _ _ => False.elim).bind fun x => Ends.given fun same => ?_
  subst same
  rw [isOpen]
  refine ((modifySession_gives s _).failing fun _ _ => False.elim).bind fun _ => ?_
  exact callOn_calls { s with session := { s.session with cache := [], hasWritten := false, isClosed := true } }
    s.session.cache.handles .close

/-- The call that a request makes on all cached connections, if it makes one. -/
def Request.control? : Request → Option Control
  | set setting => some (.set setting)
  | commit => some .commit
  | rollback => some .rollback
  | close => some .close
  | _ => none

/-- An open session makes the call of a request on each cached connection. -/
theorem serve_calls (s : State) {request : Request} (asks : request.control? = some c) (isOpen : s.session.isClosed = false) :
    Ends (· = s) (request.serve b) (fun given => Calls s c s.session.cache.handles (.ok given))
      fun f => Calls s c s.session.cache.handles (Except.error f : Outcome (List Handle)) := by
  have answered {x : Operation Unit} (ends : Ends (· = s) x (fun _ => Calls s c s.session.cache.handles (.ok ()))
      fun f => Calls s c s.session.cache.handles (Except.error f : Outcome Unit)) :
      Ends (· = s) (do x; return ([] : List Handle)) (fun given => Calls s c s.session.cache.handles (.ok given))
        fun f => Calls s c s.session.cache.handles (Except.error f : Outcome (List Handle)) := by
    refine (ends.failing ?_).bind fun _ => Ends.pure ?_
    · rintro f t ⟨calls, same, each⟩
      exact ⟨calls, same, each.map (f := fun _ => [])⟩
    · rintro t ⟨calls, same, each⟩
      exact ⟨calls, same, each.map (f := fun _ => [])⟩
  cases request with
  | getConnection _ _ | getAllConnections _ | release _ => cases asks
  | set setting =>
    obtain rfl := Option.some.inj asks
    exact answered (set_calls s setting isOpen)
  | commit =>
    obtain rfl := Option.some.inj asks
    exact answered (callOnAll_calls s .commit)
  | rollback =>
    obtain rfl := Option.some.inj asks
    exact answered (callOnAll_calls s .rollback)
  | close =>
    obtain rfl := Option.some.inj asks
    exact answered (close_calls s isOpen)

end

/-! ## Connections that are given back -/

/-- A connection was closed and forgotten, or it was not cached. -/
def Released (s : State) (c : Handle) (t : State) : Prop :=
  (c ∈ s.session.cache.handles ∧ t.session.settings = s.session.settings ∧
    ∃ failure, t.traffic = s.traffic ++ [⟨.control c .close, failure⟩]) ∨ (c ∉ s.session.cache.handles ∧ t = s)

theorem release_released (s : State) (c : Handle) : Ends (· = s) (release b c) (fun _ => Released s c) fun _ _ => False := by
  refine (session_gives s).bind fun x => Ends.given fun same => ?_
  subst same
  refine Ends.branch (fun cached => ?_) fun uncached => Ends.pure ?_
  · refine (modifySession_gives s _).bind fun _ => ?_
    rintro t rfl
    have closes := attempt_outcome (controlOn_calls (b := b) c .close s.traffic) s.traffic rfl
    simp only [bind, EStateM.bind, Operation.exchange]
    cases run : Exchange.attempt (b.controlOn c .close) s.traffic with
    | error f t =>
      rw [run] at closes
      exact closes.elim
    | ok outcome t =>
      rw [run] at closes
      rcases closes with ⟨_, -, made⟩ | ⟨f, -, made⟩
      · exact .inl ⟨cached, rfl, none, made⟩
      · exact .inl ⟨cached, rfl, some f, made⟩
  · rintro t rfl
    exact .inr ⟨uncached, rfl⟩

/-! ## A closed session -/

theorem callOnAll_empty {s : State} (c : Control) (empty : s.session.cache = []) : callOnAll b c s = .ok () s := by
  unfold callOnAll
  simp only [bind, EStateM.bind, Operation.session, empty]
  rfl

/-- A session that is closed and has no connections serves all requests without a call, gives none and changes nothing. -/
theorem serve_closed (s : State) (request : Request) (isClosed : s.session.isClosed = true) (empty : s.session.cache = []) :
    Ends (· = s) (request.serve b) (fun given t => given = [] ∧ t = s) fun _ t => t = s := by
  have refuses {outcome : Outcome (List Handle)} {t : State} (served : Served s request outcome t) (notCommit : request ≠ .commit)
      (notRollback : request ≠ .rollback) : (∀ given, outcome = .ok given → given = []) ∧ t = s := by
    cases served with
    | got gets | single _ gets =>
      cases gets with
      | missing _ | closed _ => exact ⟨nofun, rfl⟩
      | cached _ isOpen _ | failed _ isOpen _ _ _ | opened _ isOpen _ _ _ _ => cases isOpen.symm.trans isClosed
    | missing _ | refused _ _ | unset _ => exact ⟨nofun, rfl⟩
    | passed _ | closedBefore _ => exact ⟨fun _ given => (Except.ok.inj given).symm, rfl⟩
    | openedAll _ isOpen _ _ | failedAll _ isOpen _ | set _ isOpen _ | closed _ isOpen _ => cases isOpen.symm.trans isClosed
    | released cached _ =>
      rw [empty] at cached
      cases cached
    | committed _ _ => exact absurd rfl notCommit
    | rolledBack _ _ => exact absurd rfl notRollback
  have callsNothing (c : Control) :
      Ends (· = s) (do callOnAll b c; return ([] : List Handle)) (fun given t => given = [] ∧ t = s) fun _ t => t = s := by
    rintro s rfl
    simp only [bind, EStateM.bind, callOnAll_empty c empty]
    exact ⟨rfl, rfl⟩
  by_cases isCommit : request = .commit
  · subst isCommit
    exact callsNothing .commit
  by_cases isRollback : request = .rollback
  · subst isRollback
    exact callsNothing .rollback
  refine (serve_served s request).weaken ?_ ?_
  · intro given t served
    exact ⟨(refuses served isCommit isRollback).1 given rfl, (refuses served isCommit isRollback).2⟩
  · intro f t served
    exact (refuses served isCommit isRollback).2

/-! ## Events -/

/-- The calls that serve a request. -/
inductive Event.Does (e : Event) : Prop
  /-- Connections are opened for the client. -/
  | connects (uncontrolled : e.request.control? = none) (keeps : e.after.session.settings = e.before.session.settings)
      (opens : OpensOnly e.before.session.settings e.before.traffic e.calls)
  /-- A cached connection is closed and forgotten. -/
  | releases {c : Handle} (asks : e.request = .release c) (cached : c ∈ e.before.session.cache.handles)
      (keeps : e.after.session.settings = e.before.session.settings) (closes : e.calls.map (·.call) = [.control c .close])
  /-- A call is made on all cached connections. -/
  | controls {c : Control} (asks : e.request.control? = some c) (isOpen : e.before.session.isClosed = false)
      (each : CallsEach c e.before.session.cache.handles e.calls e.outcome)
  /-- A connection is not cached, or the session is closed. -/
  | nothing (same : e.after = e.before) (refused : (∃ c, e.request = .release c) ∨ e.before.session.isClosed = true)

namespace Event

variable {e : Event}

theorem calls_eq (whole : e.after.traffic = e.before.traffic ++ calls) : e.calls = calls := by
  rw [Event.calls, whole, List.drop_left]

theorem of_ends {s : State} {request : Request} {Q : List Handle → State → Prop} {E : Failure → State → Prop}
    (ends : Ends (· = s) (request.serve b) Q E) :
    (∃ given, (of b s request).outcome = .ok given ∧ Q given (of b s request).after) ∨
      ∃ f, (of b s request).outcome = .error f ∧ E f (of b s request).after := by
  have atEnd := ends s rfl
  rw [of, Operation.perform]
  cases run : request.serve b s with
  | ok given t =>
    rw [run] at atEnd
    exact .inl ⟨given, rfl, atEnd⟩
  | error f t =>
    rw [run] at atEnd
    exact .inr ⟨f, rfl, atEnd⟩

theorem of_connects {s : State} {request : Request} (uncontrolled : request.control? = none)
    (connects : Preserves (Connects s) (request.serve b)) : (of b s request).Does := by
  have ends : Ends (· = s) (request.serve b) (fun _ => Connects s) fun _ => Connects s := by
    rintro s rfl
    exact connects s (Connects.refl s)
  have after : Connects s (of b s request).after := by
    rcases of_ends ends with ⟨_, _, holds⟩ | ⟨_, _, holds⟩
    · exact holds
    · exact holds
  obtain ⟨keeps, calls, whole, opens⟩ := after
  exact .connects uncontrolled keeps (calls_eq whole ▸ opens)

/-- What serving a request does, if a closed session has no connections. -/
theorem of_does (b : Backend) (s : State) (request : Request) (closedEmpty : s.session.isClosed = true → s.session.cache = []) :
    (of b s request).Does := by
  by_cases isClosed : s.session.isClosed = true
  · refine .nothing ?_ (.inr isClosed)
    rcases of_ends (serve_closed (b := b) s request isClosed (closedEmpty isClosed)) with ⟨_, _, _, same⟩ | ⟨_, _, same⟩
    · exact same
    · exact same
  have isOpen : s.session.isClosed = false := by simpa using isClosed
  cases asks : request.control? with
  | some c =>
    refine .controls asks isOpen ?_
    rcases of_ends (serve_calls (b := b) s asks isOpen) with ⟨_, done, calls, whole, each⟩ | ⟨_, done, calls, whole, each⟩
    · rw [calls_eq whole, done]
      exact each
    · rw [calls_eq whole, done]
      exact each
  | none =>
    cases request with
    | set _ | commit | rollback | close => cases asks
    | getConnection logical kind => exact of_connects asks ((getConnection_onlyConnects s logical kind).bind fun _ => .pure)
    | getAllConnections logical => exact of_connects asks (getAllConnections_onlyConnects s logical)
    | release c =>
      have ends : Ends (· = s) ((Request.release c).serve b) (fun _ => Released s c) fun _ _ => False :=
        (release_released s c).bind fun _ => Ends.pure fun _ => id
      rcases of_ends ends with ⟨_, _, ⟨cached, keeps, failure, whole⟩ | ⟨_, same⟩⟩ | ⟨_, _, never⟩
      · exact .releases rfl cached keeps (congrArg _ (calls_eq whole))
      · exact .nothing same (.inl ⟨c, rfl⟩)
      · exact never.elim

end Event

theorem Served.closedEmpty {s t : State} {request : Request} {outcome : Outcome (List Handle)} (served : Served s request outcome t)
    (before : s.session.isClosed = true → s.session.cache = []) : t.session.isClosed = true → t.session.cache = [] := by
  intro isClosed
  cases served with
  | got gets | single _ gets =>
    cases gets with
    | missing _ | closed _ | failed _ _ _ _ _ => exact before isClosed
    | cached _ isOpen _ | opened _ isOpen _ _ _ _ =>
      rw [afterUse_isClosed] at isClosed
      cases isOpen.symm.trans isClosed
  | released _ _ =>
    rw [before isClosed]
    rfl
  | set _ isOpen _ => cases isOpen.symm.trans isClosed
  | closed _ _ _ => rfl
  | _ => exact before isClosed

namespace Run

variable {r : Registry} {h h₁ h₂ : List Event} {e : Event} {s : State}

/-- A closed session has no connections. -/
theorem closedEmpty (run : Run b r h s) : s.session.isClosed = true → s.session.cache = [] :=
  run.invariant (P := fun _ s => s.session.isClosed = true → s.session.cache = []) (fun _ => nofun)
    (fun _ _ _ served before => served.closedEmpty before) fun _ _ _ _ => id

/-- Each request of a run is served by calls of one kind. -/
theorem does (run : Run b r (h₁ ++ e :: h₂) s) : e.Does := by
  obtain ⟨before, same⟩ := run.before
  rw [same]
  exact Event.of_does b e.before e.request before.closedEmpty

end Run

end Session

end SqlSharding
