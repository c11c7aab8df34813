import SqlSharding.Proofs.Endings
import SqlSharding.Session.Basic

/-!
# Connections that calls open and close

Between two moments the calls on data sources open some connections and close others. A call that connects and does not
fail opens a connection; a call to close one closes it, whatever the data source answers. An opened connection is always a
new one (`nodup_openings`, `mem_openings`).
-/

namespace SqlSharding

namespace Physical

/-- The connection that a call opens after others. -/
def Entry.opened? (before : Traffic) (e : Entry) : Option Handle :=
  match e.call, e.failure with
  | .connect dataSource, none => some ⟨dataSource, before.opened dataSource + 1⟩
  | _, _ => none

/-- The connection that a call closes. -/
def Entry.closed? (e : Entry) : Option Handle :=
  match e.call with
  | .control h .close => some h
  | _ => none

namespace Traffic

/-- The connections that calls open after others, the first one first. -/
def openings (before : Traffic) : Traffic → List Handle
  | [] => []
  | e :: rest => (e.opened? before).toList ++ openings (before ++ [e]) rest

/-- The connections that calls close, the first one first. -/
def closings (calls : Traffic) : List Handle := calls.filterMap Entry.closed?

variable {t calls calls' : Traffic} {h : Handle}

theorem openings_append : openings t (calls ++ calls') = openings t calls ++ openings (t ++ calls) calls' := by
  induction calls generalizing t with
  | nil => rw [List.append_nil]; rfl
  | cons e rest ih => rw [List.cons_append, openings, openings, ih, List.append_assoc, List.append_assoc]; rfl

theorem closings_append : closings (calls ++ calls') = closings calls ++ closings calls' := List.filterMap_append

theorem opened_append (dataSource : String) : (t ++ calls).opened dataSource = t.opened dataSource + calls.opened dataSource :=
  List.countP_append

theorem opened_le_append (dataSource : String) : t.opened dataSource ≤ (t ++ calls).opened dataSource := by
  rw [opened_append]
  exact Nat.le_add_right _ _

/-- A connection that a call opens has the next number of its data source. -/
theorem number_of_opened? {e : Entry} (opens : e.opened? t = some h) :
    h.number = t.opened h.dataSource + 1 ∧ (t ++ [e]).opened h.dataSource = h.number := by
  obtain ⟨call, failure⟩ := e
  simp only [Entry.opened?] at opens
  split at opens
  · obtain rfl := Option.some.inj opens
    simp [opened]
  · cases opens

/-- Opened connections have numbers that no connection had before. -/
theorem mem_openings (member : h ∈ openings t calls) :
    t.opened h.dataSource < h.number ∧ h.number ≤ (t ++ calls).opened h.dataSource := by
  induction calls generalizing t with
  | nil => cases member
  | cons e rest ih =>
    have longer : t ++ e :: rest = (t ++ [e]) ++ rest := by rw [List.append_assoc]; rfl
    rw [longer]
    rw [openings, List.mem_append, Option.mem_toList] at member
    rcases member with opens | later
    · obtain ⟨number, atEnd⟩ := number_of_opened? opens
      exact ⟨by omega, atEnd ▸ opened_le_append _⟩
    · have ⟨above, below⟩ := ih later
      exact ⟨Nat.lt_of_le_of_lt (opened_le_append _) above, below⟩

theorem nodup_openings (t calls : Traffic) : (openings t calls).Nodup := by
  induction calls generalizing t with
  | nil => exact List.nodup_nil
  | cons e rest ih =>
    rw [openings]
    refine List.nodup_append.mpr ⟨Option.toList_nodup _, ih _, ?_⟩
    rintro h opens _ later rfl
    obtain ⟨above, -⟩ := mem_openings later
    rw [(number_of_opened? (Option.mem_toList.mp opens)).2] at above
    exact Nat.lt_irrefl _ above

end Traffic

/-! ## Deals -/

/-- From one moment to a later one some connections are opened and some are closed. -/
def Deals (t t' : Traffic) (opened closed : List Handle) : Prop :=
  ∃ calls, t' = t ++ calls ∧ Traffic.openings t calls = opened ∧ Traffic.closings calls = closed

namespace Deals

variable {t t' t'' : Traffic} {opened opened' closed closed' : List Handle}

theorem refl (t : Traffic) : Deals t t [] [] := ⟨[], (List.append_nil t).symm, rfl, rfl⟩

theorem trans (first : Deals t t' opened closed) (second : Deals t' t'' opened' closed') :
    Deals t t'' (opened ++ opened') (closed ++ closed') := by
  obtain ⟨calls, rfl, rfl, rfl⟩ := first
  obtain ⟨calls', rfl, rfl, rfl⟩ := second
  exact ⟨calls ++ calls', List.append_assoc .., Traffic.openings_append, Traffic.closings_append⟩

theorem nodup (deals : Deals t t' opened closed) : opened.Nodup := by
  obtain ⟨calls, -, rfl, -⟩ := deals
  exact Traffic.nodup_openings t calls

/-- What is opened is new. -/
theorem number_lt (deals : Deals t t' opened closed) {h : Handle} (member : h ∈ opened) :
    t.opened h.dataSource < h.number ∧ h.number ≤ t'.opened h.dataSource := by
  obtain ⟨calls, rfl, rfl, -⟩ := deals
  exact Traffic.mem_openings member

theorem adds (deals : Deals t t' opened closed) : t <+: t' := by
  obtain ⟨calls, rfl, -⟩ := deals
  exact List.prefix_append t calls

theorem opened_le (deals : Deals t t' opened closed) (dataSource : String) : t.opened dataSource ≤ t'.opened dataSource := by
  obtain ⟨calls, rfl, -, -⟩ := deals
  exact Traffic.opened_le_append dataSource

end Deals

/-! ## Calls on connections -/

variable {b : Backend} {t : Traffic} {opened closed : List Handle}

/-- The connection that a call on a connection closes, if it is one that closes. -/
def Control.closes (c : Control) (h : Handle) : List Handle := if c = .close then [h] else []

/-- A call on a connection closes it, or neither opens nor closes any. -/
theorem controlOn_deals (h : Handle) (c : Control) :
    Ends (Deals t · opened closed) (b.controlOn h c) (fun _ t' => Deals t t' opened (closed ++ c.closes h))
      fun _ t' => Deals t t' opened (closed ++ c.closes h) := by
  intro s deals
  have next (failure : Option Failure) : Deals t (s ++ [⟨.control h c, failure⟩]) opened (closed ++ c.closes h) := by
    have closes : Traffic.closings [⟨.control h c, failure⟩] = c.closes h := by cases c <;> rfl
    exact List.append_nil opened ▸ deals.trans ⟨_, rfl, rfl, closes⟩
  rw [Backend.controlOn, Exchange.make]
  cases b.control s h c with
  | ok _ => exact next none
  | error f => exact next (some f)

theorem set_deals (h : Handle) (setting : Setting) : Preserves (Deals t · opened closed) (b.controlOn h (.set setting)) := by
  refine (controlOn_deals h (.set setting)).weaken ?_ ?_
  · exact fun _ _ deals => by simpa [Control.closes] using deals
  · exact fun _ _ deals => by simpa [Control.closes] using deals

/-- A call that connects opens a connection, unless it fails. -/
theorem openAt_deals (dataSource : String) :
    Ends (Deals t · opened closed) (b.openAt dataSource)
      (fun h t' => h.dataSource = dataSource ∧ Deals t t' (opened ++ [h]) closed) fun _ t' => Deals t t' opened closed := by
  intro s deals
  have next (failure : Option Failure) : Deals s (s ++ [⟨.connect dataSource, failure⟩])
      (Entry.opened? s ⟨.connect dataSource, failure⟩).toList [] := ⟨_, rfl, List.append_nil _, rfl⟩
  have number : (s ++ [⟨.connect dataSource, none⟩] : Traffic).opened dataSource = s.opened dataSource + 1 :=
    (Traffic.number_of_opened? (e := ⟨.connect dataSource, none⟩) rfl).2
  rw [Backend.openAt]
  simp only [Exchange.make, bind, EStateM.bind]
  cases b.connect s dataSource with
  | error f => simpa [Entry.opened?] using deals.trans (next (some f))
  | ok _ =>
    simp only [get, getThe, MonadStateOf.get, EStateM.get, pure, EStateM.pure, number, true_and]
    simpa [Entry.opened?] using deals.trans (next none)

theorem attempt_deals {α : Type} {x : Exchange α} {P R : Traffic → Prop} (ends : Ends P x (fun _ => R) fun _ => R) :
    Ends P (Exchange.attempt x) (fun _ => R) fun _ _ => False := by
  intro s holds
  have atEnd := ends s holds
  rw [Exchange.attempt]
  cases run : x s with
  | ok a t | error f t =>
    rw [run] at atEnd
    exact atEnd

end Physical

namespace Session

open Physical

variable {b : Backend} {t : Traffic} {opened closed : List Handle}

/-- Opening a connection with settings gives a new connection, or leaves none open. -/
theorem openWith_deals (settings : Settings) (dataSource : String) :
    Ends (Deals t · opened closed) (openWith b settings dataSource)
      (fun h t' => h.dataSource = dataSource ∧ Deals t t' (opened ++ [h]) closed)
      fun _ t' => ∃ lost, Deals t t' (opened ++ lost) (closed ++ lost) := by
  refine (Ends.failing (openAt_deals dataSource) fun f t' deals => ?_).bind fun h => Ends.given fun same => ?_
  · exact ⟨[], by rwa [List.append_nil, List.append_nil]⟩
  have makes : Preserves (Deals t · (opened ++ [h]) closed) (settings.made.forM fun setting => b.controlOn h (.set setting)) :=
    .forM fun setting _ => set_deals h setting
  refine ((attempt_deals makes).failing fun _ _ => False.elim).bind fun outcome => ?_
  cases outcome with
  | ok _ => exact Ends.pure fun _ deals => ⟨same, deals⟩
  | error f =>
    refine ((attempt_deals (controlOn_deals h .close)).failing fun _ _ => False.elim).bind fun _ => ?_
    exact Ends.throw fun _ deals => ⟨[h], deals⟩

/-- A call on several connections, one after the other, closes all of them if it is one that closes. -/
theorem failuresOn_deals (c : Control) (handles : List Handle) :
    Ends (Deals t · opened closed) (failuresOn b c handles)
      (fun _ t' => Deals t t' opened (closed ++ handles.flatMap c.closes)) fun _ _ => False := by
  induction handles generalizing closed with
  | nil => exact Ends.pure fun _ deals => (List.append_nil closed).symm ▸ deals
  | cons h rest ih =>
    refine (attempt_deals (controlOn_deals h c)).bind fun outcome => Ends.bind ih fun later => ?_
    rw [List.flatMap_cons, ← List.append_assoc]
    cases outcome with
    | ok _ => exact Ends.pure fun _ => id
    | error f => exact Ends.pure fun _ => id

theorem flatMap_closes (c : Control) (handles : List Handle) :
    handles.flatMap c.closes = if c = .close then handles else [] := by
  induction handles with
  | nil => simp
  | cons h rest ih =>
    rw [List.flatMap_cons, ih, Control.closes]
    split <;> rfl

end Session

end SqlSharding
