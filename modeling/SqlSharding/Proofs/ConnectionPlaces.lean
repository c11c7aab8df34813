import SqlSharding.Proofs.Caches
import SqlSharding.Proofs.SessionHistories

/-!
# Where the connections of a session are

Every connection that a session opens is cached, or was closed again, or was handed over to the client, with one exception:
when connections to all members of a group are asked for, a later member can fail, and the connections to the members before
it are then abandoned. Nothing else happens to connections, and each is in one of these places only (`Run.placed`).
So none is closed twice.
-/

namespace SqlSharding.Session

open Physical (Backend Handle Traffic Deals)
open Sources (Registry Group)

/-! ## Places -/

namespace Event

/-- The connections that the client got and the session does not keep. -/
def handed (e : Event) : List Handle :=
  match e.outcome with
  | .ok handles => handles.filter (· ∉ e.after.session.cache.handles)
  | .error _ => []

/-- The connections that a failed request opened and left open. -/
def abandoned (e : Event) : List Handle :=
  match e.outcome with
  | .ok _ => []
  | .error _ => e.opened.filter (· ∉ e.closed)

/-- The connections that were cached before a request and those that it opened are in their places afterwards. -/
def Moves (e : Event) : Prop :=
  (e.before.session.cache.handles ++ e.opened).Perm (e.after.session.cache.handles ++ (e.closed ++ (e.handed ++ e.abandoned)))

end Event

section
variable (h : List Event)

def opened : List Handle := h.flatMap Event.opened

def closed : List Handle := h.flatMap Event.closed

def handed : List Handle := h.flatMap Event.handed

def abandoned : List Handle := h.flatMap Event.abandoned

end

/-! ## One request -/

namespace Event

variable {e : Event} {s t : State} {handles opened closed : List Handle} {request : Request}

theorem handed_of_subset (succeeded : e.outcome = .ok handles) (kept : handles ⊆ e.after.session.cache.handles) :
    e.handed = [] := by
  rw [handed, succeeded]
  exact List.filter_eq_nil_iff.mpr fun h member => by simpa using kept member

theorem handed_of_done (done : Outcome Unit) : handed ⟨request, s, done.map fun _ => [], t⟩ = [] := by
  cases done <;> rfl

/-- A connection that a client gets alone stays in the cache. -/
theorem handed_of_gets {logical : String} {kind : Sql.StatementKind} {outcome : Outcome Handle}
    (gets : Gets s logical kind outcome t) : handed ⟨request, s, outcome.map ([·]), t⟩ = [] := by
  cases gets with
  | missing _ | closed _ | failed _ _ _ _ _ => rfl
  | @cached key h _ _ hit =>
    refine handed_of_subset rfl ?_
    simpa using Cache.mem_handles_of_get? hit
  | @opened key h _ _ _ _ absent _ _ _ =>
    have kept : h ∈ (s.session.cache.insert key h).handles :=
      ((Cache.insert_perm h absent).map (·.2)).mem_iff.mpr List.mem_cons_self
    refine handed_of_subset rfl ?_
    simpa using kept

theorem abandoned_of_ok (succeeded : e.outcome = .ok handles) : e.abandoned = [] := by
  rw [abandoned, succeeded]

theorem abandoned_of_closing (deals : Deals e.before.traffic e.after.traffic opened closed) (closes : opened ⊆ closed) :
    e.abandoned = [] := by
  obtain ⟨rfl, rfl⟩ := of_deals deals
  rw [abandoned]
  split
  · rfl
  · exact List.filter_eq_nil_iff.mpr fun h member => by simpa using closes member

theorem abandoned_of_gets {logical : String} {kind : Sql.StatementKind} {outcome : Outcome Handle}
    (gets : Gets s logical kind outcome t) : abandoned ⟨request, s, outcome.map ([·]), t⟩ = [] := by
  cases gets with
  | missing _ | closed _ => exact abandoned_of_closing (.refl _) (List.Subset.refl _)
  | failed _ _ _ _ deals => exact abandoned_of_closing deals (List.Subset.refl _)
  | cached _ _ _ | opened _ _ _ _ _ _ => exact abandoned_of_ok rfl

/-- A request closes all connections that it opens. -/
theorem moves_of_closing (deals : Deals e.before.traffic e.after.traffic opened closed) (closes : opened ⊆ closed)
    (none : e.handed = [])
    (perm : (e.before.session.cache.handles ++ opened).Perm (e.after.session.cache.handles ++ closed)) : e.Moves := by
  have noneLeft := abandoned_of_closing deals closes
  obtain ⟨rfl, rfl⟩ := of_deals deals
  rwa [Moves, none, noneLeft, List.append_nil, List.append_nil]

/-- A request succeeds and closes none of the connections that it opens. -/
theorem moves_of_opening (deals : Deals e.before.traffic e.after.traffic opened []) (succeeded : e.outcome = .ok handles)
    (perm : (e.before.session.cache.handles ++ opened).Perm (e.after.session.cache.handles ++ e.handed)) : e.Moves := by
  obtain ⟨rfl, none⟩ := of_deals deals
  rwa [Moves, none, abandoned_of_ok succeeded, List.append_nil, List.nil_append]

/-- A request fails and leaves connections open that it has not cached. -/
theorem moves_of_abandoning {f : Failure} {left lost : List Handle}
    (deals : Deals e.before.traffic e.after.traffic (left ++ lost) lost) (failed : e.outcome = .error f)
    (same : e.after.session = e.before.session) : e.Moves := by
  have apart := List.nodup_append.mp deals.nodup
  have leaves : (left ++ lost).filter (· ∉ lost) = left := by
    have all : left.filter (· ∉ lost) = left :=
      List.filter_eq_self.mpr fun h member => decide_eq_true fun other => apart.2.2 h member h other rfl
    have none : lost.filter (· ∉ lost) = [] := List.filter_eq_nil_iff.mpr fun h member => by simpa using member
    rw [List.filter_append, all, none, List.append_nil]
  obtain ⟨opened, closed⟩ := of_deals deals
  rw [Moves, handed, abandoned, failed, opened, closed, same]
  dsimp only
  rw [leaves, List.nil_append]
  exact List.perm_append_comm.append_left _

/-- A request for one connection puts a new one in the cache, or closes it again. -/
theorem moves_of_gets {logical : String} {kind : Sql.StatementKind} {outcome : Outcome Handle}
    (gets : Gets s logical kind outcome t) : Moves ⟨request, s, outcome.map ([·]), t⟩ := by
  have none : handed ⟨request, s, outcome.map ([·]), t⟩ = [] := handed_of_gets gets
  cases gets with
  | missing _ | closed _ => exact moves_of_closing (.refl _) (List.Subset.refl _) none (.refl _)
  | failed _ _ _ _ deals => exact moves_of_closing deals (List.Subset.refl _) none (.refl _)
  | cached _ _ _ => exact moves_of_closing (.refl _) (List.Subset.refl _) none (by simp)
  | @opened key h _ _ _ _ absent _ _ deals =>
    have joins : (s.session.cache.insert key h).handles.Perm (h :: s.session.cache.handles) :=
      (Cache.insert_perm h absent).map _
    refine moves_of_opening deals rfl ?_
    rw [none, List.append_nil]
    exact (List.perm_append_singleton h _).trans joins.symm

/-- Requests move connections only between their places. -/
theorem IsServed.moves (served : e.IsServed)
    (known : ∀ h ∈ e.before.session.cache.handles, h.number ≤ e.before.traffic.opened h.dataSource) : e.Moves := by
  obtain ⟨request, s, outcome, t⟩ := e
  have served : Served s request outcome t := served
  cases served with
  | got gets | single _ gets => exact moves_of_gets gets
  | missing _ | refused _ _ | passed _ | unset _ | closedBefore _ =>
    exact moves_of_closing (.refl _) (List.Subset.refl _) rfl (.refl _)
  | @openedAll _ _ handles _ _ _ _ deals =>
    have isNew : handles.filter (· ∉ s.session.cache.handles) = handles := by
      refine List.filter_eq_self.mpr fun h member => decide_eq_true fun old => ?_
      exact Nat.not_lt_of_le (known h old) (deals.number_lt member).1
    refine moves_of_opening deals rfl ?_
    change (s.session.cache.handles ++ handles).Perm (s.session.cache.handles ++ handles.filter (· ∉ s.session.cache.handles))
    rw [isNew]
  | failedAll _ _ deals => exact moves_of_abandoning deals rfl rfl
  | @released h _ cached deals =>
    refine moves_of_closing deals (List.nil_subset _) rfl ?_
    rw [List.append_nil]
    exact (Cache.perm_remove cached).trans (List.perm_append_singleton h _).symm
  | set done _ deals | committed done deals | rolledBack done deals =>
    exact moves_of_closing deals (List.nil_subset _) (handed_of_done done) (.refl _)
  | closed done _ deals =>
    refine moves_of_closing deals (List.nil_subset _) (handed_of_done done) ?_
    rw [List.append_nil]
    exact .refl _

/-- Only connections to all members of a group are handed over. -/
theorem IsServed.of_handed (served : e.IsServed) {c : Handle} (given : c ∈ e.handed) :
    ∃ logical g handles, e.request = .getAllConnections logical ∧ e.before.registry.find logical = .ok (.group g) ∧
      e.outcome = .ok handles ∧ c ∈ handles := by
  obtain ⟨request, s, outcome, t⟩ := e
  have served : Served s request outcome t := served
  cases served with
  | got gets | single _ gets => exact absurd (handed_of_gets gets ▸ given) List.not_mem_nil
  | missing _ | refused _ _ | passed _ | unset _ | closedBefore _ | failedAll _ _ _ | released _ _ =>
    exact absurd given List.not_mem_nil
  | openedAll found _ _ _ => exact ⟨_, _, _, rfl, found, rfl, List.mem_of_mem_filter given⟩
  | set done _ _ | committed done _ | rolledBack done _ | closed done _ _ =>
    exact absurd (handed_of_done done ▸ given) List.not_mem_nil

/-- Only connections to the first members of a group are abandoned, if a later member fails. -/
theorem IsServed.of_abandoned (served : e.IsServed) {c : Handle} (lost : c ∈ e.abandoned) :
    ∃ logical g f, e.request = .getAllConnections logical ∧ e.before.registry.find logical = .ok (.group g) ∧
      e.outcome = .error f := by
  have closing {opened closed : List Handle} (deals : Deals e.before.traffic e.after.traffic opened closed)
      (closes : opened ⊆ closed) : False := List.not_mem_nil (abandoned_of_closing deals closes ▸ lost)
  obtain ⟨request, s, outcome, t⟩ := e
  have served : Served s request outcome t := served
  cases served with
  | got gets | single _ gets => exact absurd (abandoned_of_gets gets ▸ lost) List.not_mem_nil
  | missing _ | refused _ _ | passed _ | unset _ | closedBefore _ => exact (closing (.refl _) (List.Subset.refl _)).elim
  | openedAll _ _ _ _ => exact absurd lost List.not_mem_nil
  | failedAll found _ _ => exact ⟨_, _, _, rfl, found, rfl⟩
  | released _ deals | set _ _ deals | committed _ deals | rolledBack _ deals | closed _ _ deals =>
    exact (closing deals (List.nil_subset _)).elim

end Event

/-! ## A whole history -/

variable {b : Backend} {r : Registry} {h : List Event} {e : Event} {s : State} {c : Handle}

section
variable (h e)

@[simp]
theorem opened_concat : opened (h ++ [e]) = opened h ++ e.opened := by simp [opened]

@[simp]
theorem closed_concat : closed (h ++ [e]) = closed h ++ e.closed := by simp [closed]

@[simp]
theorem handed_concat : handed (h ++ [e]) = handed h ++ e.handed := by simp [handed]

@[simp]
theorem abandoned_concat : abandoned (h ++ [e]) = abandoned h ++ e.abandoned := by simp [abandoned]

end

/-- Each connection that was opened is in one place. -/
structure Placed (h : List Event) (s : State) : Prop where
  nodup : (opened h).Nodup
  number_le : ∀ c ∈ opened h, c.number ≤ s.traffic.opened c.dataSource
  perm : (opened h).Perm (s.session.cache.handles ++ (closed h ++ (handed h ++ abandoned h)))

namespace Placed

theorem start (t : Traffic) : Placed [] ⟨.new, r, t⟩ where
  nodup := List.nodup_nil
  number_le := nofun
  perm := .refl _

theorem cached (placed : Placed h s) (member : c ∈ s.session.cache.handles) : c ∈ opened h :=
  placed.perm.mem_iff.mpr (List.mem_append_left _ member)

theorem serve (placed : Placed h e.before) (served : e.IsServed) : Placed (h ++ [e]) e.after where
  nodup := by
    rw [opened_concat]
    refine placed.nodup.append served.deals.nodup fun c before new => ?_
    exact Nat.not_lt_of_le (placed.number_le c before) (served.deals.number_lt new).1
  number_le := by
    intro c member
    rw [opened_concat, List.mem_append] at member
    rcases member with before | new
    · exact (placed.number_le c before).trans (served.deals.opened_le c.dataSource)
    · exact (served.deals.number_lt new).2
  perm := by
    have moves := served.moves fun c member => placed.number_le c (placed.cached member)
    have before := placed.perm
    rw [opened_concat, closed_concat, handed_concat, abandoned_concat]
    rw [Event.Moves] at moves
    simp only [List.perm_iff_count, List.count_append] at before moves ⊢
    intro c
    specialize before c
    specialize moves c
    omega

theorem elsewhere (placed : Placed h s) (r' : Registry) (calls : Traffic) : Placed h ⟨s.session, r', s.traffic ++ calls⟩ where
  nodup := placed.nodup
  number_le := fun c member => (placed.number_le c member).trans (Traffic.opened_le_append _)
  perm := placed.perm

end Placed

/-- After any history each connection that the session opened is in one place. -/
theorem Run.placed (run : Run b r h s) : Placed h s :=
  run.invariant Placed.start (fun _ _ _ served placed => placed.serve served) fun _ _ r' calls placed => placed.elsewhere r' calls

/-- A connection is abandoned if it is in no other place. -/
theorem mem_abandoned_iff (run : Run b r h s) :
    c ∈ abandoned h ↔ c ∈ opened h ∧ c ∉ s.session.cache.handles ∧ c ∉ closed h ∧ c ∉ handed h := by
  have placed := run.placed
  have apart := placed.perm.nodup_iff.mp placed.nodup
  rw [placed.perm.mem_iff]
  simp only [List.nodup_append, List.mem_append] at apart ⊢
  constructor
  · intro lost
    exact ⟨.inr (.inr (.inr lost)), fun cached => apart.2.2 c cached c (.inr (.inr lost)) rfl,
      fun closed => apart.2.1.2.2 c closed c (.inr lost) rfl, fun handed => apart.2.1.2.1.2.2 c handed c lost rfl⟩
  · rintro ⟨cached | closed | handed | lost, notCached, notClosed, notHanded⟩
    · exact absurd cached notCached
    · exact absurd closed notClosed
    · exact absurd handed notHanded
    · exact lost

/-- No connection is closed twice. One that a session opened is cached, or was closed, or the client got it with those to the
other members of a group. The only exceptions were opened for such a request that failed. -/
theorem places_of_run (run : Run b r h s) :
    (closed h).Nodup ∧ closed h ⊆ opened h ∧
      ∀ c ∈ opened h, c ∈ s.session.cache.handles ∨ c ∈ closed h ∨
        (∃ e ∈ h, ∃ logical handles, e.request = .getAllConnections logical ∧ e.outcome = .ok handles ∧ c ∈ handles) ∨
        ∃ e ∈ h, c ∈ e.opened ∧ c ∉ e.closed ∧ ∃ logical g f, e.request = .getAllConnections logical ∧
          r.find logical = .ok (.group g) ∧ e.outcome = .error f := by
  have placed := run.placed
  have apart := placed.perm.nodup_iff.mp placed.nodup
  refine ⟨(List.nodup_append.mp (List.nodup_append.mp apart).2.1).1, fun c member => ?_, fun c member => ?_⟩
  · exact placed.perm.mem_iff.mpr (List.mem_append_right _ (List.mem_append_left _ member))
  have served {e : Event} (happened : e ∈ h) : r.SameMembers e.before.registry ∧ e.IsServed := by
    obtain ⟨h₁, h₂, rfl⟩ := List.append_of_mem happened
    exact ⟨run.before.1.sameMembers, run.served⟩
  have place := placed.perm.mem_iff.mp member
  simp only [List.mem_append] at place
  rcases place with cached | closed | given | lost
  · exact .inl cached
  · exact .inr (.inl closed)
  · obtain ⟨e, happened, given⟩ := List.mem_flatMap.mp given
    obtain ⟨logical, g, handles, isAll, -, succeeded, member⟩ := (served happened).2.of_handed given
    exact .inr (.inr (.inl ⟨e, happened, logical, handles, isAll, succeeded, member⟩))
  · obtain ⟨e, happened, lost⟩ := List.mem_flatMap.mp lost
    obtain ⟨same, served⟩ := served happened
    obtain ⟨logical, g, f, isAll, found, failed⟩ := served.of_abandoned lost
    obtain ⟨g', isGroup, -⟩ := same.symm.find_group found
    rw [Event.abandoned, failed] at lost
    have left := List.mem_filter.mp lost
    exact .inr (.inr (.inr ⟨e, happened, left.1, by simpa using left.2, logical, g', f, isAll, isGroup, failed⟩))

/-- Connections to all members of a group are asked for, and the first slave refuses: the connection to the master stays open
and is nowhere. -/
example : abandoned [.of (refusingBackend "a") ⟨.new, Client.threeSources, []⟩ (.getAllConnections "ds_1")] = [⟨"m", 1⟩] := by
  cbv

end SqlSharding.Session
