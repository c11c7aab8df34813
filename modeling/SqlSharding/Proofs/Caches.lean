import Mathlib
import SqlSharding.Session.Cache

/-!
# Connections in a cache

What the cache of a session holds after a connection was put at a free place or removed: the connection under each key, and
all connections together.
-/

namespace SqlSharding.Session.Cache

open Physical (Handle)

variable {c : Cache} {key other : CacheKey} {h h' : Handle}

theorem get?_cons (entry : CacheKey × Handle) (c : Cache) (key : CacheKey) :
    get? (entry :: c) key = if entry.1 = key then some entry.2 else c.get? key := by
  rw [get?, List.find?_cons]
  by_cases same : entry.1 = key
  · simp [same]
  · simp [same, get?]

/-- A connection is found under its key, and all others are found as before. -/
theorem get?_insert (c : Cache) (key other : CacheKey) (h : Handle) :
    (c.insert key h).get? other = if key = other then some h else c.get? other := by
  induction c with
  | nil => rw [insert, get?_cons]
  | cons entry rest ih =>
    rw [insert]
    split
    · next same =>
      simp only [get?_cons, same]
      split <;> rfl
    · next different =>
      split
      · rw [get?_cons]
      · simp only [get?_cons, ih]
        by_cases here : entry.1 = other
        · rw [if_pos here, if_neg fun same => different (same.trans here.symm), if_pos here]
        · rw [if_neg here, if_neg here]

theorem mem_of_get? (hit : c.get? key = some h) : (key, h) ∈ c := by
  obtain ⟨⟨found, _⟩, isFound, rfl⟩ := Option.map_eq_some_iff.mp hit
  have same : found = key := by simpa using List.find?_some isFound
  exact same ▸ List.mem_of_find?_eq_some isFound

theorem mem_handles_of_get? (hit : c.get? key = some h) : h ∈ c.handles := List.mem_map_of_mem (mem_of_get? hit)

theorem get?_eq_none_iff : c.get? key = none ↔ key ∉ c.map (·.1) := by
  simp only [get?, Option.map_eq_none_iff, List.find?_eq_none, decide_eq_true_eq, List.mem_map, not_exists, not_and]

/-- At a free place a connection joins the others. -/
theorem insert_perm (h : Handle) (absent : c.get? key = none) : (c.insert key h).Perm ((key, h) :: c) := by
  induction c with
  | nil => exact .refl _
  | cons entry rest ih =>
    rw [get?_cons] at absent
    split at absent
    · cases absent
    · next different =>
      rw [insert, if_neg fun same => different same.symm]
      split
      · exact .refl _
      · exact ((ih absent).cons entry).trans (.swap _ _ _)

/-- A removed connection is one of the cached ones, and the others stay. -/
theorem perm_remove (cached : h ∈ c.handles) : c.handles.Perm (h :: (c.remove h).handles) := by
  obtain ⟨entry, member, isEntry⟩ := List.mem_map.mp cached
  obtain ⟨⟨key, _⟩, front, rest, -, same, whole, remaining⟩ :=
    List.exists_of_eraseP (p := fun entry => entry.2 = h) member (by simpa using isEntry)
  obtain rfl : _ = h := by simpa using same
  rw [remove, remaining, whole, handles, handles, List.map_append, List.map_append]
  exact List.perm_middle

/-- Other connections are found as before. -/
theorem get?_remove (hit : c.get? key = some h) (different : h ≠ h') : (c.remove h').get? key = some h := by
  induction c with
  | nil => cases hit
  | cons entry rest ih =>
    rw [get?_cons] at hit
    simp only [remove, List.eraseP_cons, cond_eq_ite, decide_eq_true_eq]
    split at hit
    · next here =>
      cases hit
      rw [if_neg different, get?_cons, if_pos here]
    · next elsewhere =>
      split
      · exact hit
      · rw [get?_cons, if_neg elsewhere]
        exact ih hit

theorem keys_remove_sublist (c : Cache) (h : Handle) : ((c.remove h).map (·.1)).Sublist (c.map (·.1)) := List.eraseP_sublist.map _

end SqlSharding.Session.Cache
