import Mathlib
import SqlSharding.Execution.Ring

/-!
# Rings after any history

The items of a ring are numbered in the order in which they were pushed since the last clearing, and item `k` stands at place `k`
counted around the ring (`Ring.Keeps`). This holds while the ring fills, when it is full and after its head has gone round, so a ring
always shows the last of the pushed items, as many as its capacity allows (`Ring.toList_run`).
-/

namespace SqlSharding.Execution

variable {α : Type}

/-- What is done to a ring. -/
inductive RingStep (α : Type) where
  | push (a : α)
  | clear

namespace RingStep

/-- The item of a push. -/
def item? : RingStep α → Option α
  | push a => some a
  | clear => none

/-- The items pushed since the last clearing. -/
def pushed (steps : List (RingStep α)) : List α := ((steps.reverse.takeWhile (·.item?.isSome)).reverse).filterMap item?

theorem pushed_push (steps : List (RingStep α)) (a : α) : pushed (steps ++ [push a]) = pushed steps ++ [a] := by
  simp [pushed, item?]

theorem pushed_clear (steps : List (RingStep α)) : pushed (steps ++ [clear]) = [] := by
  simp [pushed, item?]

end RingStep

namespace Ring

variable {r : Ring α} {items : List α} {steps : List (RingStep α)}

/-- The ring after a step. -/
def step (r : Ring α) : RingStep α → Ring α
  | .push a => r.push a
  | .clear => r.clear

/-- A ring to which these items were pushed since it was empty. The newest ones are in use, each at the place of its number. -/
structure Keeps (r : Ring α) (items : List α) : Prop where
  size : r.size = min r.capacity items.length
  slots : r.slots.length = r.size
  head : 0 < r.capacity → r.head = (items.length - r.size) % r.capacity
  stands : ∀ k, items.length - r.size ≤ k → k < items.length → r.slots[k % r.capacity]? = items[k]?

theorem Keeps.empty (capacity : Nat) : (empty capacity : Ring α).Keeps [] where
  size := (Nat.min_zero _).symm
  slots := rfl
  head _ := (Nat.zero_mod _).symm
  stands k _ inside := absurd inside (Nat.not_lt_zero k)

namespace Keeps

/-- The items are found from the head on, in the order of their numbers. -/
theorem place_eq (keeps : r.Keeps items) (positive : 0 < r.capacity) (i : Nat) :
    r.place i = (items.length - r.size + i) % r.capacity := by
  rw [place, keeps.head positive, Nat.mod_add_mod]

theorem getElem?_place (keeps : r.Keeps items) {i : Nat} (inside : i < r.size) :
    r.slots[r.place i]? = items[items.length - r.size + i]? := by
  have size := keeps.size
  rw [keeps.place_eq (by omega)]
  exact keeps.stands _ (Nat.le_add_right _ _) (by omega)

/-- No place that the ring reads is out of use. -/
theorem place_lt (keeps : r.Keeps items) {i : Nat} (inside : i < r.size) : r.place i < r.slots.length := by
  have size := keeps.size
  have read := keeps.getElem?_place inside
  rw [List.getElem?_eq_getElem (show items.length - r.size + i < items.length by omega)] at read
  exact (List.getElem?_eq_some_iff.mp read).1

theorem toList_eq (keeps : r.Keeps items) : r.toList = items.rtake r.size := by
  have size := keeps.size
  have reads : (List.range r.size).map (fun i => r.slots[r.place i]?) = (items.rtake r.size).map some := by
    apply List.ext_getElem?
    intro i
    rw [List.rtake, List.getElem?_map, List.getElem?_map, List.getElem?_drop]
    by_cases inside : i < r.size
    · rw [List.getElem?_range inside, Option.map_some, keeps.getElem?_place inside,
        List.getElem?_eq_getElem (show items.length - r.size + i < items.length by omega)]
      rfl
    · rw [List.getElem?_eq_none (by simpa using inside), List.getElem?_eq_none (by omega)]
      rfl
  have found := congrArg (List.filterMap id) reads
  rwa [List.filterMap_map, List.filterMap_map, Function.id_comp, Function.id_comp, List.filterMap_some] at found

/-- While the ring fills, a new item takes the next free place, which is that of its number. -/
theorem push_free (keeps : r.Keeps items) (free : items.length < r.capacity) (a : α) : (r.push a).Keeps (items ++ [a]) := by
  obtain ⟨size, slots, head, stands⟩ := keeps
  have pushed : r.push a = { r with slots := r.slots ++ [a], size := r.size + 1 } := by
    rw [Ring.push, if_neg (by omega), if_neg (by omega), if_pos (by omega)]
  rw [pushed]
  refine ⟨?_, ?_, fun positive => ?_, fun k _ inside => ?_⟩
  · rw [List.length_append, List.length_singleton]
    dsimp only
    omega
  · rw [List.length_append, List.length_singleton, slots]
  · rw [head positive, List.length_append, List.length_singleton]
    dsimp only
    congr 1
    omega
  · rw [List.length_append, List.length_singleton] at inside
    have around : k % r.capacity = k := Nat.mod_eq_of_lt (by omega)
    dsimp only
    rw [around]
    by_cases newest : k = items.length
    · rw [newest, List.getElem?_concat_length, show items.length = r.slots.length by omega, List.getElem?_concat_length]
    · have old := stands k (by omega) (by omega)
      rw [around] at old
      rw [List.getElem?_append_left (by omega), List.getElem?_append_left (by omega), old]

/-- In a full ring the place of the new number is that of the oldest item, one turn of the ring before it; no other number in use
has that place. -/
theorem push_full (keeps : r.Keeps items) (positive : 0 < r.capacity) (full : r.capacity ≤ items.length) (a : α) :
    (r.push a).Keeps (items ++ [a]) := by
  have place := keeps.place_eq positive
  obtain ⟨size, slots, -, stands⟩ := keeps
  have isFull : r.size = r.capacity := by omega
  have pushed : r.push a = { r with slots := r.slots.set (items.length % r.capacity) a, head := r.place 1 } := by
    rw [Ring.push, if_neg (by omega), if_pos isFull, if_neg (by omega), place r.size, Nat.sub_add_cancel (by omega)]
  rw [pushed]
  refine ⟨?_, ?_, fun _ => ?_, fun k recent inside => ?_⟩
  · rw [List.length_append, List.length_singleton]
    dsimp only
    omega
  · rw [List.length_set, slots]
  · rw [List.length_append, List.length_singleton, place 1]
    dsimp only
    congr 1
    omega
  · rw [List.length_append, List.length_singleton] at recent inside
    dsimp only at recent ⊢
    by_cases newest : k = items.length
    · have inUse : items.length % r.capacity < r.slots.length := by
        rw [slots, isFull]
        exact Nat.mod_lt _ positive
      rw [newest, List.getElem?_concat_length, List.getElem?_set_self inUse]
    · have apart : items.length % r.capacity ≠ k % r.capacity := by
        intro same
        have turns := (Nat.modEq_iff_dvd' (show k ≤ items.length by omega)).mp same.symm
        exact absurd (Nat.le_of_dvd (by omega) turns) (by omega)
      rw [List.getElem?_set_ne apart, List.getElem?_append_left (by omega), stands k (by omega) (by omega)]

/-- A push numbers one more item, except in a ring without capacity, which holds none anyway. -/
theorem push (keeps : r.Keeps items) (a : α) : (r.push a).Keeps (items ++ [a]) := by
  rcases Nat.eq_zero_or_pos r.capacity with none | positive
  · obtain ⟨size, slots, -, -⟩ := keeps
    rw [Ring.push, if_pos none]
    exact ⟨by omega, slots, fun positive => absurd none (by omega), fun k recent inside => absurd recent (by omega)⟩
  · rcases Nat.lt_or_ge items.length r.capacity with free | full
    · exact keeps.push_free free a
    · exact keeps.push_full positive full a

theorem step (keeps : r.Keeps (RingStep.pushed steps)) (s : RingStep α) : (r.step s).Keeps (RingStep.pushed (steps ++ [s])) := by
  cases s with
  | push a =>
    rw [RingStep.pushed_push]
    exact keeps.push a
  | clear =>
    rw [RingStep.pushed_clear]
    exact .empty r.capacity

end Keeps

theorem capacity_step (r : Ring α) (s : RingStep α) : (r.step s).capacity = r.capacity := by
  cases s with
  | push a =>
    rw [step, push]
    repeat' split
    all_goals rfl
  | clear => rfl

/-- The ring after some steps. -/
def run (capacity : Nat) (steps : List (RingStep α)) : Ring α := steps.foldl step (empty capacity)

theorem keeps_run (capacity : Nat) (steps : List (RingStep α)) :
    (run capacity steps).Keeps (RingStep.pushed steps) ∧ (run capacity steps).capacity = capacity := by
  induction steps using List.reverseRecOn with
  | nil => exact ⟨.empty capacity, rfl⟩
  | append_singleton steps s ih =>
    obtain ⟨keeps, same⟩ := ih
    rw [run, List.foldl_append]
    exact ⟨keeps.step s, (capacity_step _ s).trans same⟩

/-- After any pushes and clearings a ring shows the last of the items that were pushed since the last clearing, in the order of the
pushes, as many as its capacity allows; its size is their number, and it reads no place that is out of use. -/
theorem toList_run (capacity : Nat) (steps : List (RingStep α)) :
    (run capacity steps).toList = (RingStep.pushed steps).rtake (min capacity (RingStep.pushed steps).length) ∧
      (run capacity steps).size = min capacity (RingStep.pushed steps).length ∧
      (run capacity steps).toList.length = (run capacity steps).size ∧
      ∀ i < (run capacity steps).size, (run capacity steps).place i < (run capacity steps).slots.length := by
  obtain ⟨keeps, same⟩ := keeps_run capacity steps
  have size := keeps.size
  rw [same] at size
  refine ⟨by rw [keeps.toList_eq, size], size, ?_, fun i inside => keeps.place_lt inside⟩
  rw [keeps.toList_eq, List.rtake, List.length_drop]
  omega

example : (run 2 [.push 1, .push 2, .push 3, .clear, .push 4, .push 5, .push 6]).toList = [5, 6] := by decide

end Ring

end SqlSharding.Execution
