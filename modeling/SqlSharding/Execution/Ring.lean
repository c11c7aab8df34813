/-!
# Rings

A ring keeps the last items that were pushed, up to its capacity. It grows until it is full; from then on each item takes
the place of the oldest one.
-/

namespace SqlSharding.Execution

structure Ring (α : Type) where
  capacity : Nat
  /-- The places in use. -/
  slots : List α
  /-- The place of the oldest item. -/
  head : Nat
  /-- The number of items. -/
  size : Nat
  deriving Inhabited, Repr

namespace Ring

/-- An empty ring. -/
def empty (capacity : Nat) : Ring α := ⟨capacity, [], 0, 0⟩

/-- The place of an item, counted from the oldest one. -/
def place (r : Ring α) (i : Nat) : Nat := (r.head + i) % r.capacity

/-- Adds an item. A ring without capacity keeps nothing. -/
def push (r : Ring α) (a : α) : Ring α :=
  if r.capacity = 0 then r
  else
    let slots := if r.slots.length < r.capacity then r.slots ++ [a] else r.slots.set (r.place r.size) a
    if r.size = r.capacity then { r with slots, head := r.place 1 } else { r with slots, size := r.size + 1 }

/-- The items, the oldest one first. -/
def toList (r : Ring α) : List α := (List.range r.size).filterMap fun i => r.slots[r.place i]?

/-- The ring without its items. -/
def clear (r : Ring α) : Ring α := empty r.capacity

end Ring

end SqlSharding.Execution
