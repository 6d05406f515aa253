/-!
# Ring buffers

A ring is a fixed row of slots used round and round. One slot always stays unused, so that equal
cursors mean an empty ring; a ring of `n` slots holds `n - 1` entries, and pushing onto a full one
drops the oldest.

## Main definitions

* `Ring.push`, `Ring.pop` — the two ends
* `Ring.get?`, `Ring.modify`, `Ring.swap` — access by position, counted from the oldest entry
* `Ring.toList` — the entries, oldest first
-/

namespace SwarmVm

/-- A circular row of slots with a cursor at each end of the entries. -/
structure Ring (α : Type) where
  /-- The slots. -/
  slots : Array (Option α)
  /-- Slot of the oldest entry. -/
  start : Nat
  /-- Slot behind the newest entry. -/
  stop : Nat
deriving DecidableEq, Repr

namespace Ring

variable {α : Type}

/-- An empty ring with the given number of slots, at least two. -/
def make (capacity : Nat) : Ring α := ⟨Array.replicate (max capacity 2) none, 0, 0⟩

/-- The number of slots. -/
def capacity (r : Ring α) : Nat := r.slots.size

/-- A position reduced to a slot. -/
def wrap (r : Ring α) (position : Nat) : Nat := position % r.slots.size

/-- The number of entries. -/
def size (r : Ring α) : Nat := (r.stop + r.slots.size - r.start) % r.slots.size

/-- The ring has no entries. -/
def isEmpty (r : Ring α) : Bool := r.start = r.stop

/-- The ring has no room for another entry. -/
def isFull (r : Ring α) : Bool := r.wrap (r.stop + 1) = r.start

/-- The slot of the `i`-th entry. -/
def slot (r : Ring α) (i : Nat) : Nat := r.wrap (r.start + i)

/-- The `i`-th entry, counted from the oldest. -/
def get? (r : Ring α) (i : Nat) : Option α :=
  if i < r.size then r.slots.getD (r.slot i) none else none

/-- The entries, oldest first. -/
def toList (r : Ring α) : List α := (List.range r.size).filterMap r.get?

/-- Remove the oldest entry. -/
def pop (r : Ring α) : Option α × Ring α :=
  if r.isEmpty then (none, r)
  else
    (r.slots.getD r.start none,
      { r with slots := r.slots.setIfInBounds r.start none, start := r.wrap (r.start + 1) })

/-- Write an entry behind the newest. -/
def put (r : Ring α) (a : α) : Ring α :=
  { r with slots := r.slots.setIfInBounds r.stop (some a), stop := r.wrap (r.stop + 1) }

/-- Append an entry. A full ring drops its oldest entry first and answers it. -/
def push (r : Ring α) (a : α) : Option α × Ring α :=
  if r.isFull then
    let (evicted, rest) := r.pop
    (evicted, rest.put a)
  else (none, r.put a)

/-- Change the `i`-th entry; a position past the end is ignored. -/
def modify (r : Ring α) (i : Nat) (f : α → α) : Ring α :=
  if i < r.size then { r with slots := r.slots.modify (r.slot i) (Option.map f) } else r

/-- Exchange two entries; positions past the end are ignored. -/
def swap (r : Ring α) (i j : Nat) : Ring α :=
  if i < r.size ∧ j < r.size then
    { r with slots := r.slots.swapIfInBounds (r.slot i) (r.slot j) }
  else r

/-- Drop every entry. -/
def clear (r : Ring α) : Ring α := ⟨Array.replicate r.slots.size none, 0, 0⟩

end Ring

end SwarmVm
