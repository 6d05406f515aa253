import SwarmVm.Ring
import SwarmVm.Wire

/-!
# Outgoing messages

Messages wait in the order of their kinds, and within a kind in the order they came. A full outbox
makes room by dropping the message at its front.
-/

namespace SwarmVm

/-- Messages to send, the most urgent first. -/
structure Outbox where
  /-- The messages, sorted by kind. -/
  queue : Ring (Message Value)
deriving DecidableEq, Repr

namespace Outbox

/-- An empty outbox with the given number of slots. -/
def make (capacity : Nat) : Outbox := ⟨Ring.make capacity⟩

/-- The number of messages. -/
def size (o : Outbox) : Nat := o.queue.size

/-- There is nothing to send. -/
def isEmpty (o : Outbox) : Bool := o.queue.isEmpty

/-- The messages in the order in which they will be sent. -/
def toList (o : Outbox) : List (Message Value) := o.queue.toList

/-- Move the message at a position forward past every message of a later kind. -/
def settle : Nat → Ring (Message Value) → Ring (Message Value)
  | 0, queue => queue
  | i + 1, queue =>
    match queue.get? i, queue.get? (i + 1) with
    | some before, some current =>
      if before.kind.tag ≤ current.kind.tag then queue else settle i (queue.swap i (i + 1))
    | _, _ => queue

/-- Add a message behind those of the same or an earlier kind. Answers what a full outbox dropped
for it. -/
def append (o : Outbox) (m : Message Value) : Option (Message Value) × Outbox :=
  let (evicted, queue) := o.queue.push m
  (evicted, ⟨settle (queue.size - 1) queue⟩)

/-- The next message to send. -/
def first? (o : Outbox) : Option (Message Value) := o.queue.get? 0

/-- Write the next message to the front of a buffer. -/
def firstInto? (o : Outbox) (buffer : List UInt8) : Option (Nat × List UInt8) :=
  o.first?.bind (Wire.writeInto? · buffer)

/-- Drop the next message. -/
def next (o : Outbox) : Option (Message Value) × Outbox :=
  let (m, queue) := o.queue.pop
  (m, ⟨queue⟩)

/-- Drop every message. -/
def clear (o : Outbox) : Outbox := ⟨o.queue.clear⟩

/-- The bytes of every message, in sending order; `none` for a message that has none. -/
def encoded (o : Outbox) : List (Option (List UInt8)) := o.toList.map Wire.encode?

end Outbox

end SwarmVm
