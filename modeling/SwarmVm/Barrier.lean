/-!
# Sense-reversing barrier

A barrier holds a fixed number of participants back until all of them have arrived. It counts the
arrivals of a round and keeps one bit, its sense, which is flipped by the last to arrive. Everyone
else remembers the sense found on arrival and is held back while it is still current.

## Main definitions

* `Barrier.arrive` — one participant enters
* `Barrier.holds` — whether a participant is still held back
* `Barrier.leaders` — how many arrivals end a round, when all participants pass a number of rounds
-/

namespace SwarmVm

/-- A reusable barrier. -/
structure Barrier where
  /-- How many participants a round needs. -/
  participants : Nat
  /-- Arrivals of the current round. -/
  arrived : Nat := 0
  /-- The sense of the current round. -/
  sense : Bool := false
deriving DecidableEq, Repr

namespace Barrier

/-- A barrier for the given number of participants, at least one. -/
def make (participants : Nat) : Barrier := { participants := max participants 1 }

/-- What becomes of a participant that arrives. -/
inductive Arrival where
  /-- It is the last of the round and goes on at once. -/
  | leads
  /-- It is held back while the sense is this one. -/
  | waits (sense : Bool)
deriving DecidableEq, Repr

/-- A participant arrives. -/
def arrive (b : Barrier) : Arrival × Barrier :=
  if b.arrived + 1 = b.participants then (.leads, { b with arrived := 0, sense := !b.sense })
  else (.waits b.sense, { b with arrived := b.arrived + 1 })

/-- A participant that found the sense `s` on arrival is still held back. -/
def holds (b : Barrier) (s : Bool) : Bool := b.sense = s

/-- Let `n` participants arrive one after the other, and count those that lead. -/
def arriveMany (b : Barrier) : Nat → Nat × Barrier
  | 0 => (0, b)
  | n + 1 =>
    let (arrival, b) := b.arrive
    let (leaders, b) := b.arriveMany n
    ((if arrival = .leads then 1 else 0) + leaders, b)

/-- The arrivals that lead, when every participant passes the given number of rounds. -/
def leaders (b : Barrier) (rounds : Nat) : Nat := (b.arriveMany (rounds * b.participants)).1

end Barrier

end SwarmVm
