import SwarmVm.Sensors

/-!
# The radio

Simulated robots stand on a line and share one medium. What a robot sends reaches every other
robot in range, and waits in that robot's tray until it takes it at the start of the next tick.

## Main definitions

* `Radio.inRange` — who hears whom
* `Radio.send` — payloads put in the trays of everyone in range
* `Radio.takeAll` — the trays emptied, at the start of a tick
* `Radio.sighting` — how one robot sees another
-/

namespace SwarmVm

/-- A payload as it goes through the air. -/
abbrev Payload := List UInt8

/-- One tray of payloads for each robot, oldest first. -/
structure Radio where
  /-- The trays. -/
  trays : Array (Array Payload)
deriving DecidableEq, Repr

namespace Radio

/-- The distance between neighbors on the line, in sensor units. -/
def spacing : UInt16 := 10

/-- A radio for a number of robots. -/
def make (robots : Nat) : Radio := ⟨Array.replicate robots #[]⟩

/-- The number of places between two robots. -/
def apart (a b : Nat) : Nat := (a - b) + (b - a)

/-- Two different robots at most `range` places apart. -/
def inRange (range a b : Nat) : Bool := a != b && apart a b ≤ range

/-- Empty every tray. Answers what was in them. -/
def takeAll (r : Radio) : Array (Array Payload) × Radio := (r.trays, make r.trays.size)

/-- Put payloads in the tray of everyone in range of the sender. -/
def send (r : Radio) (range sender : Nat) (payloads : List Payload) : Radio :=
  ⟨r.trays.mapIdx fun robot tray =>
    if inRange range sender robot then tray ++ payloads.toArray else tray⟩

/-- How a robot sees another one on the line: ahead or behind, at the height it is itself. The
distance is a product of sixteen bits, which wraps around from 6554 places on. -/
def sighting (robot other : Nat) : Sighting where
  robot := UInt16.ofNat other
  distance := (min (UInt16.ofNat (apart robot other) * spacing) 255).toUInt8
  azimuth := if robot < other then 0 else 128
  elevation := 0

/-- Everyone a robot sees. -/
def sightings (robots range robot : Nat) : List Sighting :=
  ((List.range robots).filter (inRange range robot)).map (sighting robot)

end Radio

end SwarmVm
