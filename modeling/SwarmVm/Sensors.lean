import SwarmVm.Value

/-!
# Neighbor sensors

The embedder tells a machine, once every control cycle, which robots it sees and where. A robot is
listed once; a full list takes no more.
-/

namespace SwarmVm

/-- Where a neighbor is seen. -/
structure Sighting where
  /-- The neighbor. -/
  robot : RobotId
  /-- How far it is. -/
  distance : UInt8
  /-- In which direction. -/
  azimuth : UInt8
  /-- How high. -/
  elevation : UInt8
deriving DecidableEq, Repr

/-- The neighbors seen in the current control cycle. -/
structure Sensors where
  /-- The sightings, in the order in which the robots were first seen. -/
  sightings : List Sighting := []
  /-- The most robots that are listed. -/
  capacity : Nat
deriving DecidableEq, Repr

namespace Sensors

/-- Forget every neighbor. -/
def reset (s : Sensors) : Sensors := { s with sightings := [] }

/-- Where a robot is seen. -/
def get? (s : Sensors) (robot : RobotId) : Option Sighting :=
  s.sightings.find? (·.robot == robot)

/-- Add a neighbor, or replace what was known of it. Answers false when the list is full. -/
def add (s : Sensors) (seen : Sighting) : Bool × Sensors :=
  if (s.get? seen.robot).isSome then
    let replace (old : Sighting) := if old.robot == seen.robot then seen else old
    (true, { s with sightings := s.sightings.map replace })
  else if s.capacity ≤ s.sightings.length then (false, s)
  else (true, { s with sightings := s.sightings ++ [seen] })

/-- The number of neighbors. -/
def size (s : Sensors) : Nat := s.sightings.length

/-- No neighbor is seen. -/
def isEmpty (s : Sensors) : Bool := s.sightings.isEmpty

end Sensors

end SwarmVm
