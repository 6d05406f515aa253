import SwarmVm.Robot

/-!
# Simulation

A swarm of robots runs the same script in lockstep. In every tick each robot first takes what was
sent to it in the tick before, and all robots have done so before the first one sends again.
-/

namespace SwarmVm

/-- Robots on a line with the radio they share. -/
structure Simulation where
  /-- The robots, by number. -/
  robots : Array Robot
  /-- What is on its way. -/
  radio : Radio
  /-- How many places the radio reaches. -/
  range : Nat

namespace Simulation

/-- A swarm of robots with the same script. -/
def boot (level : Level) (settings : Settings) (image : List UInt8) (robots range : Nat) :
    Simulation where
  robots := ((List.range robots).map fun i =>
    Robot.boot level { settings with robot := UInt16.ofNat i } image).toArray
  radio := Radio.make robots
  range := range

/-- The control cycle of one robot in a tick, with the payloads it took at its start. A robot that
failed stays silent. -/
def robotCycle (s : Simulation) (i : Nat) (heard : Array Payload) : Simulation :=
  match s.robots[i]?.bind (·.machine) with
  | none => s
  | some m =>
    if Robot.isAlive m then
      let seen := Radio.sightings s.robots.size s.range i
      let (sent, m) := Robot.cycle seen heard.toList m
      { s with
        robots := s.robots.setIfInBounds i ⟨some m, #[]⟩
        radio := s.radio.send s.range i sent }
    else s

/-- One tick. -/
def tick (s : Simulation) : Simulation :=
  let (heard, radio) := s.radio.takeAll
  (List.range s.robots.size).foldl (fun s i => s.robotCycle i (heard.getD i #[]))
    { s with radio }

/-- A number of ticks. -/
def ticks : Nat → Simulation → Simulation
  | 0, s => s
  | n + 1, s => ticks n s.tick

/-- All robots booted and none failed. -/
def succeeded (s : Simulation) : Bool := s.robots.all Robot.succeeded

/-- The lines of all robots, robot by robot. -/
def finalLines (s : Simulation) : Array String := s.robots.flatMap Robot.finalLines

end Simulation

end SwarmVm
