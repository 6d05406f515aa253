import SwarmVm.Clock
import SwarmVm.Log

/-!
# Swarm membership

A robot belongs to up to eight swarms, one bit of a mask each. Every change is announced with the
next value of a sixteen-bit clock, and the whole mask is announced periodically. The other robots
keep what they heard in a bounded list, in which an entry that is not refreshed dies after fifty
ticks.

## Main definitions

* `Membership.setMember` — join or leave a swarm
* `Membership.apply` — take in what another robot announced
* `Membership.tick` — age the list, and announce the mask every tenth tick
-/

namespace SwarmVm

/-- What is known of another robot's membership. -/
structure MemberEntry where
  /-- The robot. -/
  robot : RobotId
  /-- Its mask as last heard. -/
  swarms : UInt8
  /-- The clock of that announcement. -/
  clock : UInt16
  /-- Ticks left to live. -/
  life : Nat
deriving DecidableEq, Repr

/-- The membership of this robot and what it knows of the others. -/
structure Membership where
  /-- This robot's mask. -/
  mask : UInt8 := 0
  /-- The clock of this robot's changes. -/
  clock : UInt16 := 0
  /-- The other robots, in the order in which they were first heard. -/
  entries : List MemberEntry := []
  /-- The most robots that are listed. -/
  capacity : Nat
  /-- Ticks since the start. -/
  ticks : UInt16 := 0
deriving DecidableEq, Repr

namespace Membership

/-- Ticks between two announcements of the whole mask. -/
def period : Nat := 10

/-- Ticks that an entry lives without being refreshed. -/
def lifetime : Nat := 50

/-- How many swarms there are. -/
def maxSwarms : Nat := 8

/-- The mask of one swarm. -/
def bit (swarm : UInt8) : UInt8 := 1 <<< swarm

/-- This robot belongs to a swarm. -/
def isMember (m : Membership) (swarm : UInt8) : Bool := m.mask &&& bit swarm != 0

/-- The mask last heard of a robot. -/
def robotSwarms? (m : Membership) (robot : RobotId) : Option UInt8 :=
  (m.entries.find? (·.robot == robot)).map (·.swarms)

/-- A robot is known to share a swarm with this one. -/
def isKin (m : Membership) (robot : RobotId) : Bool :=
  (m.robotSwarms? robot).any fun swarms => swarms &&& m.mask != 0

/-- Join or leave a swarm. A change advances the clock and is announced. -/
def setMember (m : Membership) (robot : RobotId) (swarm : UInt8) (member : Bool) :
    Option (Message Value) × Membership :=
  if m.isMember swarm = member then (none, m)
  else
    let mask := if member then m.mask ||| bit swarm else m.mask &&& ~~~ bit swarm
    let clock := m.clock + 1
    (some (.swarm (if member then .join else .leave) robot clock (bit swarm)),
      { m with mask, clock })

/-- The mask after an announcement, `none` when the announcement is stale. The whole mask is also
taken at an equal clock, a change only after it. -/
def updated? (e : MemberEntry) (op : SwarmOp) (clock : UInt16) (swarms : UInt8) : Option UInt8 :=
  match op with
  | .list => if Clock.notOlder clock e.clock then some swarms else none
  | .join => if Clock.isAfter clock e.clock then some (e.swarms ||| swarms) else none
  | .leave => if Clock.isAfter clock e.clock then some (e.swarms &&& ~~~ swarms) else none

/-- An entry after an announcement of its robot. It is refreshed even when that is stale. -/
def MemberEntry.apply (e : MemberEntry) (op : SwarmOp) (clock : UInt16) (swarms : UInt8) :
    MemberEntry :=
  match updated? e op clock swarms with
  | some after => { e with swarms := after, clock, life := lifetime }
  | none => { e with life := lifetime }

/-- A robot that was not listed, as if it had last announced nothing just before `clock`. -/
def newcomer (robot : RobotId) (clock : UInt16) : MemberEntry :=
  ⟨robot, 0, clock - 1, lifetime⟩

/-- Take in an announcement. -/
def apply (m : Membership) (op : SwarmOp) (robot : RobotId) (clock : UInt16) (swarms : UInt8) :
    Membership × List Event :=
  let note (old : MemberEntry) : List Event :=
    let new := MemberEntry.apply old op clock swarms
    if new.swarms = old.swarms then [] else [.swarmsChanged robot old.swarms new.swarms]
  match m.entries.find? (·.robot == robot) with
  | some old =>
    let refresh (e : MemberEntry) :=
      if e.robot == robot then MemberEntry.apply e op clock swarms else e
    ({ m with entries := m.entries.map refresh }, note old)
  | none =>
    if m.capacity ≤ m.entries.length then (m, [.swarmListFull robot])
    else
      let old := newcomer robot clock
      ({ m with entries := m.entries ++ [MemberEntry.apply old op clock swarms] }, note old)

/-- The entries one tick later, without those that died. -/
def age (entries : List MemberEntry) : List MemberEntry :=
  (entries.map fun e => { e with life := e.life - 1 }).filter fun e => 0 < e.life

/-- One tick: the list ages, and every `period` ticks the whole mask is announced. -/
def tick (m : Membership) (robot : RobotId) : Option (Message Value) × Membership :=
  let ticks := m.ticks + 1
  let m := { m with entries := age m.entries, ticks }
  (if ticks.toNat % period = 0 then some (.swarm .list robot m.clock m.mask) else none, m)

end Membership

end SwarmVm
