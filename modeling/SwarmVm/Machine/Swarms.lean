import SwarmVm.Machine.Messages

/-!
# Swarms, as scripts see them

A swarm table names one of the eight swarms by its `id` entry and offers functions to join, leave
and ask about that swarm. Every change of membership is announced.
-/

namespace SwarmVm

namespace Machine

variable {F : Type}

/-- The functions of a swarm table. -/
def swarmMethods : List (Builtin × Primitive) :=
  [(.join, .swarmJoin), (.leave, .swarmLeave), (.isIn, .swarmIn), (.select, .swarmSelect),
    (.exec, .swarmExec)]

/-- The swarm with a number. -/
def swarmOfInt (i : Int16) : Action F UInt8 := do
  require (0 ≤ i.toInt && i.toInt < Membership.maxSwarms) .swarm
  return UInt8.ofNat i.toInt.toNat

/-- The swarm of the table that a function was called on. -/
def selfSwarm : Action F UInt8 := do
  let t ← localAt 0
  expectTable t
  let id ← field t Builtin.id.nameId
  swarmOfInt (← orFail ((← get).value id).asInt? .type)

/-- Join or leave the swarm of the table that a function was called on. -/
def setMembership (member : Bool) : Action F Unit := do
  let swarm ← selfSwarm
  let m ← get
  let (announcement, membership) := m.membership.setMember m.robot swarm member
  modify fun m => { m with membership }
  match announcement with
  | some message => send message
  | none => pure ()

/-- `swarm.create(id)` -/
def swarmCreate : Action F Unit := do
  requireArgs 1
  let _ ← swarmOfInt (← intArg 1)
  let id ← localAt 1
  let t ← methodTable swarmMethods
  setField t Builtin.id.nameId id
  push t
  ret1

/-- `join()` -/
def swarmJoin : Action F Unit := do
  requireArgs 0
  setMembership true
  ret0

/-- `leave()` -/
def swarmLeave : Action F Unit := do
  requireArgs 0
  setMembership false
  ret0

/-- `in()` -/
def swarmIn : Action F Unit := do
  requireArgs 0
  let swarm ← selfSwarm
  pushBool ((← get).membership.isMember swarm)
  ret1

/-- `select(condition)`: join when it is true, leave when it is not. -/
def swarmSelect : Action F Unit := do
  requireArgs 1
  let condition ← localAt 1
  setMembership ((← get).value condition).isTruthy
  ret0

/-- `exec(function)`: call it when this robot is a member. -/
def swarmExec (call : Caller F) : Action F Unit := do
  requireArgs 1
  let function ← closureArg 1
  let swarm ← selfSwarm
  if (← get).membership.isMember swarm then
    let _ ← call function []
  ret0

end Machine

end SwarmVm
