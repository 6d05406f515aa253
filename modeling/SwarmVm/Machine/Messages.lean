import SwarmVm.Machine.Calls

/-!
# Sending

Messages of a script wait in the outbox. A full outbox loses a message, which is only logged.
-/

namespace SwarmVm

namespace Machine

variable {F : Type}

/-- Put a message in the outbox. -/
def send (message : Message Value) : Action F Unit := do
  let (evicted, outbox) := (← get).outbox.append message
  modify fun m => { m with outbox }
  match evicted with
  | some lost => emit (.messageDropped lost.kind)
  | none => pure ()

/-- One tick of outgoing work: the swarm list ages, and membership is announced now and then. -/
def processOutbox : Action F Unit := do
  let m ← get
  let (announcement, membership) := m.membership.tick m.robot
  modify fun m => { m with membership }
  match announcement with
  | some message => send message
  | none => pure ()

end Machine

end SwarmVm
