import SwarmVm.Machine.Run

/-!
# Receiving

A received payload is decoded and waits in the inbox; its value is a permanent object while it
waits. A full inbox loses its oldest message. Handling a message hands a broadcast to its
listener, a stigmergy message to the store, and a swarm message to the swarm list.
-/

namespace SwarmVm

namespace Machine

variable {F : Type}

/-- Let the value of a message that leaves the inbox be collected. -/
def release (message : Message Ref) : Action F Unit :=
  match message.payload? with
  | some r => modifyHeap (·.clearPermanent r)
  | none => pure ()

/-- The object for the payload of a message. It is a fresh one even for nil, because the shared
nil must stay permanent. -/
def payloadObject (message : Message Value) : Action F Ref := do
  match message.payload? with
  | none => return (← get).nil
  | some v =>
    let r ← onHeap (Heap.allocValue v)
    modifyHeap (·.makePermanent r)
    return r

/-- Decode a received payload and put it in the inbox. What is no message is dropped. -/
def receive (payload : List UInt8) : Action F Unit := do
  match Wire.decode? payload with
  | none => emit (.malformed payload.length)
  | some message =>
    let r ← payloadObject message
    let (evicted, inbox) := (← get).inbox.push (message.withPayload r)
    modify fun m => { m with inbox }
    match evicted with
    | some lost => release lost
    | none => pure ()

/-- Handle a message. -/
def dispatch (call : Caller F) (message : Message Ref) : Action F Unit := do
  match message with
  | .broadcast robot topic r =>
    if (← get).names.contains topic then
      let topicObject ← alloc (.string topic)
      deliverBroadcast call robot topicObject r
    else emit (.unknownTopic robot topic)
  | .stigmergy op robot key r clock => receiveStigmergy call op key ⟨robot, r, clock⟩
  | .swarm op robot clock swarms =>
    let m ← get
    if robot ≠ m.robot then
      let (membership, events) := m.membership.apply op robot clock swarms
      modify fun m => { m with membership, log := m.log.addAll events }

variable [HostFunctions F]

/-- Handle waiting messages one after the other, until none is left or one faults. -/
def drainInbox : Nat → Action F Unit
  | 0 => throw .outOfFuel
  | n + 1 => do
    match (← get).inbox.pop with
    | (none, _) => pure ()
    | (some message, inbox) =>
      modify fun m => { m with inbox }
      let result ← attempt (dispatch (callClosure n) message)
      release message
      match result with
      | .ok _ => drainInbox n
      | .error e => setError e

/-- Handle every waiting message, if the script is ready or done. -/
def processInbox (fuel : Nat) : Action F Unit := do
  match (← get).state with
  | .ready | .done => drainInbox fuel
  | .noCode | .error => pure ()

end Machine

end SwarmVm
