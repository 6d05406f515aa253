import SwarmVm.Image.Header
import SwarmVm.Machine.Inbox

/-!
# Making a machine and giving it a script

A new machine holds the shared nil, the record of closures that captured none, the table of
globals and the table of listeners, and binds the standard globals. Attaching an image loads its
strings and executes its prologue, everything up to the first `nop`.

## Main definitions

* `Machine.make` — a machine with given settings
* `Machine.load` — attach an image
* `Machine.register` — add a host function
* `Machine.summary` — the registers in one line
-/

namespace SwarmVm

namespace Machine

variable {F : Type}

/-- Make an object permanent. -/
def keep (r : Ref) : HeapM Ref := do
  modify (·.makePermanent r)
  return r

/-- The objects that a machine has from the start: nil, the default record, the globals and the
listeners. -/
def coreObjects : HeapM (Ref × Ref × Ref × Ref) := do
  let nil ← keep (← Heap.allocValue .nil)
  let record ← Heap.arrayNew
  Heap.arrayPush record nil
  let record ← keep record
  let globals ← keep (← Heap.tableNew)
  let listeners ← keep (← Heap.tableNew)
  return (nil, record, globals, listeners)

/-- Bind the globals that every script finds. -/
def bindGlobals : Action F Unit := do
  let id ← alloc (.int (← get).robot.toInt16)
  setGlobal Builtin.id.nameId id
  let log ← allocPrimitive .log
  setGlobal Builtin.log.nameId log
  let neighbors ← methodTable neighborsMethods
  setGlobal Builtin.neighbors.nameId neighbors
  let stigmergy ← methodTable [(.create, .stigmergyCreate)]
  setGlobal Builtin.stigmergy.nameId stigmergy
  let swarm ← methodTable [(.create, .swarmCreate)]
  setGlobal Builtin.swarm.nameId swarm

/-- A machine with its own objects and no globals. -/
def blank (s : Settings) (nil record globals listeners : Ref) (heap : Heap) : Machine F where
  heap := heap
  stack := { capacity := s.stackSize }
  locals := record
  globals := globals
  nil := nil
  defaultRecord := record
  listeners := listeners
  functionCapacity := s.functionCapacity
  robot := s.robot
  inbox := Ring.make s.inboxSlots
  outbox := Outbox.make s.outboxSlots
  sensors := { capacity := s.neighborsCapacity }
  stigmergy := { capacity := s.stigmergyCapacity }
  membership := { capacity := s.swarmCapacity }

/-- A machine with the given settings. -/
def make (s : Settings) : Except SetupError (Machine F) :=
  match s.refusal? with
  | some reason => .error (.settings reason)
  | none =>
    match coreObjects (Heap.make s.heapSize) with
    | .error _ _ => .error .outOfMemory
    | .ok (nil, record, globals, listeners) heap =>
      match bindGlobals (blank s nil record globals listeners heap) with
      | .ok _ m => .ok m
      | .error (.fault e) _ => .error (.ofFault e)
      | .error .outOfFuel _ => .error .outOfMemory

/-- Add a host function and bind it to a global. Answers its number. -/
def register (name : NameId) (f : F) : Action F UInt16 := do
  let m ← get
  require (m.functions.size < m.functionCapacity) .functionList
  let id := UInt16.ofNat m.functionCount
  modify fun m => { m with functions := m.functions.push f }
  let closure ← alloc (.closure (.ofHost id))
  setGlobal name closure
  return id

/-- Keep an object alive until it is unpinned. -/
def pin (r : Ref) : Action F Unit := modify fun m => { m with pinned := m.pinned.push r }

/-- Undo the last pin of an object. The last pinned object takes its place. -/
def unpin (r : Ref) : Action F Unit := modify fun m =>
  match m.pinned.toList.reverse.findIdx? (· == r) with
  | none => m
  | some i =>
    let position := m.pinned.size - 1 - i
    let last := m.pinned.getD (m.pinned.size - 1) 0
    { m with pinned := (m.pinned.setIfInBounds position last).pop }

/-- Forget the neighbors of the last control cycle. -/
def resetNeighbors : Action F Unit := modify fun m => { m with sensors := m.sensors.reset }

/-- Add a neighbor. Answers false when there is no room. -/
def addNeighbor (s : Sighting) : Action F Bool := do
  let (added, sensors) := (← get).sensors.add s
  modify fun m => { m with sensors }
  return added

variable [HostFunctions F]

/-- Execute up to and including the first `nop`. A script that ends before is complete; one that
faults answers its fault. -/
def prologue : Nat → Action F (Option Fault)
  | 0 => throw .outOfFuel
  | n + 1 => do
    match (← get).fetch with
    | .ok (.nop, _) =>
      modify fun m => { m with pc := m.pc + 1 }
      return none
    | _ =>
      step n
      let m ← get
      match m.state with
      | .error => return some (m.error.getD .instruction)
      | .done => return none
      | .ready | .noCode => prologue n

/-- Attach the strings and the code of an image, and start from an empty stack. -/
def attach (image : Image) : Action F Unit := do
  modify fun m => { m with names := m.names.load image.strings, code := image.code }
  emit (.attached image.code.size image.strings.length)
  modify fun m => { m with pc := 0, stack := m.stack.clear, frameDepth := 0, error := none }

/-- Attach an image and execute its prologue. -/
def load (fuel : Nat) (bytes : List UInt8) : Action F (Except ImageError Unit) := do
  match Image.parse bytes with
  | .error e => return .error e
  | .ok image =>
    attach image
    match ← attempt (arrayClone (← get).defaultRecord) with
    | .error e => return .error (.prologue e)
    | .ok record =>
      modify fun m => { m with locals := record, state := .ready }
      match ← prologue fuel with
      | some e => return .error (.prologue e)
      | none => return .ok ()

/-- The registers in one line. -/
def summary (m : Machine F) : String :=
  let s := m.heap.stats
  let error := match m.error with
    | some e => "Some(" ++ e.label ++ ")"
    | none => "None"
  let stack := ", ".intercalate (m.stack.slots.toList.map fun r => Text.decimal r.toNat)
  "Vm \x7b robot: " ++ Text.decimal m.robot.toNat ++ ", state: " ++ m.state.label
    ++ ", error: " ++ error ++ ", pc: " ++ Text.decimal m.pc.toNat ++ ", stack: [" ++ stack
    ++ "], frame_depth: " ++ Text.decimal m.frameDepth
    ++ ", heap: HeapStats \x7b objects: " ++ Text.decimal s.objects
    ++ ", object_slots: " ++ Text.decimal s.objectSlots
    ++ ", segments: " ++ Text.decimal s.segments
    ++ ", segment_slots: " ++ Text.decimal s.segmentSlots
    ++ ", free_bytes: " ++ Text.decimal s.freeBytes ++ " \x7d, .. \x7d"

end Machine

end SwarmVm
