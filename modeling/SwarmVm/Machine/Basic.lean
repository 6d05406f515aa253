import SwarmVm.Heap.Collect
import SwarmVm.Log
import SwarmVm.Machine.Primitive
import SwarmVm.Membership
import SwarmVm.Names
import SwarmVm.OperandStack
import SwarmVm.Outbox
import SwarmVm.Sensors

/-!
# The machine

A machine runs the script of one robot. Its registers are the program counter, the operand stack,
the activation record of the current call and the number of calls that are open; everything a
script can name lives in the heap.

The embedder may register host functions beside the standard ones. They are data of a type `F`,
and `HostFunctions F` says what each of them does, so that a machine stays a plain value.

Tables and arrays are read and written without looking whether their segments are there, and entries
of the shared store by positions that may be out of date. The machine notes each access to what is
not there, so that a script which never strays can be told from one that does (`Machine.strayed`).
In the same way the store notes what was put in its entries (`StigmergyEntry.origin` and
`StigmergyEntry.stored`), whether two of them were ever given one object (`Stigmergy.shared`),
whether one was ever given a table (`Stigmergy.tabled`), and how often the store was started over
(`Stigmergy.starts`). Nothing that a machine does depends on these notes.

An operation of the machine may fault; what it did before stays done. It may also run out of fuel,
which bounds the number of instructions and is no fault of the script.

## Main definitions

* `Settings` — how a machine is made
* `Machine` — the state of a machine
* `Action` — an operation of a machine
* `HostFunctions` — what registered functions do
-/

namespace SwarmVm

/-- What a machine is doing. -/
inductive RunState where
  /-- No image is attached. -/
  | noCode
  /-- The script is running. -/
  | ready
  /-- A fault was reported. -/
  | error
  /-- The script has ended. -/
  | done
deriving DecidableEq, Repr

/-- The name of a state in summaries. -/
def RunState.label : RunState → String
  | noCode => "NoCode"
  | ready => "Ready"
  | error => "Error"
  | done => "Done"

/-- The sizes with which a machine is made. -/
structure Settings where
  /-- The number of the robot. -/
  robot : RobotId := 0
  /-- Bytes of the heap. -/
  heapSize : Nat := 4096
  /-- Depth of the operand stack. -/
  stackSize : Nat := 96
  /-- Slots of the inbox, one of which stays unused. -/
  inboxSlots : Nat := 16
  /-- Slots of the outbox, one of which stays unused. -/
  outboxSlots : Nat := 16
  /-- Stigmergy keys. -/
  stigmergyCapacity : Nat := 16
  /-- Neighbors. -/
  neighborsCapacity : Nat := 16
  /-- Robots of the swarm list. -/
  swarmCapacity : Nat := 16
  /-- Registered functions. -/
  functionCapacity : Nat := 32
deriving DecidableEq, Repr

namespace Settings

/-- Roots of a collection that are not on the stack; room for them must be left there. -/
def ambientRoots : Nat := 7

/-- Why settings are refused, `none` when they are accepted. -/
def refusal? (s : Settings) : Option String :=
  match Heap.refusal? s.heapSize with
  | some reason => some reason
  | none =>
    if s.stackSize < ambientRoots + 8 then
      some "stack too small to hold the garbage collector roots"
    else if s.inboxSlots < 2 ∨ s.outboxSlots < 2 then
      some "message queues need at least two slots"
    else if s.stigmergyCapacity = 0 then
      some "virtual stigmergy needs at least one entry"
    else if s.neighborsCapacity = 0 ∨ s.swarmCapacity = 0 then
      some "neighbor and swarm tables need at least one entry"
    else if 65535 < Primitive.total + s.functionCapacity then
      some "function list ids must fit in 16 bits"
    else none

end Settings

/-- One key of the stigmergy store. -/
structure StigmergyEntry where
  /-- The key. -/
  key : NameId
  /-- The value, a permanent object. -/
  value : Ref
  /-- The clock of the last update. -/
  clock : UInt8
  /-- The robot that made it. -/
  robot : RobotId
  /-- The object that was put there, which the value is a copy of. -/
  origin : Ref
  /-- The value of that object at the time. -/
  stored : Value
deriving DecidableEq, Repr

/-- A robot's replica of the shared store. -/
structure Stigmergy where
  /-- The entries, in the order in which their keys came. -/
  entries : Array StigmergyEntry := #[]
  /-- The most keys. -/
  capacity : Nat
  /-- The script's function that settles conflicts. -/
  onConflict : Option Ref := none
  /-- The script's function that is told of lost conflicts. -/
  onConflictLost : Option Ref := none
  /-- Some entry was given an object that another entry had. -/
  shared : Bool := false
  /-- Some entry was given a table. -/
  tabled : Bool := false
  /-- How often the store was started over. -/
  starts : Nat := 0
deriving DecidableEq, Repr

namespace Stigmergy

/-- The position of a key. -/
def position? (s : Stigmergy) (key : NameId) : Option Nat := s.entries.findIdx? (·.key == key)

/-- The number of keys. -/
def size (s : Stigmergy) : Nat := s.entries.size

/-- There are no keys. -/
def isEmpty (s : Stigmergy) : Bool := s.entries.isEmpty

/-- There is no room for another key. -/
def isFull (s : Stigmergy) : Bool := s.capacity ≤ s.entries.size

/-- The store with another entry at a position. -/
def replace (s : Stigmergy) (position : Nat) (e : StigmergyEntry) : Stigmergy := { s with
  entries := s.entries.setIfInBounds position e
  shared := s.shared || (s.entries.toList.eraseIdx position).any (·.value == e.value)
  tabled := s.tabled || e.stored.kind == .table }

/-- The store with one more entry. -/
def add (s : Stigmergy) (e : StigmergyEntry) : Stigmergy := { s with
  entries := s.entries.push e
  shared := s.shared || s.entries.toList.any (·.value == e.value)
  tabled := s.tabled || e.stored.kind == .table }

end Stigmergy

/-- Who is told of a fault. -/
inductive Receiver where
  /-- The fault is logged. -/
  | log
  /-- The fault is only kept with the reports. -/
  | silent
deriving DecidableEq, Repr

/-- The state of a machine whose registered functions are of type `F`. -/
structure Machine (F : Type) where
  /-- All objects. -/
  heap : Heap
  /-- The operand stack. -/
  stack : OperandStack
  /-- The instructions of the attached image. -/
  code : Array UInt8 := #[]
  /-- Address of the next instruction. -/
  pc : UInt16 := 0
  /-- What the machine is doing. -/
  state : RunState := .noCode
  /-- The fault that stopped it. -/
  error : Option Fault := none
  /-- Calls that are open. -/
  frameDepth : Nat := 0
  /-- The activation record of the current call, an array. -/
  locals : Ref
  /-- The table of globals. -/
  globals : Ref
  /-- The shared nil object. -/
  nil : Ref
  /-- The activation record of a closure that captured none. -/
  defaultRecord : Ref
  /-- Listeners by topic, a table. -/
  listeners : Ref
  /-- Functions that the embedder registered. -/
  functions : Array F := #[]
  /-- The most functions that can be registered. -/
  functionCapacity : Nat
  /-- The strings. -/
  names : NameTable := {}
  /-- The number of the robot. -/
  robot : RobotId
  /-- Messages received and not handled yet. -/
  inbox : Ring (Message Ref)
  /-- Messages to send. -/
  outbox : Outbox
  /-- The neighbors seen. -/
  sensors : Sensors
  /-- The replica of the shared store. -/
  stigmergy : Stigmergy
  /-- Swarm membership. -/
  membership : Membership
  /-- Objects that the embedder keeps alive. -/
  pinned : Array Ref := #[]
  /-- Who is told of a fault. -/
  receiver : Receiver := .log
  /-- The faults reported so far, oldest first. -/
  reports : Array Fault := #[]
  /-- The log. -/
  log : Log := {}
  /-- Some access went to a segment, an object slot or an entry of the store that is not there. -/
  strayed : Bool := false

/-- Why an operation stopped. -/
inductive Halt where
  /-- The script is at fault. -/
  | fault (e : Fault)
  /-- The bound on the number of instructions was reached. -/
  | outOfFuel
deriving DecidableEq, Repr

/-- An operation of a machine. -/
abbrev Action (F : Type) (α : Type) := EStateM Halt (Machine F) α

/-- How host code calls a closure of the script. -/
abbrev Caller (F : Type) := Ref → List Ref → Action F Ref

/-- What the registered functions of type `F` do. A function reads its arguments from the current
activation record and ends with exactly one of `Machine.ret0` and `Machine.ret1`. -/
class HostFunctions (F : Type) where
  /-- Run a function; it may call back into the script. -/
  run : F → Caller F → Action F Unit

/-- No functions are registered. -/
instance : HostFunctions Empty := ⟨fun f => nomatch f⟩

namespace Machine

variable {F : Type} {α : Type}

/-! ### Operations -/

/-- Stop with a fault. -/
def fail (e : Fault) : Action F α := throw (.fault e)

/-- The value of an option, or a fault. -/
def orFail (o : Option α) (e : Fault) : Action F α :=
  match o with
  | some a => pure a
  | none => fail e

/-- Stop with a fault unless a condition holds. -/
def require (condition : Bool) (e : Fault) : Action F Unit :=
  if condition then pure () else fail e

/-- Catch a fault. Running out of fuel is not caught. -/
def attempt (x : Action F α) : Action F (Except Fault α) := fun m =>
  match x m with
  | .ok a m => .ok (.ok a) m
  | .error (.fault e) m => .ok (.error e) m
  | .error .outOfFuel m => .error .outOfFuel m

/-- The heap of a machine, and the machine without it. An operation on a heap that nothing else
refers to changes it in place. -/
@[inline] def detachHeap (m : Machine F) : Heap × Machine F :=
  (m.heap, { m with heap := Heap.make 0 })

/-- An operation on the heap; running out of room is a fault. -/
@[inline] def onHeap (x : HeapM α) : Action F α := fun m =>
  let (heap, rest) := m.detachHeap
  match x heap with
  | .ok a heap => .ok a { rest with heap }
  | .error _ heap => .error (.fault .outOfMemory) { rest with heap }

/-- Change the heap, and answer what the change answers. -/
@[inline] def changeHeap (f : Heap → α × Heap) : Action F α := fun m =>
  let (heap, rest) := m.detachHeap
  let (a, heap) := f heap
  .ok a { rest with heap }

/-- Change the heap. -/
@[inline] def modifyHeap (f : Heap → Heap) : Action F Unit := changeHeap fun h => ((), f h)

/-- Note an access to the segments of a table or array. -/
def touch (t : Ref) : Action F Unit := modify fun m =>
  { m with strayed := m.strayed || !m.heap.isIntact t }

/-- Note a write to the slot of an object. -/
def touchSlot (r : Ref) : Action F Unit := modify fun m =>
  { m with strayed := m.strayed || !decide (r.toNat < m.heap.objectSlots) }

/-- Note an access to something that is not there. -/
def stray : Action F Unit := modify fun m => { m with strayed := true }

/-- Log an event. -/
def emit (e : Event) : Action F Unit := modify fun m => { m with log := m.log.add e }

/-! ### The operand stack -/

/-- Put an object on the stack. -/
def push (r : Ref) : Action F Unit := fun m =>
  match m.stack.push r with
  | .ok stack => .ok () { m with stack }
  | .error e => .error (.fault e) m

/-- Take the top object off the stack. -/
def pop : Action F Ref := fun m =>
  match m.stack.pop with
  | .ok (r, stack) => .ok r { m with stack }
  | .error e => .error (.fault e) m

/-- The `n`-th object from the top. -/
def peek (n : Nat) : Action F Ref := fun m =>
  match m.stack.peek n with
  | .ok r => .ok r m
  | .error e => .error (.fault e) m

/-- Replace the `n`-th object from the top. -/
def setPeek (n : Nat) (r : Ref) : Action F Unit := fun m =>
  match m.stack.setPeek n r with
  | .ok stack => .ok () { m with stack }
  | .error e => .error (.fault e) m

/-! ### Faults -/

/-- Enter the error state, and tell the receiver. -/
def setError (e : Fault) : Action F Unit := do
  modify fun m => { m with state := .error, error := some e, reports := m.reports.push e }
  if (← get).receiver = .log then emit (.faulted e)

/-- Leave the error state. Execution goes on with the instruction that faulted. -/
def clearError : Action F Unit := modify fun m =>
  if m.state = .error then { m with state := .ready, error := none } else m

end Machine

end SwarmVm
