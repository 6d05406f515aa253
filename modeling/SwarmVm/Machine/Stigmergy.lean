import SwarmVm.Clock
import SwarmVm.Machine.Messages

/-!
# Shared storage, as scripts see it

Every robot holds a replica of a key and value store. A `put` tags its value with the next clock
of the key and is sent to the others; an update with a newer tag replaces the local entry, and two
updates with the same clock from different robots are in conflict. A conflict goes to the greater
robot, unless the script decides itself.

An entry owns its value: a permanent copy, released when the value is replaced.

## Main definitions

* `Machine.receiveStigmergy` — an update or a query of another robot
* `Machine.settleConflict` — two updates with the same clock
* `Machine.stigmergyPut`, `Machine.stigmergyGet` — the script's side
-/

namespace SwarmVm

/-- One version of an entry. -/
structure Version where
  /-- The robot that wrote it. -/
  robot : RobotId
  /-- The value. -/
  value : Ref
  /-- The clock of the update. -/
  clock : UInt8
deriving DecidableEq, Repr

/-- The version that an entry holds. -/
def StigmergyEntry.version (e : StigmergyEntry) : Version := ⟨e.robot, e.value, e.clock⟩

/-- The entry that holds a version, whose object has the value `stored` and the copy `value`. -/
def Version.entry (v : Version) (key : NameId) (value : Ref) (stored : Value) : StigmergyEntry :=
  ⟨key, value, v.clock, v.robot, v.value, stored⟩

namespace Machine

variable {F : Type}

/-- The functions of a stigmergy table. -/
def stigmergyMethods : List (Builtin × Primitive) :=
  [(.put, .stigmergyPut), (.get, .stigmergyGet), (.size, .stigmergySize),
    (.onconflict, .stigmergyOnconflict), (.onconflictlost, .stigmergyOnconflictlost)]

/-- Drop every entry and both functions of the script. -/
def resetStigmergy : Action F Unit := modify fun m => { m with
  heap := m.stigmergy.entries.foldl (fun h e => h.clearPermanent e.value) m.heap
  stigmergy := {
    capacity := m.stigmergy.capacity
    shared := m.stigmergy.shared
    tabled := m.stigmergy.tabled
    starts := m.stigmergy.starts + 1 } }

/-- A permanent copy of a value. -/
def ownedCopy (r : Ref) : Action F Ref := do
  let copy ← onHeap (Heap.copy r)
  modifyHeap (·.makePermanent copy)
  return copy

/-- The value that an entry with value `old` owns once it takes `new`. -/
def replaceOwned (old new : Ref) : Action F Ref := do
  if new = old then return old
  let copy ← ownedCopy new
  modifyHeap (·.clearPermanent old)
  return copy

/-- Put a version in the entry at a position. A position without an entry is noted. -/
def storeVersion (position : Nat) (v : Version) : Action F Unit := do
  let m ← get
  match m.stigmergy.entries[position]? with
  | none => stray
  | some old =>
    let value ← replaceOwned old.value v.value
    let e := v.entry old.key value (m.value v.value)
    modify fun m => { m with stigmergy := m.stigmergy.replace position e }

/-- Add an entry. -/
def insertVersion (key : NameId) (v : Version) : Action F Unit := do
  let stored := (← get).value v.value
  let value ← ownedCopy v.value
  modify fun m => { m with stigmergy := m.stigmergy.add (v.entry key value stored) }

/-- Send the entry at a position. A position without an entry is noted. -/
def sendEntry (op : StigmergyOp) (key : NameId) (position : Nat) : Action F Unit := do
  let m ← get
  match m.stigmergy.entries[position]? with
  | none => stray
  | some e => send (.stigmergy op e.robot key (m.value e.value) e.clock)

/-- A version as the script sees it. -/
def versionTable (v : Version) : Action F Ref := do
  let t ← onHeap Heap.tableNew
  let robot ← alloc (.int v.robot.toInt16)
  setField t Builtin.robot.nameId robot
  setField t Builtin.data.nameId v.value
  let clock ← alloc (.int (Int16.ofNat v.clock.toNat))
  setField t Builtin.timestamp.nameId clock
  return t

/-- An integer entry of a table. -/
def intField (t : Ref) (name : Builtin) : Action F Int := do
  let r ← field t name.nameId
  return (← orFail ((← get).value r).asInt? .type).toInt

/-- Read a version back from the script. Robots are not negative, and clocks have eight bits. -/
def readVersion (t : Ref) : Action F Version := do
  expectTable t
  let robot ← intField t .robot
  let clock ← intField t .timestamp
  let value ← field t Builtin.data.nameId
  require (0 ≤ robot) .type
  require (0 ≤ clock && clock < 256) .type
  return ⟨UInt16.ofNat robot.toNat, value, UInt8.ofNat clock.toNat⟩

/-- The winner of a conflict: the script's choice or, without one, the greater robot. -/
def chooseWinner (call : Caller F) (key : Ref) (here there : Version) : Action F Version := do
  match (← get).stigmergy.onConflict with
  | some callback =>
    let hereTable ← versionTable here
    let thereTable ← versionTable there
    let result ← call callback [key, hereTable, thereTable]
    readVersion result
  | none => return if here.robot.toNat < there.robot.toNat then there else here

/-- The function to tell of a lost conflict, and the version that was lost: there is one when this
robot wrote the entry and another robot wins. -/
def lossToReport (here winner : Version) : Action F (Option (Ref × Ref)) := do
  let m ← get
  match m.stigmergy.onConflictLost with
  | some callback =>
    if here.robot = m.robot ∧ winner.robot ≠ m.robot then
      return some (callback, ← versionTable here)
    else return none
  | none => return none

/-- Settle a conflict about the entry at a position. -/
def settleConflict (call : Caller F) (key : NameId) (position : Nat) (here there : Version) :
    Action F Unit := do
  let keyObject ← alloc (.string key)
  let winner ← chooseWinner call keyObject here there
  emit (.conflict key here.robot there.robot winner.robot)
  let loss ← lossToReport here winner
  storeVersion position winner
  sendEntry .put key position
  match loss with
  | some (callback, lost) => let _ ← call callback [keyObject, lost]
  | none => pure ()

/-- Take in a version of a key that this robot does not have. -/
def receiveNew (op : StigmergyOp) (key : NameId) (there : Version) : Action F Unit := do
  let m ← get
  if op = .query ∧ m.heap.kind there.value = .nil then return
  if m.stigmergy.isFull then
    emit (.stigmergyFull key)
  else
    insertVersion key there
    sendEntry op key ((← get).stigmergy.size - 1)

/-- Take in an update or a query of another robot. -/
def receiveStigmergy (call : Caller F) (op : StigmergyOp) (key : NameId) (there : Version) :
    Action F Unit := do
  let s := (← get).stigmergy
  match s.position? key with
  | none => receiveNew op key there
  | some position =>
    match s.entries[position]? with
    | none => pure ()
    | some e =>
      let here := e.version
      if Clock.isNewer there.clock here.clock then
        storeVersion position there
        sendEntry .put key position
      else if there.clock = here.clock ∧ there.robot ≠ here.robot then
        settleConflict call key position here there
      else if op = .query ∧ Clock.isNewer here.clock there.clock then
        sendEntry .put key position

/-- `stigmergy.create(id)`: start over, and answer the table of functions. -/
def stigmergyCreate : Action F Unit := do
  requireArgs 1
  let _ ← intArg 1
  let id ← localAt 1
  resetStigmergy
  let t ← methodTable stigmergyMethods
  setField t Builtin.id.nameId id
  push t
  ret1

/-- `put(key, value)` -/
def stigmergyPut : Action F Unit := do
  requireArgs 2
  let key ← stringArg 1
  let value ← localAt 2
  let m ← get
  match m.stigmergy.position? key with
  | some position =>
    let clock := (m.stigmergy.entries[position]?.map (·.clock)).getD 0 + 1
    storeVersion position ⟨m.robot, value, clock⟩
    sendEntry .put key position
  | none =>
    require (!m.stigmergy.isFull) .stigmergyFull
    insertVersion key ⟨m.robot, value, 1⟩
    sendEntry .put key ((← get).stigmergy.size - 1)
  ret0

/-- `get(key)`: the value is answered at once, and the others are asked for a newer one. -/
def stigmergyGet : Action F Unit := do
  requireArgs 1
  let key ← stringArg 1
  let m ← get
  match m.stigmergy.position? key with
  | some position =>
    sendEntry .query key position
    push ((m.stigmergy.entries[position]?.map (·.value)).getD m.nil)
  | none =>
    send (.stigmergy .query m.robot key .nil 0)
    pushNil
  ret1

/-- `size()` -/
def stigmergySize : Action F Unit := do
  requireArgs 0
  pushInt (Int16.ofNat (← get).stigmergy.size)
  ret1

/-- `onconflict(function)` -/
def stigmergyOnconflict : Action F Unit := do
  requireArgs 1
  let callback ← closureArg 1
  modify fun m => { m with stigmergy := { m.stigmergy with onConflict := some callback } }
  ret0

/-- `onconflictlost(function)` -/
def stigmergyOnconflictlost : Action F Unit := do
  requireArgs 1
  let callback ← closureArg 1
  modify fun m => { m with stigmergy := { m.stigmergy with onConflictLost := some callback } }
  ret0

end Machine

end SwarmVm
