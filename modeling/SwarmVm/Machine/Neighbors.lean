import SwarmVm.Machine.Messages

/-!
# Neighbors, as scripts see them

The global `neighbors` table looks at the sensors; tables that `map`, `filter`, `kin` and `nonkin`
make are ordinary tables with the robots as integer keys, and offer the same functions again. Both
are views of a set of robots, and the functions are written once for a view.

Broadcasts are sent and listened to here as well.

## Main definitions

* `View`, `Machine.entriesOf`, `Machine.viewValue` — robots and what is known of them
* `Machine.neighborsForeach`, `neighborsMap`, `neighborsFilter`, `neighborsReduce` — iteration
* `Machine.neighborsKinship` — the robots that share a swarm with this one, or do not
* `Machine.deliverBroadcast` — a received broadcast handed to its listener
-/

namespace SwarmVm

/-- Where neighbor functions take their robots from. -/
inductive View where
  /-- The sensors. -/
  | sensed
  /-- A table keyed by robot. -/
  | derived (table : Ref)
deriving DecidableEq, Repr

namespace Machine

variable {F : Type}

/-- The functions of the global `neighbors` table. -/
def neighborsMethods : List (Builtin × Primitive) :=
  [(.broadcast, .neighborsBroadcast), (.listen, .neighborsListen), (.ignore, .neighborsIgnore),
    (.get, .neighborsGet), (.foreach, .neighborsForeach), (.map, .neighborsMap),
    (.reduce, .neighborsReduce), (.filter, .neighborsFilter), (.count, .neighborsCount),
    (.kin, .neighborsKin), (.nonkin, .neighborsNonkin)]

/-- The functions of a derived table. -/
def derivedMethods : List (Builtin × Primitive) :=
  [(.get, .derivedGet), (.foreach, .derivedForeach), (.map, .derivedMap),
    (.reduce, .derivedReduce), (.filter, .derivedFilter), (.count, .derivedCount),
    (.kin, .derivedKin), (.nonkin, .derivedNonkin)]

/-- Set a string entry of a table to a small number. -/
def setNumber (t : Ref) (name : Builtin) (n : Nat) : Action F Unit := do
  let r ← alloc (.int (Int16.ofNat n))
  setField t name.nameId r

/-- A table with what the sensors say of a robot. -/
def sightingTable (s : Sighting) : Action F Ref := do
  let t ← onHeap Heap.tableNew
  setNumber t .distance s.distance.toNat
  setNumber t .azimuth s.azimuth.toNat
  setNumber t .elevation s.elevation.toNat
  return t

/-- The robots of a view, with the stored value in a derived table. Entries of such a table that
have no integer key are its functions, and are skipped. -/
def viewEntries (m : Machine F) : View → List (RobotId × Option Ref)
  | .sensed => m.sensors.sightings.map fun s => (s.robot, none)
  | .derived t => (m.heap.tableEntries t).filterMap fun (key, r) =>
    (m.value key).asInt?.map fun i => (i.toUInt16, some r)

/-- The robots that a function of a view goes through. -/
def entriesOf (view : View) : Action F (List (RobotId × Option Ref)) := do
  match view with
  | .sensed => pure ()
  | .derived t => touch t
  return (← get).viewEntries view

/-- A table for a sensed robot, nil when it is not seen. -/
def sensedValue (robot : RobotId) : Action F Ref := do
  match (← get).sensors.get? robot with
  | some sighting => sightingTable sighting
  | none => return (← get).nil

/-- What a script is given for a robot of a view. -/
def viewValue (robot : RobotId) : Option Ref → Action F Ref
  | some r => pure r
  | none => sensedValue robot

/-- A new derived table, on the stack while it is filled. -/
def pushDerived : Action F Ref := do
  let t ← methodTable derivedMethods
  push t
  return t

/-- A robot as an integer object. -/
def robotObject (robot : RobotId) : Action F Ref := alloc (.int robot.toInt16)

/-- Store a value under a robot. -/
def setRobotEntry (t : Ref) (robot : RobotId) (r : Ref) : Action F Unit := do
  let key ← robotObject robot
  tableSet t key r

/-- `get(robot)` -/
def neighborsGet (view : View) : Action F Unit := do
  requireArgs 1
  let robot := (← intArg 1).toUInt16
  let r ← match view with
    | .sensed => sensedValue robot
    | .derived t => do
      let key ← localAt 1
      tableGet t key
  push r
  ret1

/-- Call a function for every robot. -/
def eachRobot (call : Caller F) (callback : Ref) : List (RobotId × Option Ref) → Action F Unit
  | [] => pure ()
  | (robot, stored) :: rest => do
    let r ← viewValue robot stored
    let id ← robotObject robot
    let _ ← call callback [id, r]
    eachRobot call callback rest

/-- `foreach(function)` -/
def neighborsForeach (call : Caller F) (view : View) : Action F Unit := do
  requireArgs 1
  let callback ← closureArg 1
  eachRobot call callback (← entriesOf view)
  ret0

/-- Store what a function answers for every robot. -/
def mapRobots (call : Caller F) (callback result : Ref) :
    List (RobotId × Option Ref) → Action F Unit
  | [] => pure ()
  | (robot, stored) :: rest => do
    let r ← viewValue robot stored
    let id ← robotObject robot
    let mapped ← call callback [id, r]
    setRobotEntry result robot mapped
    mapRobots call callback result rest

/-- `map(function)` -/
def neighborsMap (call : Caller F) (view : View) : Action F Unit := do
  requireArgs 1
  let callback ← closureArg 1
  let result ← pushDerived
  mapRobots call callback result (← entriesOf view)
  ret1

/-- Keep the robots for which a function answers true. The value is on the stack during the call,
since nothing else may refer to it. -/
def filterRobots (call : Caller F) (callback result : Ref) :
    List (RobotId × Option Ref) → Action F Unit
  | [] => pure ()
  | (robot, stored) :: rest => do
    let r ← viewValue robot stored
    let id ← robotObject robot
    push r
    let keep ← call callback [id, r]
    let r ← pop
    if ((← get).value keep).isTruthy then setRobotEntry result robot r
    filterRobots call callback result rest

/-- `filter(function)` -/
def neighborsFilter (call : Caller F) (view : View) : Action F Unit := do
  requireArgs 1
  let callback ← closureArg 1
  let result ← pushDerived
  filterRobots call callback result (← entriesOf view)
  ret1

/-- Carry the top of the stack through a function for every robot. -/
def reduceRobots (call : Caller F) (callback : Ref) : List (RobotId × Option Ref) → Action F Unit
  | [] => pure ()
  | (robot, stored) :: rest => do
    let r ← viewValue robot stored
    let id ← robotObject robot
    let accumulator ← peek 0
    let next ← call callback [id, r, accumulator]
    setPeek 0 next
    reduceRobots call callback rest

/-- `reduce(function, initial)` -/
def neighborsReduce (call : Caller F) (view : View) : Action F Unit := do
  requireArgs 2
  let callback ← closureArg 1
  let accumulator ← localAt 2
  push accumulator
  reduceRobots call callback (← entriesOf view)
  ret1

/-- `count()` -/
def neighborsCount (view : View) : Action F Unit := do
  requireArgs 0
  pushInt (Int16.ofNat (← entriesOf view).length)
  ret1

/-- Store the robots whose kinship is as asked. -/
def keepKinship (kin : Bool) (result : Ref) : List (RobotId × Option Ref) → Action F Unit
  | [] => pure ()
  | (robot, stored) :: rest => do
    if (← get).membership.isKin robot == kin then
      let r ← viewValue robot stored
      setRobotEntry result robot r
    keepKinship kin result rest

/-- `kin()` and `nonkin()` -/
def neighborsKinship (kin : Bool) (view : View) : Action F Unit := do
  requireArgs 0
  let result ← pushDerived
  keepKinship kin result (← entriesOf view)
  ret1

/-- The view of the derived table that a function was called on. -/
def derivedView : Action F View := do
  let t ← localAt 0
  require ((← get).heap.kind t = .table) .type
  return .derived t

/-- `broadcast(topic, value)` -/
def neighborsBroadcast : Action F Unit := do
  requireArgs 2
  let topic ← stringArg 1
  let r ← localAt 2
  let m ← get
  send (.broadcast m.robot topic (m.value r))
  ret0

/-- `listen(topic, function)` -/
def neighborsListen : Action F Unit := do
  requireArgs 2
  let _ ← stringArg 1
  let topic ← localAt 1
  let listener ← closureArg 2
  tableSet (← get).listeners topic listener
  ret0

/-- `ignore(topic)` -/
def neighborsIgnore : Action F Unit := do
  requireArgs 1
  let _ ← stringArg 1
  let topic ← localAt 1
  let m ← get
  tableSet m.listeners topic m.nil
  ret0

/-- Hand a received broadcast to the listener of its topic, if there is one. -/
def deliverBroadcast (call : Caller F) (robot : RobotId) (topic payload : Ref) :
    Action F Unit := do
  touch (← get).listeners
  let m ← get
  match m.heap.tableGet? m.listeners topic with
  | none => pure ()
  | some listener =>
    if m.heap.kind listener = .closure then
      let sender ← robotObject robot
      let _ ← call listener [topic, payload, sender]

end Machine

end SwarmVm
