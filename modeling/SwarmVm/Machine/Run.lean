import SwarmVm.Machine.Execute
import SwarmVm.Machine.Neighbors
import SwarmVm.Machine.Stigmergy
import SwarmVm.Machine.Swarms

/-!
# Running

Host functions call back into the script, and the script calls host functions, to any depth. The
recursion is on fuel: with `n + 1` units a closure may execute `n` instructions of its own, and
every call that it makes from host code has `n` units. A machine that does not run out behaves the
same with more.

## Main definitions

* `Machine.runPrimitive`, `Machine.runHost` — host functions by number
* `Machine.callClosure` — call a closure from host code, and run it to completion
* `Machine.step`, `Machine.run` — one instruction, and all of them
* `Machine.functionCall` — call a global function
-/

namespace SwarmVm

namespace Machine

variable {F : Type}

/-- The printed forms of `n` locals from the `i`-th on. -/
def describeLocals : Nat → Nat → Action F (List String)
  | _, 0 => return []
  | i, n + 1 => do
    let r ← localAt (UInt16.ofNat i)
    let text := (← get).describe r
    let rest ← describeLocals (i + 1) n
    return text :: rest

/-- `log(...)`: write the arguments in one line. -/
def writeLog : Action F Unit := do
  touch (← get).locals
  let texts ← describeLocals 1 (← get).argc
  emit (.said (← get).robot (" ".intercalate texts))
  ret0

/-- What a standard host function does. -/
def runPrimitive (call : Caller F) : Primitive → Action F Unit
  | .log => writeLog
  | .neighborsBroadcast => neighborsBroadcast
  | .neighborsListen => neighborsListen
  | .neighborsIgnore => neighborsIgnore
  | .neighborsGet => neighborsGet .sensed
  | .neighborsForeach => neighborsForeach call .sensed
  | .neighborsMap => neighborsMap call .sensed
  | .neighborsReduce => neighborsReduce call .sensed
  | .neighborsFilter => neighborsFilter call .sensed
  | .neighborsCount => neighborsCount .sensed
  | .neighborsKin => neighborsKinship true .sensed
  | .neighborsNonkin => neighborsKinship false .sensed
  | .derivedGet => do neighborsGet (← derivedView)
  | .derivedForeach => do neighborsForeach call (← derivedView)
  | .derivedMap => do neighborsMap call (← derivedView)
  | .derivedReduce => do neighborsReduce call (← derivedView)
  | .derivedFilter => do neighborsFilter call (← derivedView)
  | .derivedCount => do neighborsCount (← derivedView)
  | .derivedKin => do neighborsKinship true (← derivedView)
  | .derivedNonkin => do neighborsKinship false (← derivedView)
  | .stigmergyCreate => stigmergyCreate
  | .stigmergyPut => stigmergyPut
  | .stigmergyGet => stigmergyGet
  | .stigmergySize => stigmergySize
  | .stigmergyOnconflict => stigmergyOnconflict
  | .stigmergyOnconflictlost => stigmergyOnconflictlost
  | .swarmCreate => swarmCreate
  | .swarmJoin => swarmJoin
  | .swarmLeave => swarmLeave
  | .swarmIn => swarmIn
  | .swarmSelect => swarmSelect
  | .swarmExec => swarmExec call

variable [HostFunctions F]

/-- What the host function with a number does. -/
def runHost (call : Caller F) (id : UInt16) : Action F Unit := do
  match Primitive.ofId? id with
  | some p => runPrimitive call p
  | none =>
    match (← get).functions[id.toNat - Primitive.total]? with
    | some f => HostFunctions.run f call
    | none => fail .functionList

/-- Put the operands of a call on the stack. -/
def pushOperands (closure : Ref) (args : List Ref) : Action F Unit := do
  require ((← get).stack.hasRoom (args.length + 2)) .stack
  args.reverse.forM push
  push (← alloc (.int (Int16.ofNat args.length)))
  push closure

/-- Execute instructions until no more than `depth` calls are open. The script must not end in
between. -/
def runFrames (call : Caller F) (depth : Nat) : Nat → Action F Unit
  | 0 => throw .outOfFuel
  | n + 1 => fun m =>
    if m.frameDepth ≤ depth then .ok () m
    else
      match (do collectGarbage; execute (runHost call)) m with
      | .error e m => .error e m
      | .ok _ m =>
        if m.state = .ready then runFrames call depth n m else .error (.fault .badReturn) m

/-- The registers of `m` put back to what they were in `entry`. -/
def restore (entry m : Machine F) : Machine F :=
  { m with
    stack := (m.stack.truncate entry.stack.depth).setBase entry.stack.base
    pc := entry.pc
    frameDepth := entry.frameDepth
    locals := entry.locals }

/-- Run a call inside the registers of the machine: it starts ready, the state is the same
afterwards, and when it fails so are the registers. -/
def guarded (x : Action F Ref) : Action F Ref := fun entry =>
  match x { entry with state := .ready } with
  | .ok r m => .ok r { m with state := entry.state }
  | .error e m => .error e { restore entry m with state := entry.state }

/-- Call a closure from host code and run it to completion. The result stays alive until the next
collection. Faults are answered, not reported. -/
def callClosure : Nat → Caller F
  | 0, _, _ => throw .outOfFuel
  | n + 1, closure, args => guarded do
    let depth := (← get).frameDepth
    pushOperands closure args
    call (runHost (callClosure n))
    runFrames (callClosure n) depth n
    pop

/-- Collect garbage, then execute one instruction, if the machine is ready. A fault is reported,
and the program counter stays on the instruction. -/
def step (fuel : Nat) : Action F Unit := do
  let entry ← get
  if entry.state = .ready then
    match ← attempt (do collectGarbage; execute (runHost (callClosure fuel))) with
    | .ok _ => pure ()
    | .error e =>
      modify fun m => { m with pc := entry.pc }
      setError e

/-- Step until the machine is not ready any more. -/
def run : Nat → Action F Unit
  | 0 => throw .outOfFuel
  | n + 1 => fun m =>
    if m.state = .ready then
      match step n m with
      | .ok _ m => run n m
      | .error e m => .error e m
    else .ok () m

/-- The closure bound to a global name, called with arguments. -/
def callGlobal (fuel : Nat) (name : NameId) (args : List Ref) : Action F Ref := do
  let function ← global name
  require ((← get).heap.kind function = .closure) .type
  callClosure fuel function args

/-- Call a global function of a script that is ready or done. A fault is answered and reported. -/
def functionCall (fuel : Nat) (name : NameId) (args : List Ref) : Action F Ref := do
  let entry ← get
  match entry.state with
  | .error => fail (entry.error.getD .instruction)
  | .noCode => fail .programCounter
  | .ready | .done =>
    match ← attempt (callGlobal fuel name args) with
    | .ok r => return r
    | .error e =>
      modify fun m => { m with pc := entry.pc }
      setError e
      fail e

end Machine

end SwarmVm
