import SwarmVm.Machine.Objects

/-!
# Calls and returns

A call finds the closure on top of the stack, below it the number of arguments, and below that the
arguments, the first one uppermost. It replaces them by three bookkeeping entries (the caller's
base, activation record and return address) and raises the base above them. A return drops back to
these entries, restores the caller's registers and leaves the result on the stack.

Everything that can go wrong is checked, and every object made, before the stack is touched.

## Main definitions

* `Machine.enter` — open a call
* `Machine.call` — open a call; host functions run to completion
* `Machine.ret0`, `Machine.ret1` — return nil, or the top of the stack
-/

namespace SwarmVm

namespace Machine

variable {F : Type}

/-- How many host functions there are, standard ones included. -/
def functionCount (m : Machine F) : Nat := Primitive.total + m.functions.size

/-- Where a closure leads exists. -/
def checkTarget (t : Target) : Action F Unit := do
  match t with
  | .code address => require (address.toNat < (← get).code.size) .programCounter
  | .host id => require (id.toNat < (← get).functionCount) .functionList

/-- Append `n` arguments to an activation record, the first one from position `i` of the stack. -/
def pushArguments (record : Ref) : Nat → Nat → Action F Unit
  | _, 0 => pure ()
  | i, n + 1 => do
    let argument ← peek i
    arrayPush record argument
    pushArguments record (i + 1) n

/-- The number of arguments of a call, checked against the stack. -/
def argumentCount (r : Ref) : Action F Nat := do
  let count ← orFail ((← get).value r).asInt? .type
  require (0 ≤ count.toInt) .localCount
  let argc := count.toInt.toNat
  require (argc + 2 ≤ (← get).stack.frameLength) .stack
  return argc

/-- Replace the operands of a call by its bookkeeping, and switch to its activation record. -/
def openFrame (argc : Nat) (record base address : Ref) : Action F Unit := do
  modify fun m => { m with stack := m.stack.truncate (m.stack.depth - argc - 2) }
  push base
  push (← get).locals
  push address
  modify fun m => { m with
    stack := m.stack.setBase m.stack.depth
    locals := record
    frameDepth := m.frameDepth + 1 }

/-- Open the call whose operands are on the stack, and answer where it leads. Three entries take
the place of `argc + 2`, so only a call without arguments needs more room. -/
def enter : Action F Target := do
  let closureRef ← peek 0
  let countRef ← peek 1
  let closure ← orFail ((← get).value closureRef).asClosure? .type
  let argc ← argumentCount countRef
  checkTarget closure.target
  require (0 < argc || (← get).stack.hasRoom 1) .stack
  let record ← arrayClone (closure.captured.getD (← get).defaultRecord)
  pushArguments record 2 argc
  let base ← alloc (.int (Int16.ofNat (← get).stack.base))
  let address ← alloc (.int (← get).pc.toInt16)
  openFrame argc record base address
  return closure.target

/-- Make the call whose operands are on the stack. A host function runs to completion, and must
have returned exactly once. -/
def call (host : UInt16 → Action F Unit) : Action F Unit := do
  match ← enter with
  | .code address => modify fun m => { m with pc := address }
  | .host id =>
    let depth := (← get).frameDepth
    host id
    require ((← get).frameDepth + 1 == depth) .badReturn

/-- Close the current call with a result. -/
def leaveFrame (result : Option Ref) : Action F Unit := do
  require (0 < (← get).frameDepth) .badReturn
  let base := (← get).stack.base
  require (3 ≤ base) .stack
  modify fun m => { m with stack := (m.stack.truncate base).setBase (base - 3) }
  let address ← popInt
  let callerLocals ← pop
  let callerBase ← popInt
  arrayClear (← get).locals
  modify fun m => { m with
    locals := callerLocals
    stack := m.stack.setBase callerBase.toUInt16.toNat
    pc := address.toUInt16
    frameDepth := m.frameDepth - 1 }
  push (result.getD (← get).nil)

/-- Return nil. -/
def ret0 : Action F Unit := leaveFrame none

/-- Return the object on top of the stack. -/
def ret1 : Action F Unit := do
  require (0 < (← get).stack.frameLength) .badReturn
  let r ← pop
  leaveFrame (some r)

end Machine

end SwarmVm
