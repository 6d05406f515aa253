import SwarmVm.Machine.Arithmetic
import SwarmVm.Machine.Calls

/-!
# Instructions executed

One instruction is fetched, the program counter moves past it, and it acts on the stack, the
locals and the heap. The way in which a host function is run is a parameter here.

## Main definitions

* `Machine.fetch` — the instruction at the program counter
* `Machine.execute` — one instruction
* `Machine.collectGarbage` — a collection whose roots are the stack and the registers
-/

namespace SwarmVm

open Numeric

namespace Machine

variable {F : Type}

/-- The instruction at the program counter, or why there is none. -/
def fetch (m : Machine F) : Except Fault (Opcode × Option UInt16) :=
  let pc := m.pc.toNat
  if m.code.size ≤ pc then .error .programCounter
  else
    match Opcode.ofByte? (m.code.getD pc 0) with
    | none => .error .instruction
    | some op =>
      if op.hasOperand then
        if m.code.size < pc + op.width then .error .programCounter
        else .ok (op, some (Word.ofBytes (m.code.getD (pc + 1) 0) (m.code.getD (pc + 2) 0)))
      else .ok (op, none)

/-- The objects that are kept alive besides those on the stack. -/
def ambient (m : Machine F) : List Ref :=
  [m.nil, m.defaultRecord, m.globals, m.locals, m.listeners,
    m.stigmergy.onConflict.getD m.nil, m.stigmergy.onConflictLost.getD m.nil]
    ++ m.pinned.toList

/-- Collect garbage. The roots need room on top of the stack. -/
def collectGarbage : Action F Unit := do
  let ambient := (← get).ambient
  let stack := (← get).stack
  require (stack.hasRoom ambient.length) .stack
  let freed ← changeHeap fun h => h.collect (stack.slots.toList ++ ambient)
  emit (.collected freed.objects freed.segments (← get).heap.freeBytes)

/-- Go on at an address of the code. -/
def jumpTo (address : UInt16) : Action F Unit := do
  require (address.toNat < (← get).code.size) .programCounter
  modify fun m => { m with pc := address }

/-- Jump if the value taken off the stack is as true as `when`. -/
def jumpIf (when : Bool) (address : UInt16) : Action F Unit := do
  let r ← pop
  if ((← get).value r).isTruthy == when then jumpTo address

/-- The numeric operand that an object is. -/
def number (r : Ref) : Action F Number := do
  orFail (Number.ofValue? ((← get).value r)) .type

/-- An arithmetic operation on the two uppermost objects. -/
def arithmetic (op : Arithmetic) : Action F Unit := do
  let (a, b) ← popPair
  let x ← number a
  let y ← number b
  match op.apply x y with
  | .ok v => pushValue v
  | .error e => fail e

/-- Flip the sign of the uppermost object. -/
def negate : Action F Unit := do
  let x ← number (← pop)
  pushValue x.neg

/-- Combine the truth of the two uppermost objects. -/
def logic (combine : Bool → Bool → Bool) : Action F Unit := do
  let (a, b) ← popPair
  let m ← get
  pushBool (combine (m.value a).isTruthy (m.value b).isTruthy)

/-- The integer that an object is. -/
def integer (r : Ref) : Action F Int16 := do
  orFail ((← get).value r).asInt? .type

/-- A bitwise operation on the two uppermost objects. -/
def bitwise (op : Bitwise) : Action F Unit := do
  let (a, b) ← popPair
  let x ← integer a
  let y ← integer b
  pushInt (op.apply x y)

/-- Test the order of the two uppermost objects. -/
def comparison (test : Comparison) : Action F Unit := do
  let (a, b) ← popPair
  pushBool (test.holds ((← get).heap.compare a b))

/-- Fault unless an object is a string. -/
def expectString (r : Ref) : Action F Unit := do
  let _ ← orFail ((← get).value r).asString? .type

/-- Replace the name on the stack by the global with that name. -/
def loadGlobal : Action F Unit := do
  let key ← pop
  expectString key
  push (← tableGet (← get).globals key)

/-- Store the uppermost object in the global named below it. -/
def storeGlobal : Action F Unit := do
  let (key, r) ← popPair
  expectString key
  tableSet (← get).globals key r

/-- Store the uppermost object under the key and in the table below it. A closure is bound to the
table. -/
def putField : Action F Unit := do
  let r ← pop
  let (t, key) ← popPair
  expectTable t
  let r ← bindClosure t r
  tableSet t key r

/-- Replace a table and a key by what the table holds under the key. -/
def getField : Action F Unit := do
  let (t, key) ← popPair
  expectTable t
  push (← tableGet t key)

/-- Push a closure of a host function that exists. -/
def pushHost (id : UInt16) : Action F Unit := do
  require (id.toNat < (← get).functionCount) .functionList
  pushValue (.closure (.ofHost id))

/-- Push a closure that captures a copy of the current locals. -/
def pushLambda (address : UInt16) : Action F Unit := do
  let captured ← arrayClone (← get).locals
  pushValue (.closure ⟨.code address, some captured⟩)

/-- Store the uppermost object in a local, which may be the next new one. -/
def storeLocal (i : UInt16) : Action F Unit := do
  let r ← pop
  let record := (← get).locals
  touch record
  let size := (← get).heap.arraySize record
  if i.toNat < size then modifyHeap fun h => (h.arraySet record i.toNat r).2
  else if i.toNat = size then arrayPush record r
  else fail .localCount

/-- The action of an instruction, the program counter having moved past it. -/
def perform (host : UInt16 → Action F Unit) (op : Opcode) (operand : UInt16) : Action F Unit :=
  match op with
  | .nop => pure ()
  | .done => pure ()
  | .pushNil => pushNil
  | .dup => do push (← peek 0)
  | .pop => do let _ ← pop
  | .ret0 => ret0
  | .ret1 => ret1
  | .add => arithmetic .add
  | .sub => arithmetic .sub
  | .mul => arithmetic .mul
  | .div => arithmetic .div
  | .mod => arithmetic .mod
  | .pow => arithmetic .pow
  | .unm => negate
  | .logicAnd => logic (· && ·)
  | .logicOr => logic (· || ·)
  | .logicNot => do
    let r ← pop
    pushBool !((← get).value r).isTruthy
  | .bitAnd => bitwise .and
  | .bitOr => bitwise .or
  | .bitNot => do
    let i ← integer (← pop)
    pushInt (~~~ i)
  | .shiftLeft => bitwise .shiftLeft
  | .shiftRight => bitwise .shiftRight
  | .eq => comparison .eq
  | .neq => comparison .neq
  | .gt => comparison .gt
  | .gte => comparison .gte
  | .lt => comparison .lt
  | .lte => comparison .lte
  | .loadGlobal => loadGlobal
  | .storeGlobal => storeGlobal
  | .pushTable => do let _ ← pushTable
  | .putField => putField
  | .getField => getField
  | .call => call host
  | .pushFloat => pushValue (.float ⟨operand⟩)
  | .pushInt => pushInt operand.toInt16
  | .pushString => pushString operand
  | .pushCode => pushValue (.closure (.ofCode operand))
  | .pushHost => pushHost operand
  | .pushLambda => pushLambda operand
  | .loadLocal => do push (← localAt operand)
  | .storeLocal => storeLocal operand
  | .jump => jumpTo operand
  | .jumpIfFalse => jumpIf false operand
  | .jumpIfTrue => jumpIf true operand

/-- Execute the instruction at the program counter. `done` ends the script and stays where it
is. -/
def execute (host : UInt16 → Action F Unit) : Action F Unit := do
  match (← get).fetch with
  | .error e => fail e
  | .ok (op, operand) =>
    emit (.fetched (← get).pc op)
    if op = .done then modify fun m => { m with state := .done }
    else
      modify fun m => { m with pc := m.pc + UInt16.ofNat op.width }
      perform host op (operand.getD 0)

end Machine

end SwarmVm
