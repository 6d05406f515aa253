import SwarmVm.Machine.Basic
import SwarmVm.Numeric.Shortest

/-!
# Objects of a machine

What host functions use to look at their arguments, to make objects and to read and write tables
and globals.

## Main definitions

* `Machine.alloc` — a new object; nil is shared
* `Machine.tableGet`, `Machine.tableSet`, `Machine.arrayPush` and the like — tables and arrays
* `Machine.localAt`, `Machine.argc`, `Machine.intArg` and the like — the arguments of a call
* `Machine.global`, `Machine.setGlobal`, `Machine.field`, `Machine.setField` — named entries
* `Machine.bindClosure` — a method bound to its table
* `Machine.describe` — the printed form of an object
-/

namespace SwarmVm

open Numeric

namespace Machine

variable {F : Type}

/-- The value of an object. -/
def value (m : Machine F) (r : Ref) : Value := m.heap.value r

/-- An object with a value. Nil is the shared nil object, and tables are not made this way. -/
def alloc (v : Value) : Action F Ref := do
  match v with
  | .nil => return (← get).nil
  | .table _ => fail .type
  | v => onHeap (Heap.allocValue v)

/-! ### Tables and arrays -/

/-- What a table holds under a key, nil when there is nothing. -/
def tableGet (t key : Ref) : Action F Ref := do
  touch t
  let m ← get
  return (m.heap.tableGet? t key).getD m.nil

/-- Store a value under a key of a table. -/
def tableSet (t key r : Ref) : Action F Unit := do
  touch t
  onHeap (Heap.tableSet t key r)

/-- Append an element to an array. -/
def arrayPush (a r : Ref) : Action F Unit := do
  touch a
  onHeap (Heap.arrayPush a r)

/-- A copy of an array. -/
def arrayClone (a : Ref) : Action F Ref := do
  touch a
  onHeap (Heap.arrayClone a)

/-- Drop every element of an array. -/
def arrayClear (a : Ref) : Action F Unit := do
  touch a
  touchSlot a
  modifyHeap (·.arrayClear a)

/-! ### Arguments -/

/-- Local `i` of the current call. Local zero is the object a method was called on. -/
def localAt (i : UInt16) : Action F Ref := do
  touch (← get).locals
  let m ← get
  orFail (m.heap.arrayGet? m.locals i.toNat) .localCount

/-- The number of arguments of the current call. -/
def argc (m : Machine F) : Nat := m.heap.arraySize m.locals - 1

/-- Fault unless the current call has exactly `count` arguments. -/
def requireArgs (count : Nat) : Action F Unit := do
  touch (← get).locals
  require ((← get).argc == count) .localCount

/-- The integer that is local `i`. -/
def intArg (i : UInt16) : Action F Int16 := do
  let r ← localAt i
  orFail ((← get).value r).asInt? .type

/-- The number of the string that is local `i`. -/
def stringArg (i : UInt16) : Action F NameId := do
  let r ← localAt i
  orFail ((← get).value r).asString? .type

/-- The closure that is local `i`. -/
def closureArg (i : UInt16) : Action F Ref := do
  let r ← localAt i
  require ((← get).heap.kind r = .closure) .type
  return r

/-- Fault unless an object is a table that is not an array. -/
def expectTable (r : Ref) : Action F Unit := do
  let h := (← get).heap
  require (h.kind r = .table && !h.isArray r) .type

/-- The table that is local `i`. -/
def tableArg (i : UInt16) : Action F Ref := do
  let r ← localAt i
  expectTable r
  return r

/-! ### The stack -/

/-- Take an integer off the stack. -/
def popInt : Action F Int16 := do
  let r ← pop
  orFail ((← get).value r).asInt? .type

/-- Take two objects off the stack; the upper one comes second. -/
def popPair : Action F (Ref × Ref) := do
  let b ← pop
  let a ← pop
  return (a, b)

/-- Put a new object with a value on the stack. -/
def pushValue (v : Value) : Action F Unit := do
  push (← alloc v)

/-- Put the shared nil on the stack. -/
def pushNil : Action F Unit := do
  push (← get).nil

/-- Put an integer on the stack. -/
def pushInt (i : Int16) : Action F Unit := pushValue (.int i)

/-- Put one or zero on the stack. -/
def pushBool (b : Bool) : Action F Unit := pushInt (if b then 1 else 0)

/-- Put the nearest half to a number on the stack. -/
def pushFloat (x : Single) : Action F Unit := pushValue (.float (.narrow x))

/-- Put a known string on the stack. -/
def pushString (id : NameId) : Action F Unit := do
  require ((← get).names.contains id) .string
  pushValue (.string id)

/-- Put a new table on the stack. -/
def pushTable : Action F Ref := do
  let t ← onHeap Heap.tableNew
  push t
  return t

/-! ### Fields and globals -/

/-- An entry of a table under a string, nil when there is none. -/
def field (t : Ref) (name : NameId) : Action F Ref := do
  let key ← alloc (.string name)
  tableGet t key

/-- Store an entry of a table under a string. -/
def setField (t : Ref) (name : NameId) (r : Ref) : Action F Unit := do
  let key ← alloc (.string name)
  tableSet t key r

/-- A global, nil when it is not set. -/
def global (name : NameId) : Action F Ref := do
  field (← get).globals name

/-- Set a global. -/
def setGlobal (name : NameId) (r : Ref) : Action F Unit := do
  setField (← get).globals name r

/-- A closure of a standard host function. -/
def allocPrimitive (p : Primitive) : Action F Ref := alloc (.closure (.ofHost p.functionId))

/-- A copy of an activation record whose local zero is `self`. -/
def rebind (captured self : Ref) : Action F Ref := do
  let record ← arrayClone captured
  touch record
  touchSlot record
  modifyHeap (·.setFlagB record false)
  if !(← changeHeap fun h => h.arraySet record 0 self) then
    arrayPush record self
  return record

/-- An activation record with nothing but `self`. -/
def selfRecord (self : Ref) : Action F Ref := do
  let record ← onHeap Heap.arrayNew
  arrayPush record self
  return record

/-- A copy of a closure that has a table as its local zero. Other objects are left as they are. -/
def bindClosure (t r : Ref) : Action F Ref := do
  match ((← get).value r).asClosure? with
  | none => return r
  | some c =>
    let record ← match c.captured with
      | some captured => rebind captured t
      | none => selfRecord t
    alloc (.closure { c with captured := some record })

/-- Fill a table with host functions bound to it. -/
def addMethods (t : Ref) : List (Builtin × Primitive) → Action F Unit
  | [] => pure ()
  | (name, p) :: rest => do
    let function ← allocPrimitive p
    let method ← bindClosure t function
    setField t name.nameId method
    addMethods t rest

/-- A new table of host functions bound to it. -/
def methodTable (methods : List (Builtin × Primitive)) : Action F Ref := do
  let t ← onHeap Heap.tableNew
  addMethods t methods
  return t

/-- The printed form of an object. -/
def describe (m : Machine F) (r : Ref) : String :=
  match m.value r with
  | .nil => "nil"
  | .int i => Text.signedDecimal i.toInt
  | .float x => x.text
  | .string id => (m.names.get? id).getD ("<string " ++ Text.decimal id.toNat ++ ">")
  | .table _ => "[table @" ++ Text.decimal r.toNat ++ "]"
  | .closure ⟨.code address, _⟩ => "[closure @" ++ Text.hex 4 address.toNat ++ "]"
  | .closure ⟨.host id, _⟩ =>
    match Primitive.ofId? id with
    | some p => "[host closure " ++ p.name ++ "]"
    | none => "[host closure #" ++ Text.decimal id.toNat ++ "]"
  | .userdata w => "[userdata 0x" ++ Text.hex 0 w.toNat ++ "]"

end Machine

end SwarmVm
