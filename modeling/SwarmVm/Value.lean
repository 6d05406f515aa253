import SwarmVm.Numeric.Half

/-!
# Values

A heap object is decoded to a value of one of seven kinds. Tables and arrays are values that name
the first segment of a chain; closures name a code address or a host function, and may carry the
activation record they captured.

## Main definitions

* `Kind`, `Value` — the seven kinds and what each holds
* `Value.isTruthy` — what counts as true in a condition
* `Value.order` — the order used for keys and comparisons
-/

namespace SwarmVm

open Numeric

/-- The index of a heap object. -/
abbrev Ref := UInt16

/-- The index of a table segment. -/
abbrev SegRef := UInt16

/-- The number of a string. -/
abbrev NameId := UInt16

/-- The number of a robot. -/
abbrev RobotId := UInt16

/-- The kinds of object. -/
inductive Kind where
  /-- The absent value. -/
  | nil
  /-- A sixteen-bit integer. -/
  | int
  /-- A half-precision number. -/
  | float
  /-- A numbered string. -/
  | string
  /-- A table or an array. -/
  | table
  /-- A function. -/
  | closure
  /-- A word of the embedder. -/
  | userdata
deriving DecidableEq, Repr

namespace Kind

/-- The kinds in the order of their tags. -/
def all : List Kind := [nil, int, float, string, table, closure, userdata]

/-- The three-bit tag of a kind. -/
def tag (k : Kind) : Nat := k.ctorIdx

/-- The kind with a tag; seven is the tag of none. -/
def ofTag? (tag : Nat) : Option Kind := all[tag]?

/-- The name of a kind. -/
def name : Kind → String
  | nil => "nil"
  | int => "int"
  | float => "float"
  | string => "string"
  | table => "table"
  | closure => "closure"
  | userdata => "userdata"

end Kind

/-- A table or array: its first segment and its two flags. -/
structure TableValue where
  /-- First segment of the chain. -/
  head : SegRef
  /-- The chain holds a sequence instead of pairs. -/
  isArray : Bool
  /-- The array was made as a copy of another. -/
  isCloned : Bool
deriving DecidableEq, Repr

/-- Where a closure leads. -/
inductive Target where
  /-- A code address. -/
  | code (address : UInt16)
  /-- A host function. -/
  | host (id : UInt16)
deriving DecidableEq, Repr

/-- A function value. -/
structure Closure where
  /-- Where a call goes. -/
  target : Target
  /-- The captured activation record, if there is one. -/
  captured : Option Ref
deriving DecidableEq, Repr

namespace Closure

/-- A closure of a code address that captures nothing. -/
def ofCode (address : UInt16) : Closure := ⟨.code address, none⟩

/-- A closure of a host function that captures nothing. -/
def ofHost (id : UInt16) : Closure := ⟨.host id, none⟩

/-- The closure leads to a host function. -/
def isHost (c : Closure) : Bool :=
  match c.target with
  | .host _ => true
  | .code _ => false

/-- The closure captured an activation record. -/
def isLambda (c : Closure) : Bool := c.captured.isSome

end Closure

/-- A decoded heap object. -/
inductive Value where
  /-- The absent value. -/
  | nil
  /-- A sixteen-bit integer. -/
  | int (i : Int16)
  /-- A half-precision number. -/
  | float (x : Half)
  /-- A numbered string. -/
  | string (id : NameId)
  /-- A table or an array. -/
  | table (t : TableValue)
  /-- A function. -/
  | closure (c : Closure)
  /-- A word of the embedder. -/
  | userdata (word : UInt32)
deriving DecidableEq, Repr

namespace Value

/-- The kind of a value. -/
def kind : Value → Kind
  | nil => .nil
  | int _ => .int
  | float _ => .float
  | string _ => .string
  | table _ => .table
  | closure _ => .closure
  | userdata _ => .userdata

/-- The value is nil. -/
def isNil (v : Value) : Bool := v.kind = .nil

/-- What counts as true in a condition: everything but nil and the zeros. -/
def isTruthy : Value → Bool
  | nil => false
  | int i => i != 0
  | float x => !x.isZero
  | _ => true

/-- The integer of an integer value. -/
def asInt? : Value → Option Int16
  | int i => some i
  | _ => none

/-- The number of a numeric value, in single precision. -/
def asSingle? : Value → Option Single
  | int i => some (.ofInt i.toInt)
  | float x => some x.widen
  | _ => none

/-- The string number of a string value. -/
def asString? : Value → Option NameId
  | string id => some id
  | _ => none

/-- The table of a table value. -/
def asTable? : Value → Option TableValue
  | table t => some t
  | _ => none

/-- The closure of a function value. -/
def asClosure? : Value → Option Closure
  | closure c => some c
  | _ => none

/-- The order of values. Nil comes first and numbers follow their numeric order across both
representations; strings and words of the embedder are ordered by number. Whatever has no order of
its own, a not-a-number included, comes out as less. -/
def order : Value → Value → Ordering
  | nil, nil => .eq
  | nil, _ => .lt
  | _, nil => .gt
  | int a, int b => compare a.toInt b.toInt
  | int a, float b => ((Single.ofInt a.toInt).compare? b.widen).getD .lt
  | float a, int b => (a.widen.compare? (.ofInt b.toInt)).getD .lt
  | float a, float b => (a.widen.compare? b.widen).getD .lt
  | string a, string b => compare a.toNat b.toNat
  | userdata a, userdata b => compare a.toNat b.toNat
  | _, _ => .lt

end Value

end SwarmVm
