import SwarmVm.Fault
import SwarmVm.Value

/-!
# Arithmetic

Two integers are combined as sixteen-bit integers, which wrap around. As soon as one operand is
not an integer both are taken in single precision, and the result is narrowed to a half. Division
by zero has no value in either case.
-/

namespace SwarmVm

open Numeric

/-- An operand of an arithmetic operation. -/
inductive Number where
  /-- An integer. -/
  | int (i : Int16)
  /-- A number in single precision. -/
  | single (x : Single)
deriving DecidableEq, Repr

namespace Number

/-- The numeric operand that a value is. -/
def ofValue? : Value → Option Number
  | .int i => some (.int i)
  | .float x => some (.single x.widen)
  | _ => none

/-- The number in single precision. -/
def toSingle : Number → Single
  | int i => .ofInt i.toInt
  | single x => x

/-- The number with its sign flipped. -/
def neg : Number → Value
  | int i => .int (-i)
  | single x => .float (.narrow x.neg)

end Number

/-- The operations on two numbers. -/
inductive Arithmetic where
  | add | sub | mul | div | mod | pow
deriving DecidableEq, Repr

namespace Arithmetic

/-- An operation on integers. Division goes toward zero, and a negative power is not an integer. -/
def onInts (op : Arithmetic) (x y : Int16) : Except Fault Value :=
  match op with
  | add => .ok (.int (x + y))
  | sub => .ok (.int (x - y))
  | mul => .ok (.int (x * y))
  | div => if y = 0 then .error .math else .ok (.int (Int16.ofInt (x.toInt.tdiv y.toInt)))
  | mod => if y = 0 then .error .math else .ok (.int (Int16.ofInt (x.toInt.tmod y.toInt)))
  | pow =>
    if 0 ≤ y.toInt then .ok (.int (x ^ y.toInt.toNat))
    else .ok (.float (.narrow ((Single.ofInt x.toInt).pow (.ofInt y.toInt))))

/-- An operation in single precision, narrowed to a half. -/
def onSingles (op : Arithmetic) (x y : Single) : Except Fault Value :=
  match op with
  | add => .ok (.float (.narrow (x.add y)))
  | sub => .ok (.float (.narrow (x.sub y)))
  | mul => .ok (.float (.narrow (x.mul y)))
  | div => if y.isZero then .error .math else .ok (.float (.narrow (x.div y)))
  | mod => if y.isZero then .error .math else .ok (.float (.narrow (x.rem y)))
  | pow => .ok (.float (.narrow (x.pow y)))

/-- An operation on two numbers. -/
def apply (op : Arithmetic) : Number → Number → Except Fault Value
  | .int x, .int y => op.onInts x y
  | x, y => op.onSingles x.toSingle y.toSingle

end Arithmetic

/-- The bitwise operations on two integers. -/
inductive Bitwise where
  | and | or | shiftLeft | shiftRight
deriving DecidableEq, Repr

namespace Bitwise

/-- How far to shift: the low four bits of an integer. -/
def distance (i : Int16) : Nat := i.toUInt16.toNat % 16

/-- A bitwise operation. Shifting to the right keeps the sign. -/
def apply (op : Bitwise) (x y : Int16) : Int16 :=
  match op with
  | and => x &&& y
  | or => x ||| y
  | shiftLeft => Int16.ofInt (x.toInt * (Nat.pow 2 (distance y) : Nat))
  | shiftRight => Int16.ofInt (x.toInt / (Nat.pow 2 (distance y) : Nat))

end Bitwise

/-- The tests on the order of two values. -/
inductive Comparison where
  | eq | neq | gt | gte | lt | lte
deriving DecidableEq, Repr

/-- Whether an order passes a test. -/
def Comparison.holds : Comparison → Ordering → Bool
  | eq, o => o == .eq
  | neq, o => o != .eq
  | gt, o => o == .gt
  | gte, o => o != .lt
  | lt, o => o == .lt
  | lte, o => o != .gt

end SwarmVm
