import SwarmVm.Fault
import SwarmVm.Value

/-!
# Operand stack

The stack holds heap indices up to a fixed depth. The base is the floor of the current call:
nothing below it is popped or looked at.
-/

namespace SwarmVm

/-- A bounded stack of heap indices with the floor of the current call. -/
structure OperandStack where
  /-- The indices, bottom first. -/
  slots : Array Ref := #[]
  /-- The greatest depth. -/
  capacity : Nat
  /-- The floor of the current call. -/
  base : Nat := 0
deriving DecidableEq, Repr

namespace OperandStack

/-- How many indices are on the stack. -/
def depth (s : OperandStack) : Nat := s.slots.size

/-- How many indices the current call may use. -/
def frameLength (s : OperandStack) : Nat := s.depth - s.base

/-- `count` more indices fit. -/
def hasRoom (s : OperandStack) (count : Nat) : Bool := s.depth + count ≤ s.capacity

/-- Move the floor, but not above the top. -/
def setBase (s : OperandStack) (base : Nat) : OperandStack := { s with base := min base s.depth }

/-- Put an index on top. -/
def push (s : OperandStack) (r : Ref) : Except Fault OperandStack :=
  if s.depth < s.capacity then .ok { s with slots := s.slots.push r } else .error .stack

/-- The `n`-th index from the top. -/
def peek (s : OperandStack) (n : Nat) : Except Fault Ref :=
  if n < s.frameLength then .ok (s.slots.getD (s.depth - 1 - n) 0) else .error .stack

/-- Take the top index off. -/
def pop (s : OperandStack) : Except Fault (Ref × OperandStack) :=
  if s.depth = s.base then .error .stack
  else .ok (s.slots.getD (s.depth - 1) 0, { s with slots := s.slots.pop })

/-- Replace the `n`-th index from the top. -/
def setPeek (s : OperandStack) (n : Nat) (r : Ref) : Except Fault OperandStack :=
  if n < s.frameLength then .ok { s with slots := s.slots.setIfInBounds (s.depth - 1 - n) r }
  else .error .stack

/-- Cut the stack back to a depth; the floor comes down with it. -/
def truncate (s : OperandStack) (depth : Nat) : OperandStack :=
  let slots := s.slots.take depth
  { s with slots, base := min s.base slots.size }

/-- Drop everything. -/
def clear (s : OperandStack) : OperandStack := { s with slots := #[], base := 0 }

end OperandStack

end SwarmVm
