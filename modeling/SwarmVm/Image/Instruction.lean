import SwarmVm.Image.Opcode
import SwarmVm.Word

/-!
# Instructions

An instruction of the code is an opcode at an address, with its operand if it has one.
-/

namespace SwarmVm

/-- A decoded instruction. -/
structure Instruction where
  /-- Its address. -/
  offset : UInt16
  /-- What it does. -/
  op : Opcode
  /-- Its operand. -/
  operand : Option UInt16
deriving DecidableEq, Repr

namespace Instruction

/-- The operand word at an offset of the code. -/
def operandAt? (code : Array UInt8) (offset : Nat) : Option UInt16 :=
  match code[offset]?, code[offset + 1]? with
  | some low, some high => some (Word.ofBytes low high)
  | _, _ => none

/-- Decode the instruction at an offset, `none` when there is no whole one. -/
def decode? (code : Array UInt8) (offset : Nat) : Option Instruction :=
  match code[offset]?.bind Opcode.ofByte? with
  | none => none
  | some op =>
    if op.hasOperand then
      (operandAt? code (offset + 1)).map fun w => ⟨UInt16.ofNat offset, op, some w⟩
    else some ⟨UInt16.ofNat offset, op, none⟩

end Instruction

end SwarmVm
