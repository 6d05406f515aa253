import SwarmVm.Image.Header
import SwarmVm.Image.Instruction
import SwarmVm.Names
import SwarmVm.Numeric.Shortest
import SwarmVm.Text.Quoted

/-!
# Listings

A listing shows the strings of an image and then its code, one line for each instruction. Bytes
that start no whole instruction are shown one by one.

## Main definitions

* `Listing.items` — the code cut into instructions and single bytes
* `Listing.render` — the listing of an image
-/

namespace SwarmVm

open Numeric

namespace Listing

/-- One line of the code. -/
inductive Item where
  /-- A whole instruction. -/
  | instruction (instruction : Instruction)
  /-- A byte that starts none. -/
  | byte (offset : Nat) (byte : UInt8)
deriving DecidableEq, Repr

/-- The number of bytes that a line stands for. -/
def Item.width : Item → Nat
  | instruction i => i.op.width
  | byte .. => 1

/-- The line at an offset. -/
def itemAt (code : Array UInt8) (offset : Nat) : Item :=
  match Instruction.decode? code offset with
  | some i => .instruction i
  | none => .byte offset (code.getD offset 0)

theorem Item.width_pos (i : Item) : 0 < i.width := by
  cases i with
  | instruction i => simp only [width, Opcode.width]; split <;> omega
  | byte => exact Nat.one_pos

/-- The code from an offset on, cut into lines. -/
def items (code : Array UInt8) (offset : Nat) : List Item :=
  if offset < code.size then
    let item := itemAt code offset
    item :: items code (offset + item.width)
  else []
termination_by code.size - offset
decreasing_by
  have := (itemAt code offset).width_pos
  omega

/-- What is shown behind the mnemonic: integers signed, halves as numbers, strings with their text,
addresses in hexadecimal. -/
def operandText (names : NameTable) (op : Opcode) (operand : UInt16) : String :=
  let plain := Text.decimal operand.toNat
  match op with
  | .pushInt => " " ++ Text.signedDecimal operand.toInt16.toInt
  | .pushFloat => " " ++ Half.text ⟨operand⟩
  | .pushString =>
    match names.get? operand with
    | some s => " " ++ plain ++ " ; " ++ Text.quoted s
    | none => " " ++ plain ++ " ; <unknown>"
  | .pushCode | .pushLambda | .jump | .jumpIfFalse | .jumpIfTrue =>
    " " ++ Text.hex 4 operand.toNat
  | _ => " " ++ plain

/-- The text of a line. -/
def Item.text (names : NameTable) : Item → String
  | instruction i =>
    let operand := match i.operand with
      | some w => operandText names i.op w
      | none => ""
    Text.hex 4 i.offset.toNat ++ "  " ++ i.op.mnemonic ++ operand
  | byte offset b => Text.hex 4 offset ++ "  .byte 0x" ++ Text.hex 2 b.toNat

/-- The line of a numbered string. -/
def stringLine (s : String) (i : Nat) : String :=
  "; string " ++ Text.rightAligned 4 (Builtin.total + i) ++ " " ++ Text.quoted s

/-- The listing of an image. -/
def render (image : Image) : String :=
  let names : NameTable := ⟨image.strings.toArray⟩
  let strings := image.strings.mapIdx fun i s => stringLine s i
  let code := (items image.code 0).map (Item.text names)
  String.join ((strings ++ code).map (· ++ "\n"))

end Listing

end SwarmVm
