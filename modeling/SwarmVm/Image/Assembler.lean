import SwarmVm.Image.Header
import SwarmVm.Image.Opcode
import SwarmVm.Names
import SwarmVm.Numeric.Half
import SwarmVm.Word

/-!
# Assembler

An image is assembled by emitting instructions one after the other. Strings are numbered as they
come up, the builtin names keeping their own numbers, and an address that is not known yet is left
as a label and bound later.

## Main definitions

* `Assembler` — the strings and the code so far
* `Assembler.op`, `Assembler.opArg` — emit an instruction
* `Assembler.forward`, `Assembler.bind` — an address to be filled in
* `Assembler.image` — the finished image
-/

namespace SwarmVm

open Numeric

/-- An image in the making. -/
structure Assembler where
  /-- Strings that are not builtin names, in the order in which they came up. -/
  strings : Array String := #[]
  /-- The code so far. -/
  code : Array UInt8 := #[]
deriving DecidableEq, Repr

/-- An operand that is still to be filled in. -/
structure Label where
  /-- The offset of the operand. -/
  operand : Nat
deriving DecidableEq, Repr

namespace Assembler

/-- The address of the next instruction. -/
def offset (a : Assembler) : UInt16 := UInt16.ofNat a.code.size

/-- The number of a string, which joins the image unless it is known. -/
def string (a : Assembler) (s : String) : UInt16 × Assembler :=
  match Builtin.texts.findIdx? (· == s) with
  | some i => (UInt16.ofNat i, a)
  | none =>
    match a.strings.findIdx? (· == s) with
    | some i => (UInt16.ofNat (Builtin.total + i), a)
    | none =>
      (UInt16.ofNat (Builtin.total + a.strings.size), { a with strings := a.strings.push s })

/-- Emit an instruction without an operand. -/
def op (a : Assembler) (op : Opcode) : Assembler := { a with code := a.code.push op.byte }

/-- Emit an instruction with an operand. -/
def opArg (a : Assembler) (op : Opcode) (operand : UInt16) : Assembler :=
  { a with code := ((a.code.push op.byte).push (Word.low operand)).push (Word.high operand) }

/-- `nop`, which also ends the prologue. -/
def nop (a : Assembler) : Assembler := a.op .nop

/-- `done`. -/
def done (a : Assembler) : Assembler := a.op .done

/-- `pushnil`. -/
def pushNil (a : Assembler) : Assembler := a.op .pushNil

/-- `pushi` with an integer. -/
def pushInt (a : Assembler) (i : Int16) : Assembler := a.opArg .pushInt i.toUInt16

/-- `pushf` with the nearest half. -/
def pushFloat (a : Assembler) (x : Single) : Assembler := a.opArg .pushFloat (Half.narrow x).bits

/-- `pushs` with the number of a string. -/
def pushString (a : Assembler) (s : String) : Assembler :=
  let (id, a) := a.string s
  a.opArg .pushString id

/-- `pushcc` with a host function. -/
def pushHostClosure (a : Assembler) (id : UInt16) : Assembler := a.opArg .pushHost id

/-- `lload` of a local. -/
def loadLocal (a : Assembler) (i : UInt16) : Assembler := a.opArg .loadLocal i

/-- `lstore` to a local. -/
def storeLocal (a : Assembler) (i : UInt16) : Assembler := a.opArg .storeLocal i

/-- `pushs name`, the code of a value, `gstore`. -/
def storeGlobal (a : Assembler) (name : String) (value : Assembler → Assembler) : Assembler :=
  (value (a.pushString name)).op .storeGlobal

/-- `pushs name`, `gload`. -/
def loadGlobal (a : Assembler) (name : String) : Assembler :=
  (a.pushString name).op .loadGlobal

/-- `pushi argc`, the code of a closure, `callc`. The arguments are on the stack already, the last
one lowest. -/
def call (a : Assembler) (argc : Int16) (closure : Assembler → Assembler) : Assembler :=
  (closure (a.pushInt argc)).op .call

/-- Emit an instruction whose operand is bound later. -/
def forward (a : Assembler) (op : Opcode) : Label × Assembler :=
  (⟨a.code.size + 1⟩, a.opArg op 0)

/-- Bind a label to the current address. -/
def bind (a : Assembler) (l : Label) : UInt16 × Assembler :=
  let target := a.offset
  let code := (a.code.setIfInBounds l.operand (Word.low target)).setIfInBounds (l.operand + 1)
    (Word.high target)
  (target, { a with code })

/-- The finished image. -/
def image (a : Assembler) : Image := ⟨a.strings.toList, a.code⟩

end Assembler

end SwarmVm
