/-!
# Opcodes

An instruction is one opcode byte. Opcodes from `pushf` on carry an operand of two more bytes, the
low one first.
-/

namespace SwarmVm

/-- The operations of the machine, in the order of their bytes. -/
inductive Opcode where
  | nop | done | pushNil | dup | pop | ret0 | ret1
  | add | sub | mul | div | mod | pow | unm
  | logicAnd | logicOr | logicNot
  | bitAnd | bitOr | bitNot | shiftLeft | shiftRight
  | eq | neq | gt | gte | lt | lte
  | loadGlobal | storeGlobal
  | pushTable | putField | getField | call
  | pushFloat | pushInt | pushString | pushCode | pushHost | pushLambda
  | loadLocal | storeLocal
  | jump | jumpIfFalse | jumpIfTrue
deriving DecidableEq, Repr

namespace Opcode

/-- All opcodes, in the order of their bytes. -/
def all : List Opcode :=
  [nop, done, pushNil, dup, pop, ret0, ret1, add, sub, mul, div, mod, pow, unm,
    logicAnd, logicOr, logicNot, bitAnd, bitOr, bitNot, shiftLeft, shiftRight,
    eq, neq, gt, gte, lt, lte, loadGlobal, storeGlobal, pushTable, putField, getField, call,
    pushFloat, pushInt, pushString, pushCode, pushHost, pushLambda, loadLocal, storeLocal,
    jump, jumpIfFalse, jumpIfTrue]

/-- The number of an opcode. -/
def number (op : Opcode) : Nat := op.ctorIdx

/-- The byte of an opcode. -/
def byte (op : Opcode) : UInt8 := UInt8.ofNat op.number

/-- The table by which bytes are decoded. -/
def table : Array Opcode := all.toArray

/-- The opcode of a byte. -/
def ofByte? (b : UInt8) : Option Opcode := table[b.toNat]?

/-- The opcode carries an operand. -/
def hasOperand (op : Opcode) : Bool := pushFloat.number ≤ op.number

/-- Bytes of an instruction, operand included. -/
def width (op : Opcode) : Nat := if op.hasOperand then 3 else 1

/-- The name of an opcode in listings. -/
def mnemonic : Opcode → String
  | nop => "nop"
  | done => "done"
  | pushNil => "pushnil"
  | dup => "dup"
  | pop => "pop"
  | ret0 => "ret0"
  | ret1 => "ret1"
  | add => "add"
  | sub => "sub"
  | mul => "mul"
  | div => "div"
  | mod => "mod"
  | pow => "pow"
  | unm => "unm"
  | logicAnd => "and"
  | logicOr => "or"
  | logicNot => "not"
  | bitAnd => "band"
  | bitOr => "bor"
  | bitNot => "bnot"
  | shiftLeft => "lshift"
  | shiftRight => "rshift"
  | eq => "eq"
  | neq => "neq"
  | gt => "gt"
  | gte => "gte"
  | lt => "lt"
  | lte => "lte"
  | loadGlobal => "gload"
  | storeGlobal => "gstore"
  | pushTable => "pusht"
  | putField => "tput"
  | getField => "tget"
  | call => "callc"
  | pushFloat => "pushf"
  | pushInt => "pushi"
  | pushString => "pushs"
  | pushCode => "pushcn"
  | pushHost => "pushcc"
  | pushLambda => "pushl"
  | loadLocal => "lload"
  | storeLocal => "lstore"
  | jump => "jump"
  | jumpIfFalse => "jumpz"
  | jumpIfTrue => "jumpnz"

end Opcode

end SwarmVm
