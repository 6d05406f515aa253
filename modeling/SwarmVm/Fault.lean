/-!
# Faults

A fault is what stops a script: the instruction that raised it is the one the machine stays on.
Every fault has a short name, by which it is reported, and a sentence.
-/

namespace SwarmVm

/-- What can stop a script. -/
inductive Fault where
  /-- A byte that is no instruction. -/
  | instruction
  /-- The operand stack ran empty or full. -/
  | stack
  /-- A local outside the activation record, or a wrong number of arguments. -/
  | localCount
  /-- An address outside the code. -/
  | programCounter
  /-- A host function that is not registered. -/
  | functionList
  /-- A value of the wrong kind. -/
  | type
  /-- A function that did not return once. -/
  | badReturn
  /-- A string that is not in the table. -/
  | string
  /-- A swarm outside the membership mask. -/
  | swarm
  /-- No room for another stigmergy key. -/
  | stigmergyFull
  /-- No room in the heap. -/
  | outOfMemory
  /-- An arithmetic operation without a value. -/
  | math
deriving DecidableEq, Repr

namespace Fault

/-- All faults, in the order of their numbers. -/
def all : List Fault :=
  [.instruction, .stack, .localCount, .programCounter, .functionList, .type, .badReturn, .string,
    .swarm, .stigmergyFull, .outOfMemory, .math]

/-- The number of a fault, counted from one. -/
def number (e : Fault) : Nat := e.ctorIdx + 1

/-- The short name of a fault. -/
def name : Fault → String
  | instruction => "INSTR"
  | stack => "STACK"
  | localCount => "LNUM"
  | programCounter => "PC"
  | functionList => "FLIST"
  | type => "TYPE"
  | badReturn => "RET"
  | string => "STRING"
  | swarm => "SWARM"
  | stigmergyFull => "VSTIG_FULL"
  | outOfMemory => "MEM"
  | math => "MATH"

/-- What a fault means. -/
def meaning : Fault → String
  | instruction => "unknown instruction"
  | stack => "stack underflow or overflow"
  | localCount => "wrong number of locals"
  | programCounter => "program counter out of range"
  | functionList => "unknown function id"
  | type => "type mismatch"
  | badReturn => "return value mismatch"
  | string => "unknown string id"
  | swarm => "unknown swarm id"
  | stigmergyFull => "virtual stigmergy is full"
  | outOfMemory => "out of memory"
  | math => "arithmetic error"

/-- The name of a fault in the summary of a machine. -/
def label : Fault → String
  | instruction => "Instruction"
  | stack => "Stack"
  | localCount => "LocalCount"
  | programCounter => "ProgramCounter"
  | functionList => "FunctionList"
  | type => "Type"
  | badReturn => "Return"
  | string => "String"
  | swarm => "Swarm"
  | stigmergyFull => "VstigFull"
  | outOfMemory => "OutOfMemory"
  | math => "Math"

/-- The text of a fault: its meaning, and its short name in brackets. -/
def message (e : Fault) : String := e.meaning ++ " (" ++ e.name ++ ")"

end Fault

/-- Why no machine could be made. -/
inductive SetupError where
  /-- The settings are refused. -/
  | settings (reason : String)
  /-- The machine's own objects do not fit in the heap. -/
  | outOfMemory
deriving DecidableEq, Repr

/-- The text of a setup error. -/
def SetupError.message : SetupError → String
  | settings reason => "invalid vm settings: " ++ reason
  | outOfMemory => "heap too small for the vm's own objects"

/-- A fault while the standard globals are bound, as a setup error. -/
def SetupError.ofFault : Fault → SetupError
  | .outOfMemory => .outOfMemory
  | _ => .settings "standard globals could not be registered"

/-- Why an image could not be attached. -/
inductive ImageError where
  /-- The image ends inside its string table. -/
  | truncated
  /-- A string of the table is not text. -/
  | invalidString
  /-- The code before the first `nop` faulted. -/
  | prologue (fault : Fault)
deriving DecidableEq, Repr

/-- The text of an image error. -/
def ImageError.message : ImageError → String
  | truncated => "bytecode image is truncated"
  | invalidString => "string table entry is not valid utf-8"
  | prologue fault => "prologue failed: " ++ fault.message

end SwarmVm
