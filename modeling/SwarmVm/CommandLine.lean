import SwarmVm.Image.Listing
import SwarmVm.Simulation
import SwarmVm.Text.ControlSequence

/-!
# Command line

```
run IMAGE [--robot N] [--ticks N] [--heap-size N] [--stack-size N]
sim IMAGE [--robots N] [--range N] [--ticks N] [--heap-size N] [--stack-size N]
```

Both take `--dump`, which prints a listing instead of running the image, and `-v` or `--verbose`,
which logs more; these two may also stand before the command. The value of an option follows it
as the next argument or after an equals sign, and may not start with a dash in the first case. No
option may be given twice. The command `help` takes the name of at most one command.

## Main definitions

* `CommandLine.parse` — arguments to an invocation
* `CommandLine.carryOut` — an invocation carried out
-/

namespace SwarmVm

namespace CommandLine

/-- The two commands. -/
inductive Command where
  /-- One robot. -/
  | run
  /-- A swarm of robots. -/
  | sim
deriving DecidableEq, Repr

/-- What the arguments ask for. Options that were not given are absent. -/
structure Invocation where
  /-- The command. -/
  command : Command
  /-- Path of the image. -/
  image : Option String := none
  /-- Print a listing. -/
  dump : Bool := false
  /-- Log more. -/
  verbose : Bool := false
  /-- The number of the robot. -/
  robot : Option Nat := none
  /-- How many robots. -/
  robots : Option Nat := none
  /-- How many places the radio reaches. -/
  range : Option Nat := none
  /-- How many control cycles. -/
  ticks : Option Nat := none
  /-- Bytes of the heap. -/
  heapSize : Option Nat := none
  /-- Depth of the operand stack. -/
  stackSize : Option Nat := none
deriving DecidableEq, Repr

/-- Why there is no invocation. -/
inductive Usage where
  /-- Help or the version was asked for. -/
  | asked
  /-- The arguments are wrong. -/
  | wrong
deriving DecidableEq, Repr

/-- The number written in digits. -/
def digits? (cs : List Char) : Option Nat :=
  if cs ≠ [] ∧ cs.all Char.isDigit then
    some (cs.foldl (fun n c => 10 * n + (c.toNat - '0'.toNat)) 0)
  else none

/-- A number below `bound`, with or without a plus sign. -/
def natural? (bound : Nat) (s : String) : Option Nat :=
  let cs := match s.toList with
    | '+' :: rest => rest
    | cs => cs
  (digits? cs).filter (· < bound)

/-- A number below `bound`; zero may also have a minus sign. -/
def number? (bound : Nat) (s : String) : Option Nat :=
  match s.toList with
  | '-' :: rest => (digits? rest).filter (· == 0)
  | _ => natural? bound s

/-- Set what was not set before. -/
def once {α : Type} (old : Option α) (value : Option α) : Except Usage (Option α) :=
  match old, value with
  | none, some v => .ok (some v)
  | _, _ => .error .wrong

/-- Set a flag that was not set before. -/
def flagOnce (old : Bool) : Except Usage Bool := if old then .error .wrong else .ok true

/-- The name of an option and its value after an equals sign, if there is one. -/
def splitEquals (cs : List Char) : List Char × Option (List Char) :=
  match cs.dropWhile (· != '=') with
  | _ :: value => (cs.takeWhile (· != '='), some value)
  | [] => (cs, none)

/-- Take the value of an option. Some options belong to one command only. -/
def setOption (i : Invocation) (name value : String) : Except Usage Invocation :=
  match name, i.command with
  | "robot", .run => do return { i with robot := ← once i.robot (number? 65536 value) }
  | "robots", .sim => do return { i with robots := ← once i.robots (number? 65536 value) }
  | "range", .sim => do return { i with range := ← once i.range (number? 65536 value) }
  | "ticks", _ => do return { i with ticks := ← once i.ticks (number? 4294967296 value) }
  | "heap-size", _ => do
    return { i with heapSize := ← once i.heapSize (natural? 18446744073709551616 value) }
  | "stack-size", _ => do
    return { i with stackSize := ← once i.stackSize (natural? 18446744073709551616 value) }
  | _, _ => .error .wrong

/-- Take one-letter flags that stand together. Only before the command, when it is still `early`,
do they ask for the version. -/
def setLetters (early verbose : Bool) : List Char → Except Usage Bool
  | [] => .ok verbose
  | 'v' :: rest => do setLetters early (← flagOnce verbose) rest
  | 'h' :: _ => .error .asked
  | 'V' :: _ => .error (if early then .asked else .wrong)
  | _ => .error .wrong

/-- Take the image. -/
def setImage (i : Invocation) (path : String) : Except Usage Invocation := do
  return { i with image := ← once i.image (if path = "" then none else some path) }

/-- The flags that a command line sets, each at most once on its level. -/
structure Flags where
  /-- Print a listing. -/
  dump : Bool := false
  /-- Log more. -/
  verbose : Bool := false
deriving DecidableEq, Repr

/-- The arguments behind a command, as far as they are read. -/
structure Reading where
  /-- What they ask for. -/
  invocation : Invocation
  /-- The flags among them. -/
  flags : Flags := {}
  /-- An option that still needs its value. -/
  awaiting : Option String := none
  /-- A double dash was read, so that what follows is no option. -/
  plain : Bool := false
deriving DecidableEq, Repr

/-- Read an option, whose name follows the double dash. -/
def readOption (r : Reading) (cs : List Char) : Except Usage Reading :=
  match splitEquals cs with
  | (name, some value) => do
    return { r with
      invocation := ← setOption r.invocation (String.ofList name) (String.ofList value) }
  | (name, none) =>
    match String.ofList name with
    | "dump" => do return { r with flags := { r.flags with dump := ← flagOnce r.flags.dump } }
    | "verbose" => do
      return { r with flags := { r.flags with verbose := ← flagOnce r.flags.verbose } }
    | "help" => .error .asked
    | name => .ok { r with awaiting := some name }

/-- Read one argument. -/
def readArgument (r : Reading) (arg : String) : Except Usage Reading :=
  match r.awaiting, r.plain, arg.toList with
  | some _, _, '-' :: _ => .error .wrong
  | some name, _, _ => do
    return { r with invocation := ← setOption r.invocation name arg, awaiting := none }
  | none, false, ['-', '-'] => .ok { r with plain := true }
  | none, false, '-' :: '-' :: cs => readOption r cs
  | none, false, '-' :: c :: cs => do
    let verbose ← setLetters false r.flags.verbose (c :: cs)
    return { r with flags := { r.flags with verbose } }
  | none, _, _ => do return { r with invocation := ← setImage r.invocation arg }

/-- Read the arguments of a command, which needs an image. -/
def parseArguments (command : Command) (outer : Flags) (args : List String) :
    Except Usage Invocation := do
  let r ← args.foldlM readArgument { invocation := { command } }
  if r.awaiting.isSome ∨ r.invocation.image.isNone then .error .wrong
  else return { r.invocation with
    dump := outer.dump || r.flags.dump
    verbose := outer.verbose || r.flags.verbose }

/-- What `help` and the arguments behind it ask for. -/
def helpUsage : List String → Usage
  | [] | ["run"] | ["sim"] | ["help"] => .asked
  | _ => .wrong

/-- Read what stands before the command, and then the rest. -/
def parseCommand (outer : Flags) : List String → Except Usage Invocation
  | [] => .error .wrong
  | arg :: rest =>
    match arg with
    | "run" => parseArguments .run outer rest
    | "sim" => parseArguments .sim outer rest
    | "--dump" => do parseCommand { outer with dump := ← flagOnce outer.dump } rest
    | "--verbose" => do parseCommand { outer with verbose := ← flagOnce outer.verbose } rest
    | "help" => .error (helpUsage rest)
    | "--help" | "--version" => .error .asked
    | _ =>
      match arg.toList with
      | '-' :: c :: cs => do
        parseCommand { outer with verbose := ← setLetters true outer.verbose (c :: cs) } rest
      | _ => .error .wrong

/-- Read the arguments. -/
def parse (args : List String) : Except Usage Invocation := parseCommand {} args

/-- What a run of the program leaves behind. -/
structure Result where
  /-- The exit code. -/
  code : UInt32
  /-- The text on standard output. -/
  output : String := ""
  /-- The text on standard error. -/
  errors : String := ""
deriving DecidableEq, Repr

/-- The settings of a robot. -/
def settings (i : Invocation) : Settings :=
  let d : Settings := {}
  { d with
    robot := UInt16.ofNat (i.robot.getD d.robot.toNat)
    heapSize := i.heapSize.getD d.heapSize
    stackSize := i.stackSize.getD d.stackSize }

/-- The exit code of a run. -/
def exitCode (ok : Bool) : UInt32 := if ok then 0 else 1

/-- A line of a log as it is written. After a line break inside it the text goes on four places
to the right, and control sequences are left out. -/
def writtenLine (line : String) : String :=
  Text.withoutControls ("\n    ".intercalate (line.splitOn "\n") ++ "\n")

/-- The lines of a log as they are written. -/
def writtenLines (lines : Array String) : String := String.join (lines.toList.map writtenLine)

/-- Run one robot. -/
def runSingle (i : Invocation) (level : Level) (image : List UInt8) : Result :=
  let robot := Robot.boot level (settings i) image
  let robot := { robot with machine := robot.machine.map (Robot.soloCycles (i.ticks.getD 100)) }
  { code := exitCode robot.succeeded, errors := writtenLines robot.finalLines }

/-- Run a swarm. -/
def runSwarm (i : Invocation) (level : Level) (image : List UInt8) : Result :=
  let swarm := Simulation.boot level (settings i) image (i.robots.getD 4) (i.range.getD 1)
  let swarm := swarm.ticks (i.ticks.getD 100)
  { code := exitCode swarm.succeeded, errors := writtenLines swarm.finalLines }

/-- Print the listing of an image. -/
def dump (path : String) (image : List UInt8) : Result :=
  match Image.parse image with
  | .ok image => { code := 0, output := Listing.render image }
  | .error e =>
    { code := 1, errors := "Error decoding image '" ++ path ++ "': " ++ e.message ++ "\n" }

/-- Why a file cannot be read. -/
inductive FileError where
  /-- No file has the name. -/
  | notFound
  /-- Reading is not allowed. -/
  | denied
  /-- What stands before a slash is a file. -/
  | notADirectory
  /-- The name is that of a directory. -/
  | isADirectory
  /-- The path, or a name in it, is too long. -/
  | nameTooLong
  /-- Another error of the operating system. -/
  | other (number : Nat) (text : String)
deriving DecidableEq, Repr

namespace FileError

/-- The number by which the operating system knows an error. -/
def number : FileError → Nat
  | notFound => 2
  | denied => 13
  | notADirectory => 20
  | isADirectory => 21
  | nameTooLong => 36
  | other number _ => number

/-- The name of an error. -/
def text : FileError → String
  | notFound => "No such file or directory"
  | denied => "Permission denied"
  | notADirectory => "Not a directory"
  | isADirectory => "Is a directory"
  | nameTooLong => "File name too long"
  | other _ text => text

/-- The wording of an error. -/
def message (e : FileError) : String :=
  e.text ++ " (os error " ++ Text.decimal e.number ++ ")"

/-- The error with a number; `text` is the name of one that is not among those above. -/
def ofNumber (number : Nat) (text : String) : FileError :=
  ([notFound, denied, notADirectory, isADirectory, nameTooLong].find? (·.number == number)).getD
    (.other number text)

end FileError

/-- Carry an invocation out on the bytes of its image, or on the reason why it cannot be read. -/
def carryOut (i : Invocation) (file : Except FileError (List UInt8)) : Result :=
  let path := i.image.getD ""
  match file with
  | .error e =>
    { code := 1, errors := "Error reading image '" ++ path ++ "': " ++ e.message ++ "\n" }
  | .ok image =>
    if i.dump then dump path image
    else
      let level := if i.verbose then Level.debug else .info
      match i.command with
      | .run => runSingle i level image
      | .sim => runSwarm i level image

/-- What the program does without an invocation. -/
def refuse : Usage → Result
  | .asked => { code := 0 }
  | .wrong => { code := 2 }

end CommandLine

end SwarmVm
