import SwarmVm.Machine.Boot
import SwarmVm.Radio

/-!
# Robots

A robot boots a script, runs it to its end and calls its `init`. After that it goes through
control cycles: handle what was received, call `step`, and send. The embedder here is the command
line, so a robot also keeps the lines it writes.

## Main definitions

* `Robot.boot` — a robot with a script
* `Robot.soloCycle` — a control cycle of a robot that nobody hears
* `Robot.cycle` — a control cycle of a robot among others
-/

namespace SwarmVm

/-- A robot, or what is left of one that did not boot. -/
structure Robot where
  /-- The machine, if the robot booted. -/
  machine : Option (Machine Empty)
  /-- Lines written by a robot that has no machine. -/
  lines : Array String := #[]

namespace Robot

/-- More instructions than a control cycle is expected to take. -/
def fuel : Nat := 1000000000000000

/-- The machine after an operation, whether it succeeds or not. -/
def after {α : Type} (x : Action Empty α) (m : Machine Empty) : Machine Empty :=
  match x m with
  | .ok _ m => m
  | .error _ m => m

/-- The global bound to a name is a function. -/
def isDefined (name : Builtin) : Action Empty Bool := do
  match ← Machine.attempt (Machine.global name.nameId) with
  | .ok r => return (← get).heap.kind r = .closure
  | .error _ => return false

/-- Call a global function if the script defines it. A fault is reported by the machine. -/
def callIfDefined (name : Builtin) : Action Empty Unit := do
  if ← isDefined name then
    let _ ← Machine.attempt (Machine.functionCall fuel name.nameId [])

/-- The machine is not in the error state. -/
def isAlive (m : Machine Empty) : Bool := m.state != .error

/-- The line by which a robot that does not boot says why. -/
def complaint (robot : RobotId) (reason : String) : String :=
  "robot " ++ Text.decimal robot.toNat ++ ": " ++ reason

/-- Attach the script, run it to its end and call its `init`. -/
def start (m : Machine Empty) (image : List UInt8) : Robot :=
  match Machine.load fuel image m with
  | .ok (.error e) m => ⟨none, m.log.lines.push (complaint m.robot e.message)⟩
  | .error _ m => ⟨none, m.log.lines⟩
  | .ok (.ok _) m =>
    let m := after (Machine.run fuel) m
    if isAlive m then
      let m := after (callIfDefined .init) m
      if isAlive m then ⟨some m, #[]⟩ else ⟨none, m.log.lines⟩
    else ⟨none, m.log.lines⟩

/-- A robot with the given settings and script. -/
def boot (level : Level) (s : Settings) (image : List UInt8) : Robot :=
  match Machine.make s with
  | .error e => ⟨none, #[complaint s.robot e.message]⟩
  | .ok m => start { m with log := { level } } image

/-- Say how the robot ended. -/
def report (m : Machine Empty) : Machine Empty :=
  let s := m.heap.stats
  { m with log :=
    m.log.add (.finished m.robot m.state.label s.objects s.segments s.freeBytes) }

/-- Handle what was received, then call `step`. -/
def think : Action Empty Unit := do
  Machine.processInbox fuel
  callIfDefined .step

/-- A control cycle of a robot that nobody hears. -/
def soloCycle (m : Machine Empty) : Machine Empty :=
  let m := after think m
  if isAlive m then
    let m := after Machine.processOutbox m
    { m with outbox := m.outbox.clear }
  else m

/-- Control cycles until the robot fails, at most `n`. -/
def soloCycles : Nat → Machine Empty → Machine Empty
  | 0, m => m
  | n + 1, m =>
    let m := soloCycle m
    if isAlive m then soloCycles n m else m

/-- Put a payload in the inbox. One that finds no room is only logged. -/
def hear (payload : Payload) : Action Empty Unit := do
  match ← Machine.attempt (Machine.receive payload) with
  | .ok _ => pure ()
  | .error _ => Machine.emit (.noMemory (← get).robot)

/-- A control cycle of a robot among others: what it sees and hears goes in, and what it sends
comes out. -/
def cycle (seen : List Sighting) (heard : List Payload) (m : Machine Empty) :
    List Payload × Machine Empty :=
  let m := after (do
    Machine.resetNeighbors
    seen.forM fun s => discard (Machine.addNeighbor s)
    heard.forM hear
    think
    Machine.processOutbox) m
  (m.outbox.encoded.filterMap id, { m with outbox := m.outbox.clear })

/-- The robot booted and did not fail. -/
def succeeded (r : Robot) : Bool := r.machine.any isAlive

/-- The lines that the robot wrote, with its report if it booted. -/
def finalLines (r : Robot) : Array String :=
  match r.machine with
  | some m => (report m).log.lines
  | none => r.lines

end Robot

end SwarmVm
