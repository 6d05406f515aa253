import SwarmVm.Fault
import SwarmVm.Image.Opcode
import SwarmVm.Message
import SwarmVm.Text.Digits

/-!
# Log

What is worth telling is an event; its level and its wording are decided here and nowhere else. A
log keeps the lines of the events that its level lets through.
-/

namespace SwarmVm

/-- How urgent a line is. -/
inductive Level where
  | warn | info | debug | trace
deriving DecidableEq, Repr

/-- The name of a level at the head of its lines. -/
def Level.name : Level → String
  | warn => "WARN"
  | info => "INFO"
  | debug => "DEBUG"
  | trace => "TRACE"

/-- A log at level `max` keeps lines of level `l`. -/
def Level.admits (max l : Level) : Bool := l.ctorIdx ≤ max.ctorIdx

/-- What can be logged. -/
inductive Event where
  /-- A fault was reported. -/
  | faulted (fault : Fault)
  /-- A payload that is no message arrived. -/
  | malformed (length : Nat)
  /-- A broadcast came on a topic that is no known string. -/
  | unknownTopic (robot : RobotId) (topic : NameId)
  /-- A received message found no room in the heap. -/
  | noMemory (robot : RobotId)
  /-- A script wrote a line. -/
  | said (robot : RobotId) (text : String)
  /-- How a robot ended. -/
  | finished (robot : RobotId) (state : String) (objects segments free : Nat)
  /-- An image was attached. -/
  | attached (codeBytes strings : Nat)
  /-- A robot announced other swarms than before. -/
  | swarmsChanged (robot : RobotId) (before after : UInt8)
  /-- Two stigmergy updates met. -/
  | conflict (key : NameId) (here there winner : RobotId)
  /-- The swarm list has no room for a robot. -/
  | swarmListFull (robot : RobotId)
  /-- The stigmergy store has no room for a key. -/
  | stigmergyFull (key : NameId)
  /-- A full outbox lost a message. -/
  | messageDropped (kind : MessageKind)
  /-- A collection ended. -/
  | collected (objects segments free : Nat)
  /-- An instruction is about to be executed. -/
  | fetched (pc : UInt16) (op : Opcode)
deriving DecidableEq, Repr

namespace Event

/-- The level of an event. -/
def level : Event → Level
  | faulted .. | malformed .. | unknownTopic .. | noMemory .. => .warn
  | said .. | finished .. => .info
  | attached .. | swarmsChanged .. | conflict .. => .debug
  | swarmListFull .. | stigmergyFull .. | messageDropped .. | collected .. | fetched .. => .trace

/-- The numeral of a word. -/
def num (w : UInt16) : String := Text.decimal w.toNat

/-- A membership mask, one binary digit for each swarm. -/
def mask (m : UInt8) : String := "0b" ++ Text.binary 8 m.toNat

/-- The wording of an event. -/
def text : Event → String
  | faulted fault => "vm entered error state: " ++ fault.message
  | malformed length => "dropping malformed message of " ++ Text.decimal length ++ " bytes"
  | unknownTopic robot topic =>
    "dropping broadcast from robot " ++ num robot ++ ": unknown topic " ++ num topic
  | noMemory robot => "robot " ++ num robot ++ ": no memory for incoming message"
  | said robot text => "[robot " ++ num robot ++ "] " ++ text
  | finished robot state objects segments free =>
    "robot " ++ num robot ++ ": " ++ state ++ ", " ++ Text.decimal objects ++ " objects, "
      ++ Text.decimal segments ++ " segments, " ++ Text.decimal free ++ " bytes free"
  | attached codeBytes strings =>
    "attached bytecode: " ++ Text.decimal codeBytes ++ " code bytes, " ++ Text.decimal strings
      ++ " strings"
  | swarmsChanged robot before after =>
    "robot " ++ num robot ++ " swarms changed: " ++ mask before ++ " -> " ++ mask after
  | conflict key here there winner =>
    "stigmergy conflict on key " ++ num key ++ ": robot " ++ num here ++ " vs robot " ++ num there
      ++ ", robot " ++ num winner ++ " wins"
  | swarmListFull robot => "swarm list full, dropping robot " ++ num robot
  | stigmergyFull key => "stigmergy full, dropping key " ++ num key
  | messageDropped kind => "outgoing queue full, dropped " ++ kind.name
  | collected objects segments free =>
    "gc: freed " ++ Text.decimal objects ++ " objects, " ++ Text.decimal segments
      ++ " segments, " ++ Text.decimal free ++ " bytes free"
  | fetched pc op => Text.hex 4 pc.toNat ++ " " ++ op.mnemonic

/-- The line of an event: its level and its wording. -/
def line (e : Event) : String := e.level.name ++ " " ++ e.text

end Event

/-- The lines written so far, and the level up to which they are kept. -/
structure Log where
  /-- Lines above this level are not kept. -/
  level : Level := .info
  /-- The lines, oldest first. -/
  lines : Array String := #[]
deriving DecidableEq, Repr

namespace Log

/-- Write the line of an event, if the level lets it through. -/
def add (log : Log) (e : Event) : Log :=
  if log.level.admits e.level then { log with lines := log.lines.push e.line } else log

/-- Write the lines of several events. -/
def addAll (log : Log) (es : List Event) : Log := es.foldl add log

end Log

end SwarmVm
