import SwarmVm.Value

/-!
# Messages

Robots exchange three families of messages: broadcasts on a topic, stigmergy updates and queries,
and announcements of swarm membership. The payload is a parameter, because a message on its way
out carries a value, and one waiting to be handled carries a heap index.
-/

namespace SwarmVm

/-- The kinds of message. Kinds that come earlier are sent first. -/
inductive MessageKind where
  | broadcast | swarmList | stigmergyPut | stigmergyQuery | swarmJoin | swarmLeave
deriving DecidableEq, Repr

namespace MessageKind

/-- The kinds in the order of their tags. -/
def all : List MessageKind :=
  [broadcast, swarmList, stigmergyPut, stigmergyQuery, swarmJoin, swarmLeave]

/-- The tag of a kind, which is also its rank. -/
def tag (k : MessageKind) : Nat := k.ctorIdx

/-- The kind with a tag. -/
def ofTag? (tag : Nat) : Option MessageKind := all[tag]?

/-- The name of a kind in log lines. -/
def name : MessageKind → String
  | broadcast => "Broadcast"
  | swarmList => "SwarmList"
  | stigmergyPut => "VstigPut"
  | stigmergyQuery => "VstigQuery"
  | swarmJoin => "SwarmJoin"
  | swarmLeave => "SwarmLeave"

end MessageKind

/-- What a stigmergy message asks for. -/
inductive StigmergyOp where
  /-- Take this entry. -/
  | put
  /-- Answer if there is a newer entry. -/
  | query
deriving DecidableEq, Repr

/-- What a swarm message announces. -/
inductive SwarmOp where
  /-- The whole membership mask. -/
  | list
  /-- Swarms joined. -/
  | join
  /-- Swarms left. -/
  | leave
deriving DecidableEq, Repr

/-- A message with a payload of type `α`. -/
inductive Message (α : Type) where
  /-- A value on a topic. -/
  | broadcast (robot : RobotId) (topic : NameId) (value : α)
  /-- A stigmergy entry: its owner, which need not be the sender, key, value and clock. -/
  | stigmergy (op : StigmergyOp) (robot : RobotId) (key : NameId) (value : α) (clock : UInt8)
  /-- A change of swarm membership, or the whole of it. -/
  | swarm (op : SwarmOp) (robot : RobotId) (clock : UInt16) (swarms : UInt8)
deriving DecidableEq, Repr

namespace Message

variable {α β : Type}

/-- The kind of a message. -/
def kind : Message α → MessageKind
  | broadcast .. => .broadcast
  | stigmergy .put .. => .stigmergyPut
  | stigmergy .query .. => .stigmergyQuery
  | swarm .list .. => .swarmList
  | swarm .join .. => .swarmJoin
  | swarm .leave .. => .swarmLeave

/-- The payload, which swarm messages do not have. -/
def payload? : Message α → Option α
  | broadcast _ _ value => some value
  | stigmergy _ _ _ value _ => some value
  | swarm .. => none

/-- The message with its payload replaced. -/
def withPayload (value : β) : Message α → Message β
  | broadcast robot topic _ => .broadcast robot topic value
  | stigmergy op robot key _ clock => .stigmergy op robot key value clock
  | swarm op robot clock swarms => .swarm op robot clock swarms

end Message

end SwarmVm
