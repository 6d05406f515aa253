import SwarmVm.Heap.Header
import SwarmVm.Message
import SwarmVm.Word

/-!
# Wire format

A message is sent as a tag byte, the robot, and the fields of its family, every word with its high
byte first:

```
broadcast   tag robot robot topic topic kind value value
stigmergy   tag robot robot key   key   kind value value clock
swarm       tag robot robot clock clock swarms
```

A payload is three bytes: its kind, with a flag for host functions, and one word. Tables and words
of the embedder have no such form, and a closure leaves its captured record behind.

## Main definitions

* `Wire.encodeValue?`, `Wire.decodeValue?` — payloads
* `Wire.encode?`, `Wire.decode?` — messages
* `Wire.writeInto?`, `Wire.writeInto` — a message written to the front of a buffer
-/

namespace SwarmVm

namespace Wire

/-- The length of the longest message. -/
def maxLength : Nat := 9

/-- A word with its high byte first. -/
def word (w : UInt16) : List UInt8 := [Word.high w, Word.low w]

/-- Kind byte and word of a payload. -/
def encodeValue? : Value → Option (List UInt8)
  | .nil => some (flat .nil false 0)
  | .int i => some (flat .int false i.toUInt16)
  | .float x => some (flat .float false x.bits)
  | .string id => some (flat .string false id)
  | .closure ⟨.code address, _⟩ => some (flat .closure false address)
  | .closure ⟨.host id, _⟩ => some (flat .closure true id)
  | .table _ => none
  | .userdata _ => none
where
  /-- The three bytes of a payload. -/
  flat (kind : Kind) (host : Bool) (w : UInt16) : List UInt8 :=
    Header.toByte { tag := kind.tag, flagA := host } :: word w

/-- Read a payload from its three bytes. -/
def decodeValue (kind high low : UInt8) : Option Value :=
  let header := Header.ofByte kind
  let w := Word.ofBytes low high
  match header.kind? with
  | some .nil => some .nil
  | some .int => some (.int w.toInt16)
  | some .float => some (.float ⟨w⟩)
  | some .string => some (.string w)
  | some .closure =>
    some (.closure (if header.flagA then Closure.ofHost w else Closure.ofCode w))
  | some .table | some .userdata | none => none

/-- Read a payload from the front of a byte string. -/
def decodeValue? : List UInt8 → Option Value
  | kind :: high :: low :: _ => decodeValue kind high low
  | _ => none

/-- The bytes of a message, `none` when its payload has no flat form. -/
def encode? (m : Message Value) : Option (List UInt8) :=
  let tag := UInt8.ofNat m.kind.tag
  match m with
  | .broadcast robot topic value =>
    (encodeValue? value).map fun flat => tag :: word robot ++ word topic ++ flat
  | .stigmergy _ robot key value clock =>
    (encodeValue? value).map fun flat => tag :: word robot ++ word key ++ flat ++ [clock]
  | .swarm _ robot clock swarms => some (tag :: word robot ++ word clock ++ [swarms])

/-- Read the fields of a message of a known kind. -/
def decodeFields? (kind : MessageKind) : List UInt8 → Option (Message Value)
  | r1 :: r0 :: w1 :: w0 :: rest =>
    let robot := Word.ofBytes r0 r1
    let w := Word.ofBytes w0 w1
    match kind, rest with
    | .broadcast, k :: v1 :: v0 :: _ => (decodeValue k v1 v0).map (.broadcast robot w)
    | .stigmergyPut, k :: v1 :: v0 :: clock :: _ =>
      (decodeValue k v1 v0).map (.stigmergy .put robot w · clock)
    | .stigmergyQuery, k :: v1 :: v0 :: clock :: _ =>
      (decodeValue k v1 v0).map (.stigmergy .query robot w · clock)
    | .swarmList, swarms :: _ => some (.swarm .list robot w swarms)
    | .swarmJoin, swarms :: _ => some (.swarm .join robot w swarms)
    | .swarmLeave, swarms :: _ => some (.swarm .leave robot w swarms)
    | _, _ => none
  | _ => none

/-- Read a message from the front of a byte string; bytes after it are not looked at. -/
def decode? : List UInt8 → Option (Message Value)
  | tag :: rest => (MessageKind.ofTag? tag.toNat).bind (decodeFields? · rest)
  | [] => none

/-- Write a message to the front of a buffer. Answers its length and the buffer afterwards, or
`none` when the message has no bytes or does not fit; then the buffer stays as it is. -/
def writeInto? (m : Message Value) (buffer : List UInt8) : Option (Nat × List UInt8) :=
  match encode? m with
  | some bytes =>
    if bytes.length ≤ buffer.length then
      some (bytes.length, bytes ++ buffer.drop bytes.length)
    else none
  | none => none

/-- Write a message to the front of a buffer. Answers its length if it was written, and the buffer
afterwards in either case. -/
def writeInto (m : Message Value) (buffer : List UInt8) : Option Nat × List UInt8 :=
  match writeInto? m buffer with
  | some (length, written) => (some length, written)
  | none => (none, buffer)

end Wire

end SwarmVm
