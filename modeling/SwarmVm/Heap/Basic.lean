import SwarmVm.Heap.Header
import SwarmVm.Word

/-!
# The heap and its objects

The heap is a fixed row of bytes. Objects take five bytes each and grow from the left edge; table
segments take twenty-two and grow from the right edge. Both are addressed by index, never by
position, so that moving the edges leaves every index as it was.

```
0               objectEnd        segmentStart              size
| 0   1   2     |   free space   |          2     1     0 |
```

An object is its header byte followed by two words, low byte first. Reading and writing are total:
a byte outside the row reads as zero and is not written.

## Main definitions

* `Heap`, `HeapM` — the store, and operations on it that may run out of room
* `Heap.value`, `Heap.setValue` — one object, decoded and encoded
* `Heap.allocSlot`, `Heap.allocValue`, `Heap.copy` — new objects
* `Heap.compare` — the order of two objects
-/

namespace SwarmVm

/-- The fixed row of bytes that holds all objects and segments. -/
structure Heap where
  /-- The row. -/
  bytes : Array UInt8
  /-- Offset behind the last object slot. -/
  objectEnd : Nat
  /-- Offset of the leftmost segment slot. -/
  segmentStart : Nat
deriving DecidableEq, Repr

/-- There is no room for another object or segment. -/
inductive OutOfMemory where
  | heapExhausted
deriving DecidableEq, Repr

/-- The text of a failed allocation. -/
def OutOfMemory.message (_ : OutOfMemory) : String := "heap exhausted"

/-- An operation on the heap that may run out of room. What it did before it failed stays done. -/
abbrev HeapM (α : Type) := EStateM OutOfMemory Heap α

namespace Heap

/-- Bytes of an object. -/
def objectSize : Nat := 5

/-- Key and value pairs of a segment. -/
def pairsPerSegment : Nat := 5

/-- Element slots of a segment. -/
def slotsPerSegment : Nat := 2 * pairsPerSegment

/-- Bytes of a segment: its element slots and one word for the link. -/
def segmentSize : Nat := 2 * slotsPerSegment + 2

/-- The link of a segment that is the last of its chain. -/
def noNext : SegRef := 0x3FFF

/-- The number of element indices that fit in a slot. -/
def elementRange : Nat := 32768

/-- Why a heap size is refused, `none` when it is accepted. -/
def refusal? (size : Nat) : Option String :=
  if size < 64 then some "heap size must be at least 64 bytes"
  else if 65535 < size then some "heap size must be addressable with 16 bits"
  else if elementRange - 1 < size / objectSize then
    some "too many object slots for element encoding"
  else if noNext.toNat ≤ size / segmentSize then some "too many segment slots for link encoding"
  else none

/-- An empty heap of the given size. -/
def make (size : Nat) : Heap := ⟨Array.replicate size 0, 0, size⟩

/-- The size of the row. -/
def size (h : Heap) : Nat := h.bytes.size

/-- The heap with everything dropped. -/
def clear (h : Heap) : Heap := make h.size

/-- The number of object slots, free ones included. -/
def objectSlots (h : Heap) : Nat := h.objectEnd / objectSize

/-- The number of segment slots, free ones included. -/
def segmentSlots (h : Heap) : Nat := (h.size - h.segmentStart) / segmentSize

/-- The room between objects and segments. -/
def freeBytes (h : Heap) : Nat := h.segmentStart - h.objectEnd

/-! ### Bytes and words -/

/-- The byte at an offset. -/
@[inline] def byte (h : Heap) (offset : Nat) : UInt8 := h.bytes.getD offset 0

/-- Write a byte. -/
def setByte (h : Heap) (offset : Nat) (b : UInt8) : Heap :=
  { h with bytes := h.bytes.setIfInBounds offset b }

/-- The word at an offset. -/
@[inline] def word (h : Heap) (offset : Nat) : UInt16 :=
  Word.ofBytes (h.byte offset) (h.byte (offset + 1))

/-- Write a word. -/
def setWord (h : Heap) (offset : Nat) (w : UInt16) : Heap :=
  (h.setByte offset (Word.low w)).setByte (offset + 1) (Word.high w)

/-! ### Objects -/

/-- The offset of an object. -/
def objectOffset (r : Ref) : Nat := r.toNat * objectSize

/-- The header of an object; an index past the slots has that of a free one. -/
@[inline] def header (h : Heap) (r : Ref) : Header :=
  if r.toNat < h.objectSlots then Header.ofByte (h.byte (objectOffset r)) else Header.free

/-- Write the header of an object. -/
def setHeader (h : Heap) (r : Ref) (header : Header) : Heap :=
  h.setByte (objectOffset r) header.toByte

/-- The slot holds an object. -/
@[inline] def isValid (h : Heap) (r : Ref) : Bool := (h.header r).valid

/-- The kind of an object, nil for a free slot. -/
@[inline] def kind (h : Heap) (r : Ref) : Kind := (h.header r).kind

/-- The value of an object, nil for a free slot. -/
def value (h : Heap) (r : Ref) : Value :=
  let header := h.header r
  if header.valid then
    Value.unpack header (h.word (objectOffset r + 1)) (h.word (objectOffset r + 3))
  else .nil

/-- Replace the value of an object; whether it is valid, permanent and marked stays. -/
def setValue (h : Heap) (r : Ref) (v : Value) : Heap :=
  let old := h.header r
  let packed := v.pack
  let header := { packed.header with
    valid := old.valid, permanent := old.permanent, mark := old.mark }
  ((h.setHeader r header).setWord (objectOffset r + 1) packed.word).setWord
    (objectOffset r + 3) packed.aux

/-- Give the slot free. -/
def invalidate (h : Heap) (r : Ref) : Heap :=
  if r.toNat < h.objectSlots then h.setHeader r Header.free else h

/-- Change whether an object is permanent; free slots stay as they are. -/
def setPermanent (h : Heap) (r : Ref) (permanent : Bool) : Heap :=
  if h.isValid r then h.setHeader r { h.header r with permanent } else h

/-- Make an object a root of every collection. -/
def makePermanent (h : Heap) (r : Ref) : Heap := h.setPermanent r true

/-- Let an object be collected again. -/
def clearPermanent (h : Heap) (r : Ref) : Heap := h.setPermanent r false

/-- Change flag `a` of a header. -/
def setFlagA (h : Heap) (r : Ref) (flagA : Bool) : Heap :=
  h.setHeader r { h.header r with flagA }

/-- Change flag `b` of a header. -/
def setFlagB (h : Heap) (r : Ref) (flagB : Bool) : Heap :=
  h.setHeader r { h.header r with flagB }

/-- The first free object slot. -/
def freeSlot? (h : Heap) : Option Nat :=
  (List.range h.objectSlots).find? fun i => !h.isValid (UInt16.ofNat i)

/-- Turn a slot into a fresh nil object. -/
def initObject (h : Heap) (r : Ref) : Heap :=
  ((h.setHeader r Header.fresh).setWord (objectOffset r + 1) 0).setWord (objectOffset r + 3) 0

/-- A fresh nil object, in the first free slot or, when there is none, in a new one at the edge. -/
def allocSlot : HeapM Ref := fun h =>
  match h.freeSlot? with
  | some i => .ok (UInt16.ofNat i) (h.initObject (UInt16.ofNat i))
  | none =>
    if h.objectEnd + objectSize ≤ h.segmentStart then
      let r := UInt16.ofNat h.objectSlots
      let h := { h with objectEnd := h.objectEnd + objectSize }
      .ok r (h.initObject r)
    else .error .heapExhausted h

/-- A new object with the given value. -/
def allocValue (v : Value) : HeapM Ref := do
  let r ← allocSlot
  modify (·.setValue r v)
  return r

/-- A new object with the value of another. Tables are shared, so they answer their own index. -/
def copy (r : Ref) : HeapM Ref := do
  match (← get).value r with
  | .table _ => return r
  | v => allocValue v

/-- The order of two objects. An object is equal to itself, whatever its kind. -/
def compare (h : Heap) (a b : Ref) : Ordering :=
  if a = b then .eq else (h.value a).order (h.value b)

end Heap

end SwarmVm
