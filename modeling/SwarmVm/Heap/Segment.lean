import SwarmVm.Heap.Basic

/-!
# Segments and chains

A segment is ten element slots and a link. A slot is a word: the index of an object, with the top
bit saying that the slot is occupied. The link is a word as well: the next segment of the chain in
its low fourteen bits, above them a mark and the bit that says the segment is in use.

Tables and arrays are chains of segments. A chain is read by following links until `noNext`; the
number of links followed is bounded by the number of segments there are.

## Main definitions

* `Heap.element?`, `Heap.setElement` — one element slot
* `Heap.link`, `Heap.setNext` — the link of a segment
* `Heap.allocSegment`, `Heap.freeSegment` — segments taken and given back
* `Heap.chain`, `Heap.isIntact` — the segments of a table, and whether they are all there
-/

namespace SwarmVm

/-- The link word of a segment, taken apart. -/
structure Link where
  /-- The segment is in use. -/
  valid : Bool := false
  /-- The last collection reached the segment. -/
  mark : Bool := false
  /-- The next segment of the chain. -/
  next : SegRef := 0
deriving DecidableEq, Repr

namespace Link

/-- Links are counted modulo this. -/
def range : Nat := 16384

/-- The link with the given word. -/
@[inline] def ofWord (w : UInt16) : Link where
  valid := w.toNat / (2 * range) == 1
  mark := w.toNat / range % 2 == 1
  next := UInt16.ofNat (w.toNat % range)

/-- The word of a link. -/
def toWord (l : Link) : UInt16 :=
  UInt16.ofNat (l.next.toNat % range + range * l.mark.toNat + 2 * range * l.valid.toNat)

end Link

namespace Heap

/-- The offset of a segment. -/
def segmentOffset (h : Heap) (s : SegRef) : Nat := h.size - (s.toNat + 1) * segmentSize

/-- The offset of an element slot. -/
def slotOffset (h : Heap) (s : SegRef) (slot : Nat) : Nat := h.segmentOffset s + 2 * slot

/-- The offset of the link of a segment. -/
def linkOffset (h : Heap) (s : SegRef) : Nat := h.slotOffset s slotsPerSegment

/-- The link of a segment; an index past the slots has that of a free one. -/
@[inline] def link (h : Heap) (s : SegRef) : Link :=
  if s.toNat < h.segmentSlots then Link.ofWord (h.word (h.linkOffset s)) else {}

/-- Write the link of a segment. -/
def setLink (h : Heap) (s : SegRef) (l : Link) : Heap := h.setWord (h.linkOffset s) l.toWord

/-- The segment is in use. -/
@[inline] def segmentIsValid (h : Heap) (s : SegRef) : Bool := (h.link s).valid

/-- The next segment of a chain. -/
@[inline] def next (h : Heap) (s : SegRef) : SegRef := (h.link s).next

/-- Point a segment at the next of its chain. -/
def setNext (h : Heap) (s next : SegRef) : Heap := h.setLink s { h.link s with next }

/-- The object in an element slot. -/
def element? (h : Heap) (s : SegRef) (slot : Nat) : Option Ref :=
  let w := (h.word (h.slotOffset s slot)).toNat
  if elementRange ≤ w then some (UInt16.ofNat (w - elementRange)) else none

/-- Fill or empty an element slot. -/
def setElement (h : Heap) (s : SegRef) (slot : Nat) (element : Option Ref) : Heap :=
  h.setWord (h.slotOffset s slot) <| match element with
    | some r => UInt16.ofNat (elementRange + r.toNat % elementRange)
    | none => 0

/-- The slots of a segment, in order. -/
def elements (h : Heap) (s : SegRef) : List (Option Ref) :=
  (List.range slotsPerSegment).map (h.element? s)

/-- The first free segment slot. -/
def freeSegment? (h : Heap) : Option Nat :=
  (List.range h.segmentSlots).find? fun i => !h.segmentIsValid (UInt16.ofNat i)

/-- Empty the slots of a segment, and make it the only one of its chain. -/
def initSegment (h : Heap) (s : SegRef) : Heap :=
  ((List.range slotsPerSegment).foldl (fun h slot => h.setElement s slot none) h).setLink s
    { valid := true, next := noNext }

/-- An empty segment, in the first free slot or, when there is none, in a new one at the edge. -/
def allocSegment : HeapM SegRef := fun h =>
  match h.freeSegment? with
  | some i => .ok (UInt16.ofNat i) (h.initSegment (UInt16.ofNat i))
  | none =>
    if h.objectEnd + segmentSize ≤ h.segmentStart then
      let s := UInt16.ofNat h.segmentSlots
      let h := { h with segmentStart := h.segmentStart - segmentSize }
      .ok s (h.initSegment s)
    else .error .heapExhausted h

/-- Give a segment back. -/
def freeSegment (h : Heap) (s : SegRef) : Heap :=
  if s.toNat < h.segmentSlots then h.setLink s {} else h

/-- The first segment of a table or array, `noNext` for every other object. -/
def tableHead (h : Heap) (t : Ref) : SegRef :=
  if h.kind t = .table then h.word (objectOffset t + 1) else noNext

/-- Make a segment the first of a table. -/
def setTableHead (h : Heap) (t : Ref) (head : SegRef) : Heap :=
  h.setWord (objectOffset t + 1) head

/-- The segments reached from one by following at most `n` links. -/
def chainFrom (h : Heap) : Nat → SegRef → List SegRef
  | 0, _ => []
  | n + 1, s => if s = noNext then [] else s :: h.chainFrom n (h.next s)

/-- A bound on the length of every chain that ends. -/
def chainBound (h : Heap) : Nat := h.segmentSlots + 2

/-- The segments of a table or array; other objects have none. -/
def chain (h : Heap) (t : Ref) : List SegRef := h.chainFrom h.chainBound (h.tableHead t)

/-- Every segment of a table or array is there, and its chain comes to an end. Other objects have no
segments. -/
def isIntact (h : Heap) (t : Ref) : Bool :=
  (h.chain t).length < h.chainBound && (h.chain t).all fun s => s.toNat < h.segmentSlots

/-- A new object of a kind, with the value that stands for nothing of that kind; a table gets its
first segment. -/
def alloc (kind : Kind) : HeapM Ref := do
  match kind with
  | .table => allocTable
  | .nil => allocValue .nil
  | .int => allocValue (.int 0)
  | .float => allocValue (.float .zero)
  | .string => allocValue (.string 0)
  | .closure => allocValue (.closure (.ofCode 0))
  | .userdata => allocValue (.userdata 0)
where
  /-- A table with one empty segment. Without a segment the object is given back. -/
  allocTable : HeapM Ref := do
    let r ← allocSlot
    match allocSegment (← get) with
    | .ok head h =>
      set (h.setValue r (.table ⟨head, false, false⟩))
      return r
    | .error e h =>
      set (h.invalidate r)
      throw e

/-- How full a heap is. -/
structure Stats where
  /-- Objects. -/
  objects : Nat
  /-- Object slots. -/
  objectSlots : Nat
  /-- Segments in use. -/
  segments : Nat
  /-- Segment slots. -/
  segmentSlots : Nat
  /-- Bytes between objects and segments. -/
  freeBytes : Nat
deriving DecidableEq, Repr

/-- Count what is in use. -/
def stats (h : Heap) : Stats where
  objects := (List.range h.objectSlots).countP fun i => h.isValid (UInt16.ofNat i)
  objectSlots := h.objectSlots
  segments := (List.range h.segmentSlots).countP fun i => h.segmentIsValid (UInt16.ofNat i)
  segmentSlots := h.segmentSlots
  freeBytes := h.freeBytes

end Heap

end SwarmVm
