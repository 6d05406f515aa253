import SwarmVm.Heap.Segment

/-!
# Tables

A table is a chain in which each segment holds five pairs of a key and a value. Keys are compared
with `Heap.compare`; a nil key is never stored, and storing nil erases a key. A new pair goes to
the first free place of the chain, and a segment that loses its last pair is given back unless it
is the only one.

## Main definitions

* `Heap.tableGet?`, `Heap.tableSet` — look-up, and insertion, replacement or erasure
* `Heap.tableEntries`, `Heap.tableSize` — all pairs
-/

namespace SwarmVm

/-- The place of one pair in a chain. -/
structure PairSlot where
  /-- The segment. -/
  segment : SegRef
  /-- The pair, counted in its segment. -/
  pair : Nat
deriving DecidableEq, Repr

namespace Heap

/-- The key at a place. -/
def key? (h : Heap) (p : PairSlot) : Option Ref := h.element? p.segment (2 * p.pair)

/-- The value at a place. -/
def fieldValue? (h : Heap) (p : PairSlot) : Option Ref := h.element? p.segment (2 * p.pair + 1)

/-- Fill or empty the key at a place. -/
def setKey (h : Heap) (p : PairSlot) (key : Option Ref) : Heap :=
  h.setElement p.segment (2 * p.pair) key

/-- Fill or empty the value at a place. -/
def setFieldValue (h : Heap) (p : PairSlot) (value : Option Ref) : Heap :=
  h.setElement p.segment (2 * p.pair + 1) value

/-- The places of one segment. -/
def segmentPairs (s : SegRef) : List PairSlot := (List.range pairsPerSegment).map (⟨s, ·⟩)

/-- The places of a table, in the order in which they are searched. -/
def pairSlots (h : Heap) (t : Ref) : List PairSlot := (h.chain t).flatMap segmentPairs

/-- The key at a place is equal to the given one. -/
def hasKey (h : Heap) (key : Ref) (p : PairSlot) : Bool :=
  (h.key? p).any fun k => h.compare k key == .eq

/-- The place of a key. -/
def findKey? (h : Heap) (t key : Ref) : Option PairSlot := (h.pairSlots t).find? (h.hasKey key)

/-- The first place without a key. -/
def freePair? (h : Heap) (t : Ref) : Option PairSlot :=
  (h.pairSlots t).find? fun p => (h.key? p).isNone

/-- The value stored under a key. -/
def tableGet? (h : Heap) (t key : Ref) : Option Ref := (h.findKey? t key).bind h.fieldValue?

/-- The segment before the first occurrence of `s` in a chain, if there is one. -/
def segmentBefore? : List SegRef → SegRef → Option SegRef
  | a :: b :: rest, s =>
    if a = s then none else if b = s then some a else segmentBefore? (b :: rest) s
  | _, _ => none

/-- Take an empty segment out of a table, unless it is the only one. -/
def unlinkSegment (h : Heap) (t : Ref) (s : SegRef) : Heap :=
  match segmentBefore? (h.chain t) s with
  | some before => (h.setNext before (h.next s)).freeSegment s
  | none =>
    if h.next s = noNext then h else (h.setTableHead t (h.next s)).freeSegment s

/-- Erase the pair at a place. -/
def erasePair (h : Heap) (t : Ref) (p : PairSlot) : Heap :=
  let h := (h.setKey p none).setFieldValue p none
  if (segmentPairs p.segment).all fun q => (h.key? q).isNone then h.unlinkSegment t p.segment
  else h

/-- Write a pair to a place. -/
def writePair (h : Heap) (p : PairSlot) (key value : Ref) : Heap :=
  (h.setKey p (some key)).setFieldValue p (some value)

/-- Store a pair whose key the table does not have. -/
def insertPair (t key value : Ref) : HeapM Unit := do
  match (← get).freePair? t with
  | some p => modify (·.writePair p key value)
  | none =>
    let last := ((← get).chain t).getLast?.getD noNext
    let fresh ← allocSegment
    modify (·.setNext last fresh)
    modify (·.writePair ⟨fresh, 0⟩ key value)

/-- Store a value under a key; nil erases the key. A nil key and an object that is not a table are
left alone. -/
def tableSet (t key value : Ref) : HeapM Unit := do
  let h ← get
  if h.tableHead t = noNext ∨ h.kind key = .nil then return
  match h.findKey? t key, decide (h.kind value = .nil) with
  | some p, true => set (h.erasePair t p)
  | some p, false => set (h.setFieldValue p (some value))
  | none, true => return
  | none, false => insertPair t key value

/-- A new empty table. -/
def tableNew : HeapM Ref := alloc .table

/-- The pair at a place. -/
def pairAt? (h : Heap) (p : PairSlot) : Option (Ref × Ref) :=
  match h.key? p, h.fieldValue? p with
  | some k, some v => some (k, v)
  | _, _ => none

/-- All pairs of a table, in the order of their places. -/
def tableEntries (h : Heap) (t : Ref) : List (Ref × Ref) := (h.pairSlots t).filterMap h.pairAt?

/-- The number of pairs. -/
def tableSize (h : Heap) (t : Ref) : Nat := (h.tableEntries t).length

end Heap

end SwarmVm
