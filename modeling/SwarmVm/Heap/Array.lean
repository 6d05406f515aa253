import SwarmVm.Heap.Segment

/-!
# Arrays

An array is a chain whose slots hold a sequence of objects without gaps. Its last segment is given
back when it becomes empty, unless it is the only one.

## Main definitions

* `Heap.arrayElements`, `Heap.arraySize`, `Heap.arrayGet?` — what an array holds
* `Heap.arraySet`, `Heap.arrayPush`, `Heap.arrayPop`, `Heap.arrayClear` — changes
* `Heap.arrayFind`, `Heap.arrayFindBy` — searches
* `Heap.arrayClone` — a copy with the same elements
-/

namespace SwarmVm

namespace Heap

/-- The slots of an array, in order. -/
def arraySlots (h : Heap) (a : Ref) : List (Option Ref) := (h.chain a).flatMap h.elements

/-- The objects before the first gap. -/
def untilGap : List (Option Ref) → List Ref
  | some r :: rest => r :: untilGap rest
  | _ => []

/-- The elements of an array. -/
def arrayElements (h : Heap) (a : Ref) : List Ref := untilGap (h.arraySlots a)

/-- The number of elements. -/
def arraySize (h : Heap) (a : Ref) : Nat := (h.arrayElements a).length

/-- The segment of a position. -/
def segmentOf? (h : Heap) (a : Ref) (position : Nat) : Option SegRef :=
  (h.chain a)[position / slotsPerSegment]?

/-- The slot of a position in its segment. -/
def slotOf (position : Nat) : Nat := position % slotsPerSegment

/-- The element at a position. -/
def arrayGet? (h : Heap) (a : Ref) (position : Nat) : Option Ref :=
  if position < h.arraySize a then
    (h.segmentOf? a position).bind fun s => h.element? s (slotOf position)
  else none

/-- Replace the element at a position. Answers false when there is none. -/
def arraySet (h : Heap) (a : Ref) (position : Nat) (r : Ref) : Bool × Heap :=
  match if position < h.arraySize a then h.segmentOf? a position else none with
  | some s => (true, h.setElement s (slotOf position) (some r))
  | none => (false, h)

/-- A segment appended to a chain that is full up to `size` elements. -/
def extendChain (a : Ref) (size : Nat) : HeapM SegRef := do
  let h ← get
  match if size = 0 then none else h.segmentOf? a (size - 1) with
  | some tail =>
    let fresh ← allocSegment
    modify (·.setNext tail fresh)
    return fresh
  | none => throw .heapExhausted

/-- Append an element. -/
def arrayPush (a r : Ref) : HeapM Unit := do
  let h ← get
  let size := h.arraySize a
  let s ← match h.segmentOf? a size with
    | some s => pure s
    | none => extendChain a size
  modify (·.setElement s (slotOf size) (some r))

/-- Append several elements. -/
def arrayPushAll (a : Ref) : List Ref → HeapM Unit
  | [] => pure ()
  | r :: rest => do
    arrayPush a r
    arrayPushAll a rest

/-- Drop the last element. Answers false when there is none. -/
def arrayPop (h : Heap) (a : Ref) : Bool × Heap :=
  let size := h.arraySize a
  if size = 0 then (false, h)
  else
    let position := size - 1
    match h.segmentOf? a position with
    | none => (false, h)
    | some s =>
      let h' := h.setElement s (slotOf position) none
      if slotOf position = 0 ∧ slotsPerSegment ≤ position then
        match h.segmentOf? a (position - slotsPerSegment) with
        | some before => (true, (h'.setNext before noNext).freeSegment s)
        | none => (true, h')
      else (true, h')

/-- Drop the last element up to `n` times. -/
def arrayPopMany (h : Heap) (a : Ref) : Nat → Heap
  | 0 => h
  | n + 1 =>
    match h.arrayPop a with
    | (true, h) => h.arrayPopMany a n
    | (false, h) => h

/-- Drop every element, and the flag that says the array is a copy. -/
def arrayClear (h : Heap) (a : Ref) : Heap :=
  (h.arrayPopMany a (h.arraySize a)).setFlagB a false

/-- A new empty array. -/
def arrayNew : HeapM Ref := do
  let r ← alloc .table
  modify (·.setFlagA r true)
  return r

/-- The object is an array. -/
def isArray (h : Heap) (r : Ref) : Bool := h.kind r = .table && (h.header r).flagA

/-- The object is flagged as a copy of an array. -/
def isCloned (h : Heap) (r : Ref) : Bool := h.kind r = .table && (h.header r).flagB

/-- The position of the first element that meets a test, or the number of elements. -/
def arrayFindBy (h : Heap) (a : Ref) (test : Ref → Bool) : Nat :=
  (h.arrayElements a).findIdx test

/-- The position of the first element equal to `r`, or the number of elements. -/
def arrayFind (h : Heap) (a r : Ref) : Nat :=
  h.arrayFindBy a fun element => h.compare element r == .eq

/-- A new array with the same elements, flagged as a copy. When they do not fit, what was taken is
given back. -/
def arrayClone (a : Ref) : HeapM Ref := do
  let elements := (← get).arrayElements a
  let clone ← arrayNew
  match arrayPushAll clone elements (← get) with
  | .ok _ h =>
    set (h.setFlagB clone true)
    return clone
  | .error e h =>
    set ((h.arrayClear clone).invalidate clone)
    throw e

end Heap

end SwarmVm
