import SwarmVm.Heap.Table
import SwarmVm.Heap.Array

/-!
# Collection

A collection keeps what can be reached from the roots and from the permanent objects: from a table
or an array the elements of its segments, from a closure its captured record. Every other object,
and every segment that is on no surviving chain, is given back; then both edges move inward over
the free slots next to them.

Here a chain is followed only through segments in use, since a dangling link leads nowhere.

## Main definitions

* `Heap.successors` — the objects one step away
* `Heap.mark` — the objects that can be reached
* `Heap.collect` — the collection
-/

namespace SwarmVm

namespace Heap

/-- The segments in use that are reached from one by following at most `n` links. -/
def usedChainFrom (h : Heap) : Nat → SegRef → List SegRef
  | 0, _ => []
  | n + 1, s =>
    if s = noNext then [] else
    if h.segmentIsValid s then s :: h.usedChainFrom n (h.next s) else []

/-- The segments in use of a chain. As there are no more than `segmentSlots` of them, following
that many links reaches all, also on a chain that runs in a circle. -/
def usedChain (h : Heap) (head : SegRef) : List SegRef := h.usedChainFrom h.segmentSlots head

/-- The objects in the slots of a segment. -/
def segmentObjects (h : Heap) (s : SegRef) : List Ref :=
  (List.range slotsPerSegment).filterMap (h.element? s)

/-- The objects one step away from an object. -/
def successors (h : Heap) (r : Ref) : List Ref :=
  match h.value r with
  | .table t => (h.usedChain t.head).flatMap h.segmentObjects
  | .closure c => c.captured.toList
  | _ => []

/-- Mark what can be reached from a worklist. `marks` has one entry for each object slot, and an
object already marked is not visited again. -/
def markFrom (h : Heap) (marks : Array Bool) (work : List Ref) : Array Bool :=
  match work with
  | [] => marks
  | r :: rest =>
    if bound : r.toNat < marks.size then
      if marks[r.toNat] = false ∧ h.isValid r then
        h.markFrom (marks.set r.toNat true bound) (h.successors r ++ rest)
      else h.markFrom marks rest
    else h.markFrom marks rest
termination_by (marks.count false, work.length)
decreasing_by
  · apply Prod.Lex.left
    rename_i unmarked
    have mem : 0 < marks.count false :=
      Array.count_pos_iff.2 (unmarked.1 ▸ Array.getElem_mem bound)
    rw [Array.count_set bound, unmarked.1]
    change marks.count false - 1 + 0 < marks.count false
    omega
  · exact Prod.Lex.right _ (by simp)
  · exact Prod.Lex.right _ (by simp)

/-- The permanent objects. -/
def permanents (h : Heap) : List Ref :=
  ((List.range h.objectSlots).map UInt16.ofNat).filter fun r => (h.header r).permanent

/-- For each object slot, whether its object can be reached from the roots or from a permanent
object. -/
def mark (h : Heap) (roots : List Ref) : Array Bool :=
  h.markFrom (Array.replicate h.objectSlots false) (roots ++ h.permanents)

/-- Mark the segments in use of a table or array. -/
def markChain (h : Heap) (live : Array Bool) (r : Ref) : Array Bool :=
  match h.value r with
  | .table t => (h.usedChain t.head).foldl (fun live s => live.setIfInBounds s.toNat true) live
  | _ => live

/-- For each segment slot, whether it lies on the chain of a marked table. -/
def markSegments (h : Heap) (marks : Array Bool) : Array Bool :=
  (List.range h.objectSlots).foldl
    (fun live i => if marks.getD i false then h.markChain live (UInt16.ofNat i) else live)
    (Array.replicate h.segmentSlots false)

/-- Give back an unmarked object, and note the mark of a marked one. -/
def sweepObject (h : Heap) (r : Ref) (marked : Bool) : Heap :=
  if h.isValid r then
    if marked then h.setHeader r { h.header r with mark := true } else h.invalidate r
  else h

/-- Give back an unmarked segment, and note the mark of a marked one. -/
def sweepSegment (h : Heap) (s : SegRef) (marked : Bool) : Heap :=
  if h.segmentIsValid s then
    if marked then h.setLink s { h.link s with mark := true } else h.freeSegment s
  else h

/-- Sweep every object slot. -/
def sweepObjects (h : Heap) (marks : Array Bool) : Heap :=
  (List.range h.objectSlots).foldl
    (fun h i => h.sweepObject (UInt16.ofNat i) (marks.getD i false)) h

/-- Sweep every segment slot. -/
def sweepSegments (h : Heap) (marks : Array Bool) : Heap :=
  (List.range h.segmentSlots).foldl
    (fun h i => h.sweepSegment (UInt16.ofNat i) (marks.getD i false)) h

/-- One more than the last index below `n` that is in use, zero when none is. -/
def lastUsed (used : Nat → Bool) : Nat → Nat
  | 0 => 0
  | n + 1 => if used n then n + 1 else lastUsed used n

/-- Move both edges inward over free slots. -/
def retract (h : Heap) : Heap :=
  let objects := lastUsed (fun i => h.isValid (UInt16.ofNat i)) h.objectSlots
  let segments := lastUsed (fun i => h.segmentIsValid (UInt16.ofNat i)) h.segmentSlots
  { h with objectEnd := objects * objectSize, segmentStart := h.size - segments * segmentSize }

/-- What a collection gave back. -/
structure Freed where
  /-- Objects. -/
  objects : Nat
  /-- Segments. -/
  segments : Nat
deriving DecidableEq, Repr

/-- Keep what can be reached from the roots and the permanent objects, and give back the rest. -/
def collect (h : Heap) (roots : List Ref) : Freed × Heap :=
  let objectMarks := h.mark roots
  let segmentMarks := h.markSegments objectMarks
  let freed : Freed := {
    objects := (List.range h.objectSlots).countP fun i =>
      h.isValid (UInt16.ofNat i) && !objectMarks.getD i false
    segments := (List.range h.segmentSlots).countP fun i =>
      h.segmentIsValid (UInt16.ofNat i) && !segmentMarks.getD i false }
  (freed, ((h.sweepSegments segmentMarks).sweepObjects objectMarks).retract)

end Heap

end SwarmVm
