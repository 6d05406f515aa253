import SwarmVm.Heap.Collect

/-!
# Marking in bounded steps

Marking goes on until no object is left to look at, and looks up every byte by its offset. On a heap
that is written down the same marks are found by a search that gives up after so many objects, and
reads the slots of a segment one after the other.

The search is for machines that are run step by step: if it does not give up, its marks are those of
a collection, and the collection can be told from them.

## Main definitions

* `Heap.wordsAlong` — words that are read along a row of bytes
* `Heap.markWithin?` — marking that gives up after so many objects
* `Heap.collectMarked` — a collection whose marks are known

## Main results

* `Heap.wordsAlong_drop` — reading along the row is reading by offsets
* `Heap.collect_of_markWithin?` — a collection from its marks
-/

namespace SwarmVm

namespace Heap

variable {h : Heap}

/-! ### Reading along a row -/

/-- Words that are read along a row of bytes, which goes on with zeros. -/
def wordsAlong : Nat → List UInt8 → List UInt16
  | 0, _ => []
  | n + 1, row => Word.ofBytes (row.headD 0) (row.tail.headD 0) :: wordsAlong n row.tail.tail

theorem byte_eq_headD (h : Heap) (o : Nat) : h.byte o = (h.bytes.toList.drop o).headD 0 := by
  rw [List.headD_eq_head?_getD, List.head?_drop, Array.getElem?_toList]
  exact Array.getD_eq_getD_getElem?

theorem wordsAlong_drop (h : Heap) (n o : Nat) :
    wordsAlong n (h.bytes.toList.drop o) = (List.range n).map fun i => h.word (o + 2 * i) := by
  induction n generalizing o with
  | zero => rfl
  | succ n ih =>
    have hword : Word.ofBytes ((h.bytes.toList.drop o).headD 0)
        ((h.bytes.toList.drop o).tail.headD 0) = h.word o := by
      rw [List.tail_drop, ← byte_eq_headD, ← byte_eq_headD]
      rfl
    rw [wordsAlong, hword, List.tail_drop, List.tail_drop, ih, List.range_succ_eq_map, List.map_cons,
      List.map_map]
    refine congrArg (h.word o :: ·) (List.map_congr_left fun i _ => ?_)
    rw [Function.comp_apply, show o + 1 + 1 + 2 * i = o + 2 * (i + 1) by omega]

/-- The objects in the slots of a segment, read one after the other. -/
def objectsAlong (h : Heap) (s : SegRef) : List Ref :=
  (wordsAlong slotsPerSegment (h.bytes.toList.drop (h.segmentOffset s))).filterMap fun w =>
    if elementRange ≤ w.toNat then some (UInt16.ofNat (w.toNat - elementRange)) else none

theorem objectsAlong_eq (h : Heap) (s : SegRef) : h.objectsAlong s = h.segmentObjects s := by
  rw [objectsAlong, wordsAlong_drop, List.filterMap_map]
  rfl

/-- The value of an object, read one byte after the other. -/
def valueAlong (h : Heap) (r : Ref) : Value :=
  let row := h.bytes.toList.drop (objectOffset r)
  let header := if r.toNat < h.objectSlots then Header.ofByte (row.headD 0) else Header.free
  let words := wordsAlong 2 row.tail
  if header.valid then Value.unpack header (words.headD 0) (words.tail.headD 0) else .nil

theorem valueAlong_eq (h : Heap) (r : Ref) : h.valueAlong r = h.value r := by
  rw [valueAlong, ← byte_eq_headD, List.tail_drop, wordsAlong_drop]
  rfl

/-- The objects one step away from an object. -/
def successorsAlong (h : Heap) (r : Ref) : List Ref :=
  match h.valueAlong r with
  | .table t => (h.usedChain t.head).flatMap h.objectsAlong
  | .closure c => c.captured.toList
  | _ => []

theorem successorsAlong_eq (h : Heap) (r : Ref) : h.successorsAlong r = h.successors r := by
  have hobjects : h.objectsAlong = h.segmentObjects := funext h.objectsAlong_eq
  rw [successorsAlong, valueAlong_eq, hobjects]
  rfl

/-! ### Marking with a bound -/

/-- Marking with a bound on the number of objects that are looked at. -/
def markWithin? (h : Heap) : Nat → Array Bool → List Ref → Option (Array Bool)
  | _, marks, [] => some marks
  | 0, _, _ :: _ => none
  | n + 1, marks, r :: rest =>
    if bound : r.toNat < marks.size then
      if marks[r.toNat] = false ∧ h.isValid r then
        h.markWithin? n (marks.set r.toNat true bound) (h.successorsAlong r ++ rest)
      else h.markWithin? n marks rest
    else h.markWithin? n marks rest

theorem markFrom_of_markWithin? {n : Nat} {marks marks' : Array Bool} {work : List Ref}
    (hw : h.markWithin? n marks work = some marks') : h.markFrom marks work = marks' := by
  induction n generalizing marks work with
  | zero =>
    cases work with
    | nil => rw [markFrom, ← Option.some.inj hw]
    | cons r rest => cases hw
  | succ n ih =>
    cases work with
    | nil => rw [markFrom, ← Option.some.inj hw]
    | cons r rest =>
      rw [markWithin?, successorsAlong_eq] at hw
      rw [markFrom]
      split at hw
      · next bound =>
        rw [dif_pos bound]
        split at hw
        · next hr => rw [if_pos hr, ih hw]
        · next hr => rw [if_neg hr, ih hw]
      · next bound => rw [dif_neg bound, ih hw]

/-- A collection that keeps the marked objects. -/
def collectMarked (h : Heap) (marks : Array Bool) : Freed × Heap :=
  let segmentMarks := h.markSegments marks
  let freed : Freed := {
    objects := (List.range h.objectSlots).countP fun i =>
      h.isValid (UInt16.ofNat i) && !marks.getD i false
    segments := (List.range h.segmentSlots).countP fun i =>
      h.segmentIsValid (UInt16.ofNat i) && !segmentMarks.getD i false }
  (freed, ((h.sweepSegments segmentMarks).sweepObjects marks).retract)

/-- If the search does not give up, the collection keeps what it has marked. -/
theorem collect_of_markWithin? {n : Nat} {marks : Array Bool} {roots : List Ref}
    (hw : h.markWithin? n (Array.replicate h.objectSlots false) (roots ++ h.permanents)
      = some marks) : h.collect roots = h.collectMarked marks := by
  have hmark : h.mark roots = marks := markFrom_of_markWithin? hw
  rw [← hmark]
  rfl

end Heap

end SwarmVm
