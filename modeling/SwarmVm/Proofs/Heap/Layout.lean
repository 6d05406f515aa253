import SwarmVm.Heap.Collect
import Mathlib.Data.Set.Basic

/-!
# Where objects and segments lie

The row of bytes is divided into object slots on the left and segment slots on the right. This file
says when the two edges are where they should be, and what follows for reading and writing: a write
to one slot is seen by that slot alone.

The heap is total, so nothing here is needed to define it. What is needed is that a write stays
inside a slot; `WritesIn` says so, and every lemma on untouched slots is read off from it.

## Main definitions

* `Heap.Layout` — the size is an accepted one, and the edges are ordered and aligned
* `Heap.WritesIn` — the two heaps differ at most in a range of bytes

## Main results

* `Heap.WritesIn.sameObjects`, `Heap.WritesIn.sameSegments` — a write on one side of the row is not
  seen on the other
* `Heap.WritesIn.value_of_ne`, `Heap.WritesIn.link_of_ne`, `Heap.WritesIn.element?_of_ne` — nor by
  the other slots of its own side
-/

namespace SwarmVm

namespace Heap

variable {h h' h'' : Heap} {r r' : Ref} {s s' : SegRef} {lo hi lo' hi' : Nat}

/-! ### Bytes and words -/

/-- `h'` differs from `h` at most in the bytes from `lo` up to `hi`. -/
structure WritesIn (lo hi : Nat) (h h' : Heap) : Prop where
  /-- The rows have the same length. -/
  size : h'.size = h.size
  /-- The edge of the objects is where it was. -/
  objectEnd : h'.objectEnd = h.objectEnd
  /-- The edge of the segments is where it was. -/
  segmentStart : h'.segmentStart = h.segmentStart
  /-- The bytes outside the range are as they were. -/
  byte : ∀ o, o < lo ∨ hi ≤ o → h'.byte o = h.byte o

theorem WritesIn.refl (lo hi : Nat) (h : Heap) : WritesIn lo hi h h :=
  ⟨rfl, rfl, rfl, fun _ _ => rfl⟩

theorem WritesIn.trans (w : WritesIn lo hi h h') (w' : WritesIn lo hi h' h'') :
    WritesIn lo hi h h'' where
  size := w'.size.trans w.size
  objectEnd := w'.objectEnd.trans w.objectEnd
  segmentStart := w'.segmentStart.trans w.segmentStart
  byte o ho := (w'.byte o ho).trans (w.byte o ho)

theorem WritesIn.mono (w : WritesIn lo hi h h') (hlo : lo' ≤ lo) (hhi : hi ≤ hi') :
    WritesIn lo' hi' h h' where
  size := w.size
  objectEnd := w.objectEnd
  segmentStart := w.segmentStart
  byte o ho := w.byte o (by omega)

theorem WritesIn.objectSlots (w : WritesIn lo hi h h') : h'.objectSlots = h.objectSlots := by
  rw [Heap.objectSlots, Heap.objectSlots, w.objectEnd]

theorem WritesIn.segmentSlots (w : WritesIn lo hi h h') : h'.segmentSlots = h.segmentSlots := by
  rw [Heap.segmentSlots, Heap.segmentSlots, w.size, w.segmentStart]

theorem WritesIn.word (w : WritesIn lo hi h h') {o : Nat} (ho : o + 2 ≤ lo ∨ hi ≤ o) :
    h'.word o = h.word o := by
  rw [Heap.word, Heap.word, w.byte o (by omega), w.byte (o + 1) (by omega)]

theorem byte_setByte (h : Heap) (o o' : Nat) (b : UInt8) :
    (h.setByte o b).byte o' = if o = o' ∧ o < h.size then b else h.byte o' := by
  simp only [byte, setByte, Heap.size, Array.getD_eq_getD_getElem?, Array.getElem?_setIfInBounds]
  by_cases ho : o = o'
  · subst ho
    by_cases hs : o < h.bytes.size <;> simp [hs]
  · simp [ho]

theorem writesIn_setByte (h : Heap) (o : Nat) (b : UInt8) :
    WritesIn o (o + 1) h (h.setByte o b) where
  size := by simp [Heap.size, setByte]
  objectEnd := rfl
  segmentStart := rfl
  byte o' ho' := by rw [byte_setByte, if_neg (by omega)]

theorem writesIn_setWord (h : Heap) (o : Nat) (w : UInt16) : WritesIn o (o + 2) h (h.setWord o w) :=
  ((writesIn_setByte h o _).mono le_rfl (by omega)).trans
    ((writesIn_setByte _ (o + 1) _).mono (by omega) le_rfl)

theorem word_setWord {o : Nat} (ho : o + 2 ≤ h.size) (w : UInt16) : (h.setWord o w).word o = w := by
  have hsize := (writesIn_setByte h o (Word.low w)).size
  rw [word, setWord, byte_setByte, if_neg (by omega), byte_setByte, if_pos ⟨rfl, by omega⟩,
    byte_setByte, if_pos ⟨rfl, by omega⟩, Word.ofBytes_low_high]

/-! ### The edges -/

/-- The edges of a heap are where they should be: objects end before segments start, both regions
consist of whole slots, and the size is an accepted one. -/
structure Layout (h : Heap) : Prop where
  /-- The size is accepted. -/
  accepted : refusal? h.size = none
  /-- Objects end before segments start. -/
  ordered : h.objectEnd ≤ h.segmentStart
  /-- Segments start inside the row. -/
  inside : h.segmentStart ≤ h.size
  /-- Objects take whole slots. -/
  objects : objectSize ∣ h.objectEnd
  /-- Segments take whole slots. -/
  segments : segmentSize ∣ h.size - h.segmentStart

namespace Layout

theorem size_le (l : h.Layout) : h.size ≤ 65535 := by
  have ha := l.accepted
  simp only [refusal?] at ha
  split at ha <;> simp_all
  split at ha <;> simp_all

theorem objectEnd_eq (l : h.Layout) : h.objectEnd = h.objectSlots * 5 := by
  have := l.objects
  simp only [objectSize, objectSlots] at *
  omega

theorem segmentStart_eq (l : h.Layout) : h.size = h.segmentStart + h.segmentSlots * 22 := by
  have := l.segments
  have := l.inside
  simp only [segmentSize, slotsPerSegment, pairsPerSegment, segmentSlots] at *
  omega

theorem objectSlots_le (l : h.Layout) : h.objectSlots ≤ 13107 := by
  have := l.objectEnd_eq
  have := l.ordered
  have := l.inside
  have := l.size_le
  omega

theorem segmentSlots_le (l : h.Layout) : h.segmentSlots ≤ 2978 := by
  have := l.segmentStart_eq
  have := l.size_le
  omega

theorem of_writesIn (l : h.Layout) (w : WritesIn lo hi h h') : h'.Layout where
  accepted := by rw [w.size]; exact l.accepted
  ordered := by rw [w.objectEnd, w.segmentStart]; exact l.ordered
  inside := by rw [w.segmentStart, w.size]; exact l.inside
  objects := by rw [w.objectEnd]; exact l.objects
  segments := by rw [w.size, w.segmentStart]; exact l.segments

end Layout

/-- An index below the number of slots is not cut to sixteen bits. -/
theorem toNat_ofNat_of_lt {i : Nat} (hi : i < 65536) : (UInt16.ofNat i).toNat = i :=
  UInt16.toNat_ofNat_of_lt' hi

theorem objectOffset_eq (r : Ref) : objectOffset r = r.toNat * 5 := rfl

theorem segmentOffset_eq (h : Heap) (s : SegRef) :
    h.segmentOffset s = h.size - (s.toNat + 1) * 22 := rfl

theorem linkOffset_eq (h : Heap) (s : SegRef) : h.linkOffset s = h.segmentOffset s + 20 := rfl

theorem slotOffset_eq (h : Heap) (s : SegRef) (k : Nat) :
    h.slotOffset s k = h.segmentOffset s + 2 * k := rfl

/-- An object slot lies left of both edges. -/
theorem Layout.objectOffset_le (l : h.Layout) (hr : r.toNat < h.objectSlots) :
    objectOffset r + 5 ≤ h.objectEnd := by
  rw [l.objectEnd_eq, objectOffset_eq]
  omega

/-- A segment slot lies between the edge of the segments and the end of the row. -/
theorem Layout.segmentOffset_bounds (l : h.Layout) (hs : s.toNat < h.segmentSlots) :
    h.segmentStart ≤ h.segmentOffset s ∧ h.segmentOffset s + 22 ≤ h.size := by
  have := l.segmentStart_eq
  rw [segmentOffset_eq]
  omega

/-- A link to the last segment is never mistaken for a segment. -/
theorem Layout.ne_noNext (l : h.Layout) (hs : s.toNat < h.segmentSlots) : s ≠ noNext := by
  rintro rfl
  have := l.segmentSlots_le
  have : noNext.toNat = 16383 := rfl
  omega

/-! ### Slots that are in use -/

theorem lt_objectSlots_of_isValid (hv : h.isValid r = true) : r.toNat < h.objectSlots := by
  by_contra hr
  simp [isValid, header, hr, Header.free] at hv

theorem lt_objectSlots_of_kind {k : Kind} (hk : h.kind r = k) (ne : k ≠ .nil) :
    r.toNat < h.objectSlots := by
  by_contra hr
  refine ne ?_
  rw [← hk, kind, header, if_neg hr]
  rfl

theorem lt_segmentSlots_of_isValid (hv : h.segmentIsValid s = true) : s.toNat < h.segmentSlots := by
  by_contra hs
  simp [segmentIsValid, link, hs] at hv

/-! ### The first free slot -/

section

variable {used : UInt16 → Bool} {n i : Nat}

/-- A search for a free slot finds the lowest one. -/
theorem lowest_of_find?_eq_some (hn : n ≤ 65536)
    (hf : (List.range n).find? (fun i => !used (.ofNat i)) = some i) :
    (UInt16.ofNat i).toNat < n ∧ used (.ofNat i) = false ∧ ∀ j < UInt16.ofNat i, used j = true := by
  obtain ⟨free, hi, lower⟩ := List.find?_range_eq_some.1 hf
  have hi : i < n := List.mem_range.1 hi
  have hto : (UInt16.ofNat i).toNat = i := toNat_ofNat_of_lt (hi.trans_le hn)
  refine ⟨hto.trans_lt hi, by simpa using free, fun j hj => ?_⟩
  have := lower j.toNat ((UInt16.lt_iff_toNat_lt.1 hj).trans_eq hto)
  simpa using this

/-- It finds none when all are in use. -/
theorem used_of_find?_eq_none
    (hf : (List.range n).find? (fun i => !used (.ofNat i)) = none) {j : UInt16} (hj : j.toNat < n) :
    used j = true := by
  simpa using List.find?_range_eq_none.1 hf j.toNat hj

end

/-! ### Untouched slots -/

/-- The two heaps have the same objects. -/
structure SameObjects (h h' : Heap) : Prop where
  /-- The slots are the same. -/
  slots : h'.objectSlots = h.objectSlots
  /-- The bytes of the slots are the same. -/
  byte : ∀ o < h.objectSlots * 5, h'.byte o = h.byte o

/-- The two heaps have the same segments. -/
structure SameSegments (h h' : Heap) : Prop where
  /-- The rows have the same length. -/
  size : h'.size = h.size
  /-- The slots are the same. -/
  slots : h'.segmentSlots = h.segmentSlots
  /-- The bytes of the slots are the same. -/
  byte : ∀ o, h.segmentStart ≤ o → h'.byte o = h.byte o

theorem header_eq_of_byte (slots : h'.objectSlots = h.objectSlots)
    (byte : r.toNat < h.objectSlots → h'.byte (objectOffset r) = h.byte (objectOffset r)) :
    h'.header r = h.header r := by
  rw [header, header, slots]
  split
  · next hr => rw [byte hr]
  · rfl

theorem value_eq_of_bytes (slots : h'.objectSlots = h.objectSlots)
    (byte : r.toNat < h.objectSlots → ∀ i < 5, h'.byte (objectOffset r + i)
      = h.byte (objectOffset r + i)) : h'.value r = h.value r := by
  have hh : h'.header r = h.header r := header_eq_of_byte slots fun hr => byte hr 0 (by omega)
  rw [value, value, hh]
  by_cases hv : (h.header r).valid = true
  · have hr : r.toNat < h.objectSlots := lt_objectSlots_of_isValid hv
    have hw : ∀ i < 4, h'.word (objectOffset r + i) = h.word (objectOffset r + i) := by
      intro i hi
      rw [word, word, byte hr i (by omega), Nat.add_assoc, byte hr (i + 1) (by omega)]
    simp only [hv, if_true, hw 1 (by omega), hw 3 (by omega)]
  · simp only [hv, if_false, Bool.false_eq_true]

theorem tableHead_eq_of_bytes (slots : h'.objectSlots = h.objectSlots)
    (byte : r.toNat < h.objectSlots → ∀ i < 5, h'.byte (objectOffset r + i)
      = h.byte (objectOffset r + i)) : h'.tableHead r = h.tableHead r := by
  have hh : h'.header r = h.header r := header_eq_of_byte slots fun hr => byte hr 0 (by omega)
  rw [tableHead, tableHead, kind, kind, hh]
  by_cases hk : (h.header r).kind = .table
  · have hr : r.toNat < h.objectSlots := lt_objectSlots_of_kind hk (by simp)
    rw [if_pos hk, if_pos hk, word, word, byte hr 1 (by omega), Nat.add_assoc,
      byte hr 2 (by omega)]
  · rw [if_neg hk, if_neg hk]

namespace SameObjects

theorem object (o : SameObjects h h') (r : Ref) (hr : r.toNat < h.objectSlots) :
    ∀ i < 5, h'.byte (objectOffset r + i) = h.byte (objectOffset r + i) := by
  intro i hi
  refine o.byte _ ?_
  rw [objectOffset_eq]
  omega

theorem header (o : SameObjects h h') (r : Ref) : h'.header r = h.header r :=
  header_eq_of_byte o.slots fun hr => o.object r hr 0 (by omega)

theorem value (o : SameObjects h h') (r : Ref) : h'.value r = h.value r :=
  value_eq_of_bytes o.slots (o.object r)

theorem tableHead (o : SameObjects h h') (r : Ref) : h'.tableHead r = h.tableHead r :=
  tableHead_eq_of_bytes o.slots (o.object r)

theorem isValid (o : SameObjects h h') (r : Ref) : h'.isValid r = h.isValid r := by
  rw [Heap.isValid, Heap.isValid, o.header]

theorem kind (o : SameObjects h h') (r : Ref) : h'.kind r = h.kind r := by
  rw [Heap.kind, Heap.kind, o.header]

end SameObjects

namespace SameSegments

theorem segment (g : SameSegments h h') (l : h.Layout) (hs : s.toNat < h.segmentSlots)
    {o : Nat} (ho : h.segmentOffset s ≤ o) : h'.byte o = h.byte o :=
  g.byte o ((l.segmentOffset_bounds hs).1.trans ho)

theorem segmentOffset (g : SameSegments h h') (s : SegRef) :
    h'.segmentOffset s = h.segmentOffset s := by
  rw [segmentOffset_eq, segmentOffset_eq, g.size]

theorem link (g : SameSegments h h') (l : h.Layout) (s : SegRef) : h'.link s = h.link s := by
  rw [Heap.link, Heap.link, g.slots]
  split
  · next hs =>
    rw [linkOffset_eq, linkOffset_eq, g.segmentOffset, word, word, g.segment l hs (by omega),
      g.segment l hs (by omega)]
  · rfl

theorem element? (g : SameSegments h h') (l : h.Layout) (hs : s.toNat < h.segmentSlots)
    (k : Nat) : h'.element? s k = h.element? s k := by
  rw [Heap.element?, Heap.element?, slotOffset_eq, slotOffset_eq, g.segmentOffset, word, word,
    g.segment l hs (by omega), g.segment l hs (by omega)]

end SameSegments

namespace WritesIn

/-- A write left of the segments leaves them alone. -/
theorem sameSegments (w : WritesIn lo hi h h') (hhi : hi ≤ h.segmentStart) : SameSegments h h' where
  size := w.size
  slots := w.segmentSlots
  byte o ho := w.byte o (by omega)

/-- A write right of the objects leaves them alone. -/
theorem sameObjects (w : WritesIn lo hi h h') (hlo : h.objectSlots * 5 ≤ lo) :
    SameObjects h h' where
  slots := w.objectSlots
  byte o ho := w.byte o (by omega)

theorem object_of_ne (w : WritesIn (objectOffset r) (objectOffset r + 5) h h') (ne : r' ≠ r) :
    ∀ i < 5, h'.byte (objectOffset r' + i) = h.byte (objectOffset r' + i) := by
  intro i hi
  have : r'.toNat ≠ r.toNat := fun e => ne (UInt16.toNat_inj.1 e)
  refine w.byte _ ?_
  rw [objectOffset_eq, objectOffset_eq]
  omega

theorem header_of_ne (w : WritesIn (objectOffset r) (objectOffset r + 5) h h') (ne : r' ≠ r) :
    h'.header r' = h.header r' :=
  header_eq_of_byte w.objectSlots fun _ => w.object_of_ne ne 0 (by omega)

theorem value_of_ne (w : WritesIn (objectOffset r) (objectOffset r + 5) h h') (ne : r' ≠ r) :
    h'.value r' = h.value r' :=
  value_eq_of_bytes w.objectSlots fun _ => w.object_of_ne ne

theorem tableHead_of_ne (w : WritesIn (objectOffset r) (objectOffset r + 5) h h') (ne : r' ≠ r) :
    h'.tableHead r' = h.tableHead r' :=
  tableHead_eq_of_bytes w.objectSlots fun _ => w.object_of_ne ne

theorem sameSegments_of_object (l : h.Layout) (hr : r.toNat < h.objectSlots)
    (w : WritesIn (objectOffset r) (objectOffset r + 5) h h') : SameSegments h h' :=
  w.sameSegments ((l.objectOffset_le hr).trans l.ordered)

theorem sameObjects_of_segment (l : h.Layout) (hs : s.toNat < h.segmentSlots)
    (w : WritesIn (h.segmentOffset s) (h.segmentOffset s + 22) h h') : SameObjects h h' :=
  w.sameObjects (l.objectEnd_eq ▸ l.ordered.trans (l.segmentOffset_bounds hs).1)

/-- Two segment slots have no byte in common. -/
theorem segment_of_ne (l : h.Layout) (hs : s.toNat < h.segmentSlots)
    (hs' : s'.toNat < h.segmentSlots) (ne : s' ≠ s)
    (w : WritesIn (h.segmentOffset s) (h.segmentOffset s + 22) h h') {i : Nat} (hi : i ≤ 20) :
    h'.word (h.segmentOffset s' + i) = h.word (h.segmentOffset s' + i) := by
  have : s'.toNat ≠ s.toNat := fun e => ne (UInt16.toNat_inj.1 e)
  have := l.segmentStart_eq
  refine w.word ?_
  rw [segmentOffset_eq, segmentOffset_eq]
  omega

theorem segmentOffset (w : WritesIn lo hi h h') (s : SegRef) :
    h'.segmentOffset s = h.segmentOffset s := by
  rw [segmentOffset_eq, segmentOffset_eq, w.size]

theorem link_of_ne (l : h.Layout) (hs : s.toNat < h.segmentSlots) (ne : s' ≠ s)
    (w : WritesIn (h.segmentOffset s) (h.segmentOffset s + 22) h h') : h'.link s' = h.link s' := by
  rw [Heap.link, Heap.link, w.segmentSlots]
  split
  · next hs' =>
    rw [linkOffset_eq, linkOffset_eq, w.segmentOffset, segment_of_ne l hs hs' ne w le_rfl]
  · rfl

theorem element?_of_ne (l : h.Layout) (hs : s.toNat < h.segmentSlots)
    (hs' : s'.toNat < h.segmentSlots) (ne : s' ≠ s)
    (w : WritesIn (h.segmentOffset s) (h.segmentOffset s + 22) h h') {k : Nat}
    (hk : k < slotsPerSegment) : h'.element? s' k = h.element? s' k := by
  have : k < 10 := hk
  rw [Heap.element?, Heap.element?, slotOffset_eq, slotOffset_eq, w.segmentOffset,
    segment_of_ne l hs hs' ne w (by omega)]

end WritesIn

end Heap

end SwarmVm
