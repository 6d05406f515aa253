import SwarmVm.Proofs.Heap.Objects
import Mathlib.Order.Bounds.Basic

/-!
# The cells of a heap

Objects, element slots and links share one row of bytes. Each of them is a cell: it takes a range of
bytes, and what it holds is read from these bytes and from nothing else. That cells do not overlap
is said by a function from bytes to cells. `Heap.cellAt` finds the cell of a byte from its offset,
counting objects from the left and segments from the right, and `Heap.Layout.cellAt_eq` says that
it is right about every byte of every cell. So a write changes the cells that its bytes belong to,
whatever the kinds of the cells are, and there is no need to compare the kinds two by two.

Objects and segments are handed out in the same way, from the lowest index that is not in use. A
`Heap.Region` collects what is different between the two sides of the row.

## Main definitions

* `Cell`, `Heap.content` — the cells, and what they hold
* `Heap.ChangesOnly` — nothing but certain cells is different
* `Heap.Region`, `Heap.Allocates` — one side of the row, and what it is to hand out a slot of it

## Main results

* `Heap.Layout.cellAt_eq` — the bytes of a cell belong to no other one
* `Heap.ChangesOnly.of_writesIn` — a write changes the cells of its bytes
* `Heap.cells_are_independent` — what writing to a cell and handing out a slot do to all cells
-/

namespace SwarmVm

/-- What is read and written by itself. -/
inductive Cell where
  /-- An object. -/
  | object (r : Ref)
  /-- An element slot of a segment. -/
  | element (s : SegRef) (k : Nat)
  /-- The link of a segment. -/
  | link (s : SegRef)
deriving DecidableEq, Repr

/-- What a cell holds. -/
inductive Content where
  /-- An object is its header and its value. -/
  | object (header : Header) (value : Value)
  /-- An element slot may name an object. -/
  | element (e : Option Ref)
  /-- A link is two flags and the next segment. -/
  | link (l : Link)
deriving DecidableEq, Repr

/-- The number of bytes of a cell. -/
def Cell.width : Cell → Nat
  | object _ => Heap.objectSize
  | element _ _ => 2
  | link _ => 2

namespace Heap

variable {h h' h'' h₀ : Heap} {r : Ref} {s : SegRef} {c : Cell} {X : Set Cell} {lo hi o : Nat}

/-- The cell is there. -/
def HasCell (h : Heap) : Cell → Prop
  | .object r => r.toNat < h.objectSlots
  | .element s k => s.toNat < h.segmentSlots ∧ k < slotsPerSegment
  | .link s => s.toNat < h.segmentSlots

/-- The offset of a cell. -/
def cellOffset (h : Heap) : Cell → Nat
  | .object r => objectOffset r
  | .element s k => h.slotOffset s k
  | .link s => h.linkOffset s

/-- What a cell holds. -/
def content (h : Heap) : Cell → Content
  | .object r => .object (h.header r) (h.value r)
  | .element s k => .element (h.element? s k)
  | .link s => .link (h.link s)

/-- The cells of a segment. -/
def segmentCells (s : SegRef) : Set Cell := {c | c = .link s ∨ ∃ k, c = .element s k}

/-! ### Bytes and their cells -/

/-- The cell that a byte belongs to. -/
def cellAt (h : Heap) (o : Nat) : Cell :=
  if o < h.objectEnd then .object (.ofNat (o / objectSize))
  else
    -- segments are counted from the last byte, so that the link comes before the elements
    let i := h.size - 1 - o
    let s : SegRef := .ofNat (i / segmentSize)
    if i % segmentSize < 2 then .link s else .element s ((segmentSize - 1 - i % segmentSize) / 2)

theorem cellAt_of_segment (layout : h.Layout) (hs : s.toNat < h.segmentSlots) {j : Nat}
    (hj : j < 22) : h.cellAt (h.segmentOffset s + j)
      = if j < 20 then .element s (j / 2) else .link s := by
  have hbounds := layout.segmentOffset_bounds hs
  have hordered := layout.ordered
  have hstart := layout.segmentStart_eq
  have hoffset := segmentOffset_eq h s
  have hi : h.size - 1 - (h.segmentOffset s + j) = s.toNat * 22 + (21 - j) := by omega
  have hdiv : (s.toNat * 22 + (21 - j)) / 22 = s.toNat := by omega
  have hmod : (s.toNat * 22 + (21 - j)) % 22 = 21 - j := by omega
  have hsize : segmentSize = 22 := rfl
  rw [cellAt, if_neg (by omega)]
  simp only [hi, hsize, hdiv, hmod, UInt16.ofNat_toNat]
  by_cases hl : j < 20
  · rw [if_neg (by omega), if_pos hl, show (22 - 1 - (21 - j)) / 2 = j / 2 by omega]
  · rw [if_pos (by omega), if_neg hl]

/-- The bytes of a cell belong to no other one. -/
theorem Layout.cellAt_eq (layout : h.Layout) (hc : h.HasCell c) (hlo : h.cellOffset c ≤ o)
    (hhi : o < h.cellOffset c + c.width) : h.cellAt o = c := by
  cases c with
  | object r =>
    have hle := layout.objectOffset_le hc
    have hoffset := objectOffset_eq r
    simp only [cellOffset, Cell.width, objectSize] at hlo hhi
    rw [cellAt, if_pos (by omega), objectSize, show o / 5 = r.toNat by omega, UInt16.ofNat_toNat]
  | element s k =>
    obtain ⟨hs, hk⟩ := hc
    have hk : k < 10 := hk
    simp only [cellOffset, Cell.width, slotOffset_eq] at hlo hhi
    obtain ⟨j, rfl⟩ := Nat.exists_eq_add_of_le (Nat.le_trans (Nat.le_add_right _ _) hlo)
    rw [cellAt_of_segment layout hs (by omega), if_pos (by omega), show j / 2 = k by omega]
  | link s =>
    simp only [cellOffset, Cell.width, linkOffset_eq] at hlo hhi
    obtain ⟨j, rfl⟩ := Nat.exists_eq_add_of_le (Nat.le_trans (Nat.le_add_right _ _) hlo)
    rw [cellAt_of_segment layout hc (by omega), if_neg (by omega)]

/-- What a cell holds is read from its bytes. -/
theorem content_eq_of_bytes (size : h'.size = h.size) (objects : h'.objectSlots = h.objectSlots)
    (segments : h'.segmentSlots = h.segmentSlots)
    (byte : ∀ o, h.cellOffset c ≤ o → o < h.cellOffset c + c.width → h'.byte o = h.byte o) :
    h'.content c = h.content c := by
  have word : ∀ o, h.cellOffset c ≤ o → o + 2 ≤ h.cellOffset c + c.width →
      h'.word o = h.word o := by
    intro o hlo hhi
    rw [Heap.word, Heap.word, byte o hlo (by omega), byte (o + 1) (by omega) (by omega)]
  cases c with
  | object r =>
    have own : ∀ i < 5, h'.byte (objectOffset r + i) = h.byte (objectOffset r + i) :=
      fun i hi => byte _ (Nat.le_add_right _ _) (Nat.add_lt_add_left hi _)
    rw [content, content, header_eq_of_byte objects fun _ => own 0 (by omega),
      value_eq_of_bytes objects fun _ => own]
  | element s k =>
    have hoffset : h'.slotOffset s k = h.slotOffset s k := by
      rw [slotOffset_eq, slotOffset_eq, segmentOffset_eq, segmentOffset_eq, size]
    have hword : h'.word (h.slotOffset s k) = h.word (h.slotOffset s k) := word _ le_rfl le_rfl
    rw [content, content, element?, element?, hoffset, hword]
  | link s =>
    have hoffset : h'.linkOffset s = h.linkOffset s := by
      rw [linkOffset_eq, linkOffset_eq, segmentOffset_eq, segmentOffset_eq, size]
    have hword : h'.word (h.linkOffset s) = h.word (h.linkOffset s) := word _ le_rfl le_rfl
    rw [content, content, link, link, segments, hoffset, hword]

/-! ### Writing -/

/-- The cells of `h` are cells of `h'` and hold the same, except for those of `X`. -/
structure ChangesOnly (X : Set Cell) (h h' : Heap) : Prop where
  /-- The edges are in place. -/
  layout : h'.Layout
  /-- The row is as long as it was. -/
  size : h'.size = h.size
  /-- The other cells are still there, -/
  hasCell : ∀ c ∉ X, h.HasCell c → h'.HasCell c
  /-- and hold what they held. -/
  content : ∀ c ∉ X, h.HasCell c → h'.content c = h.content c

namespace ChangesOnly

theorem trans (w : ChangesOnly X h h') (w' : ChangesOnly X h' h'') : ChangesOnly X h h'' where
  layout := w'.layout
  size := w'.size.trans w.size
  hasCell c hX hc := w'.hasCell c hX (w.hasCell c hX hc)
  content c hX hc := (w'.content c hX (w.hasCell c hX hc)).trans (w.content c hX hc)

/-- A write changes the cells that its bytes belong to. -/
theorem of_writesIn (layout : h.Layout) (w : WritesIn lo hi h h')
    (own : ∀ o, lo ≤ o → o < hi → h.cellAt o ∈ X) : ChangesOnly X h h' where
  layout := layout.of_writesIn w
  size := w.size
  hasCell c _ hc := by
    cases c <;> simpa only [HasCell, w.objectSlots, w.segmentSlots] using hc
  content c hX hc := by
    refine content_eq_of_bytes w.size w.objectSlots w.segmentSlots fun o hlo hhi => w.byte o ?_
    by_contra inside
    have hmem := own o (by omega) (by omega)
    rw [layout.cellAt_eq hc hlo hhi] at hmem
    exact hX hmem

/-- A write inside a cell changes that one. -/
theorem of_cell (layout : h.Layout) (hc : h.HasCell c)
    (w : WritesIn (h.cellOffset c) (h.cellOffset c + c.width) h h') : ChangesOnly {c} h h' :=
  .of_writesIn layout w fun _ hlo hhi => layout.cellAt_eq hc hlo hhi

end ChangesOnly

theorem changesOnly_setValue (layout : h.Layout) (hr : r.toNat < h.objectSlots) (v : Value) :
    ChangesOnly {.object r} h (h.setValue r v) :=
  .of_cell layout hr (writesIn_setValue h r v)

theorem changesOnly_setElement (layout : h.Layout) (hs : s.toNat < h.segmentSlots) {k : Nat}
    (hk : k < slotsPerSegment) (e : Option Ref) :
    ChangesOnly {.element s k} h (h.setElement s k e) :=
  .of_cell (c := .element s k) layout ⟨hs, hk⟩ (writesIn_setWord h _ _)

theorem changesOnly_setNext (layout : h.Layout) (hs : s.toNat < h.segmentSlots) (next : SegRef) :
    ChangesOnly {.link s} h (h.setNext s next) :=
  .of_cell (c := .link s) layout hs (writesIn_setWord h _ _)

theorem changesOnly_initObject (layout : h.Layout) (hr : r.toNat < h.objectSlots) :
    ChangesOnly {.object r} h (h.initObject r) :=
  .of_cell layout hr (writesIn_initObject h r)

theorem changesOnly_initSegment (layout : h.Layout) (hs : s.toNat < h.segmentSlots) :
    ChangesOnly (segmentCells s) h (h.initSegment s) := by
  refine .of_writesIn layout (writesIn_initSegment h s) fun o hlo hhi => ?_
  obtain ⟨j, rfl⟩ := Nat.exists_eq_add_of_le hlo
  rw [cellAt_of_segment layout hs (by omega)]
  split
  · exact .inr ⟨_, rfl⟩
  · exact .inl rfl

/-- An element slot has room for the index of every object. -/
theorem element?_setElement_eq (layout : h.Layout) (hs : s.toNat < h.segmentSlots) {k : Nat}
    (hk : k < slotsPerSegment) {e : Option Ref} (he : ∀ r, e = some r → r.toNat < h.objectSlots) :
    (h.setElement s k e).element? s k = e := by
  rw [element?_setElement layout hs hk, if_pos rfl]
  cases e with
  | none => rfl
  | some r => exact congrArg some (slotRef_of_lt (layout.lt_elementRange (he r rfl)))

/-! ### Making room -/

theorem ObjectRoom.changesOnly (m : ObjectRoom h r h₀) (layout : h.Layout) :
    ChangesOnly {.object r} h h₀ where
  layout := m.layout
  size := m.segments.size
  hasCell c _ hc := by
    cases c with
    | object r' => exact hc.trans_le m.slots
    | element s k => exact ⟨hc.1.trans_eq m.segments.slots.symm, hc.2⟩
    | link s => exact hc.trans_eq m.segments.slots.symm
  content c hX hc := by
    cases c with
    | object r' =>
      have ne : r' ≠ r := fun he => hX (congrArg Cell.object he)
      rw [content, content, m.header r' ne, m.value r' ne]
    | element s k => rw [content, content, m.segments.element? layout hc.1]
    | link s => rw [content, content, m.segments.link layout]

theorem SegmentRoom.changesOnly (m : SegmentRoom h s h₀) : ChangesOnly (segmentCells s) h h₀ where
  layout := m.layout
  size := m.size
  hasCell c _ hc := by
    cases c with
    | object r => exact hc.trans_eq m.objects.slots.symm
    | element s' k => exact ⟨hc.1.trans_le m.slots, hc.2⟩
    | link s' => exact hc.trans_le m.slots
  content c hX hc := by
    cases c with
    | object r => rw [content, content, m.objects.header, m.objects.value]
    | element s' k => rw [content, content, m.element?]
    | link s' =>
      have ne : s' ≠ s := fun he => hX (.inl (congrArg Cell.link he))
      rw [content, content, m.link s' ne]

/-! ### Handing out slots -/

/-- One side of the row. -/
structure Region where
  /-- The slot with an index is in use. -/
  used : Heap → UInt16 → Bool
  /-- The number of slots, free ones included. -/
  slots : Heap → Nat
  /-- The number of bytes of a slot. -/
  width : Nat
  /-- The cells of a slot. -/
  cells : UInt16 → Set Cell

/-- The objects on the left. -/
def objectRegion : Region := ⟨isValid, objectSlots, objectSize, fun r => {.object r}⟩

/-- The segments on the right. -/
def segmentRegion : Region := ⟨segmentIsValid, segmentSlots, segmentSize, segmentCells⟩

/-- All slots are in use. -/
def Region.Full (R : Region) (h : Heap) : Prop := ∀ i, i.toNat < R.slots h → R.used h i = true

variable {R : Region} {P P' : UInt16 → Heap → Prop} {x : HeapM UInt16}

/-- The operation hands out a slot of a region, of which `P` holds afterwards. -/
structure Allocates (R : Region) (P : UInt16 → Heap → Prop) (x : HeapM UInt16) (h : Heap) :
    Prop where
  /-- The slot is that with the lowest index that was not in use. Now it is in use, and nothing but
  its cells is different. If there is no slot, nothing is different. -/
  ends : Ends x h
    (fun i h' => IsLeast {j | R.used h j = false} i
      ∧ R.used h' i = true ∧ P i h' ∧ ChangesOnly (R.cells i) h h')
    fun _ h' => h' = h
  /-- There is no slot when all are in use and no other one fits between the regions. -/
  fails_iff : (∃ e h', x h = .error e h') ↔ R.Full h ∧ h.freeBytes < R.width

namespace Allocates

theorem of_ends (hx : Ends x h
    (fun i h' => (∀ j < i, R.used h j = true) ∧ R.used h i = false
      ∧ (R.Full h → R.width ≤ h.freeBytes)
      ∧ R.used h' i = true ∧ P i h' ∧ ChangesOnly (R.cells i) h h')
    fun _ h' => h' = h ∧ R.Full h ∧ h.freeBytes < R.width) : Allocates R P x h where
  ends := by
    refine hx.imp (fun i h' hi => ?_) fun _ _ he => he.1
    obtain ⟨lower, free, -, after⟩ := hi
    refine ⟨⟨free, fun j (hj : R.used h j = false) => ?_⟩, after⟩
    by_contra hle
    rw [lower j (UInt16.not_le.1 hle)] at hj
    cases hj
  fails_iff := by
    constructor
    · rintro ⟨e, h', hs⟩
      exact (hx.of_error hs).2
    · rintro ⟨full, small⟩
      cases hs : x h with
      | ok i h' => exact absurd ((hx.of_ok hs).2.2.1 full) (Nat.not_le.2 small)
      | error e h' => exact ⟨e, h', rfl⟩

/-- What was handed out may be written. -/
theorem overwrite (a : Allocates R P x h) {f : UInt16 → Heap → Heap}
    (hf : ∀ i h', h'.Layout → R.used h' i = true →
      R.used (f i h') i = true ∧ P' i (f i h') ∧ ChangesOnly (R.cells i) h' (f i h')) :
    Allocates R P' (do let i ← x; modify (f i); return i) h where
  ends := by
    refine ends_bind a.ends fun i h₁ hi => ?_
    obtain ⟨least, used, -, changes⟩ := hi
    obtain ⟨used', hP, changes'⟩ := hf i h₁ changes.layout used
    exact ends_bind (ends_modify (Q := fun _ h₂ => h₂ = f i h₁) rfl) fun _ _ he =>
      ends_pure (he ▸ ⟨least, used', hP, changes.trans changes'⟩)
  fails_iff := by
    rw [← a.fails_iff]
    cases hs : x h with
    | ok i h₁ =>
      have hrun : (do let i ← x; modify (f i); return i : HeapM UInt16) h = .ok i (f i h₁) := by
        rw [bind_of_ok hs]
        rfl
      rw [hrun]
      simp
    | error e h₁ => rw [bind_of_error hs]

end Allocates

theorem allocates_allocSlot (layout : h.Layout) :
    Allocates objectRegion (fun r h' => h'.value r = .nil) allocSlot h := by
  refine .of_ends ((allocSlot_takes layout).imp (fun r h' hr => ?_) fun _ _ => id)
  obtain ⟨lower, h₀, m, rfl⟩ := hr
  refine ⟨lower, m.free, m.objectSize_le layout, m.isValid_initObject, ?_,
    (m.changesOnly layout).trans (changesOnly_initObject m.layout m.lt)⟩
  rw [value, m.header_initObject]
  rfl

theorem allocates_allocValue (layout : h.Layout) (v : Value) :
    Allocates objectRegion (fun r h' => h'.value r = v) (allocValue v) h :=
  (allocates_allocSlot layout).overwrite fun r _ layout' hv =>
    have hr := lt_objectSlots_of_isValid hv
    ⟨(isValid_setValue layout' hr v r).trans hv, value_setValue layout' hv v,
      changesOnly_setValue layout' hr v⟩

theorem allocates_allocSegment (layout : h.Layout) :
    Allocates segmentRegion (fun s h' => h'.link s = { valid := true, next := noNext }
      ∧ ∀ k < slotsPerSegment, h'.element? s k = none) allocSegment h := by
  refine .of_ends ((allocSegment_takes layout).imp (fun s h' hs => ?_) fun _ _ => id)
  obtain ⟨lower, h₀, m, rfl⟩ := hs
  have n := m.newSegment
  refine ⟨lower, m.free, m.segmentSize_le layout, ?_, ⟨n.link, n.empty⟩,
    m.changesOnly.trans (changesOnly_initSegment m.layout m.lt)⟩
  change (h₀.initSegment s).segmentIsValid s = true
  rw [segmentIsValid, n.link]

/-- **The cells of a heap are independent.** A value, an element or a link that is written reads back
as it was written; an object that is overwritten is still valid, permanent and marked if it was, and
so is a segment whose link is written; and no other cell is changed. A new object or segment is that
with the lowest index that was not in use, and there is one unless all slots are in use and the room
between the regions is too small for another. -/
theorem cells_are_independent (layout : h.Layout) :
    (∀ r v, h.isValid r = true →
      (h.setValue r v).value r = v
      ∧ ((h.setValue r v).header r).valid = (h.header r).valid
      ∧ ((h.setValue r v).header r).permanent = (h.header r).permanent
      ∧ ((h.setValue r v).header r).mark = (h.header r).mark
      ∧ ChangesOnly {.object r} h (h.setValue r v))
    ∧ (∀ s k e, h.segmentIsValid s = true → k < slotsPerSegment →
      (∀ r, e = some r → r.toNat < h.objectSlots) →
      (h.setElement s k e).element? s k = e
      ∧ ChangesOnly {.element s k} h (h.setElement s k e))
    ∧ (∀ s next, h.segmentIsValid s = true → next.toNat < h.segmentSlots ∨ next = noNext →
      (h.setNext s next).link s = { h.link s with next }
      ∧ ChangesOnly {.link s} h (h.setNext s next))
    ∧ Allocates objectRegion (fun r h' => h'.value r = .nil) allocSlot h
    ∧ (∀ v, Allocates objectRegion (fun r h' => h'.value r = v) (allocValue v) h)
    ∧ Allocates segmentRegion (fun s h' => h'.link s = { valid := true, next := noNext }
      ∧ ∀ k < slotsPerSegment, h'.element? s k = none) allocSegment h := by
  refine ⟨fun r v hv => ?_, fun s k e hv hk he => ?_, fun s next hv hn => ?_,
    allocates_allocSlot layout, allocates_allocValue layout, allocates_allocSegment layout⟩
  · have hr := lt_objectSlots_of_isValid hv
    have hh := header_setValue layout hr v
    exact ⟨value_setValue layout hv v, by rw [hh], by rw [hh], by rw [hh],
      changesOnly_setValue layout hr v⟩
  · have hs := lt_segmentSlots_of_isValid hv
    exact ⟨element?_setElement_eq layout hs hk he, changesOnly_setElement layout hs hk e⟩
  · have hs := lt_segmentSlots_of_isValid hv
    refine ⟨link_setNext layout hs ?_, changesOnly_setNext layout hs next⟩
    rcases hn with hn | rfl
    · exact layout.lt_range hn
    · decide

/-- Two tables, a free slot and a word. There is no room between the objects and the segments. -/
@[irreducible] def brimful : Heap :=
  let fill : HeapM Unit := do
    let _ ← alloc .table
    let _ ← alloc .table
    let hole ← allocValue (.int 7)
    let _ ← allocValue (.userdata 70000)
    modify (·.invalidate hole)
  stateAfter fill (make 64)

theorem layout_brimful : brimful.Layout := by
  constructor <;> decide +kernel

theorem brimful_evaluates : brimful.objectSlots = 4 ∧ brimful.segmentSlots = 2
    ∧ brimful.isValid 3 = true ∧ brimful.segmentIsValid 0 = true
    ∧ (∀ i < 2, brimful.segmentIsValid (.ofNat i) = true) ∧ brimful.freeBytes < segmentSize
    ∧ answersWith allocSlot brimful (fun r _ => r == 2) = true := by
  decide +kernel

/-- The word is replaced by a function that captured the first table, the last element slot of the
first segment is filled, the first segment is linked to the second, the free slot is taken, and
there is no other segment. -/
theorem cells_of_brimful : brimful.Layout
    ∧ (brimful.isValid 3 = true
      ∧ (brimful.setValue 3 (.closure ⟨.host 65535, some 0⟩)).value 3
        = .closure ⟨.host 65535, some 0⟩
      ∧ ChangesOnly {.object 3} brimful
        (brimful.setValue 3 (.closure ⟨.host 65535, some 0⟩)))
    ∧ (brimful.segmentIsValid 0 = true
      ∧ (brimful.setElement 0 9 (some 3)).element? 0 9 = some 3
      ∧ ChangesOnly {.element 0 9} brimful (brimful.setElement 0 9 (some 3)))
    ∧ ((brimful.setNext 0 1).link 0 = { brimful.link 0 with next := 1 }
      ∧ ChangesOnly {.link 0} brimful (brimful.setNext 0 1))
    ∧ (∃ h', allocSlot brimful = .ok 2 h' ∧ IsLeast {r | brimful.isValid r = false} 2
      ∧ h'.value 2 = .nil ∧ ChangesOnly {.object 2} brimful h')
    ∧ ∃ e h', allocSegment brimful = .error e h' := by
  obtain ⟨value, element, link, slot, -, segment⟩ := cells_are_independent layout_brimful
  obtain ⟨hobjects, hsegments, hv, hs, hfull, hsmall, hrun⟩ := brimful_evaluates
  obtain ⟨hread, -, -, -, honly⟩ := value 3 (.closure ⟨.host 65535, some 0⟩) hv
  obtain ⟨r, h', hr, hr₂⟩ := exists_of_answersWith hrun
  obtain rfl := eq_of_beq hr₂
  obtain ⟨least, -, hnil, only⟩ := slot.ends.of_ok hr
  have full : segmentRegion.Full brimful := by
    intro s (hlt : s.toNat < brimful.segmentSlots)
    have := hfull s.toNat (hsegments ▸ hlt)
    rw [UInt16.ofNat_toNat] at this
    exact this
  refine ⟨layout_brimful, ⟨hv, hread, honly⟩, ⟨hs, element 0 9 (some 3) hs (by decide) ?_⟩,
    link 0 1 hs (.inl ?_), ⟨h', hr, least, hnil, only⟩, segment.fails_iff.2 ⟨full, hsmall⟩⟩
  · intro r hr
    rw [← Option.some.inj hr, hobjects]
    decide
  · rw [hsegments]
    decide

end Heap

end SwarmVm
