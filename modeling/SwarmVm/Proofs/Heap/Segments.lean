import SwarmVm.Proofs.Heap.WellFormed
import SwarmVm.Proofs.Outcome

/-!
# The writes that tables and arrays are made of

Filling an element slot, taking a segment, linking it behind another, naming another first segment
and giving a segment back: each of them is one step in the life of a well-formed heap, under a
condition on who owns the segments it names. Everything tables and arrays do is made of these steps.

## Main results

* `Heap.evolves_setElement` — an element slot is filled or emptied
* `Heap.allocSegment_takes`, `Heap.newSegment_allocSegment` — a segment is taken, that nobody owns
* `Heap.evolves_setNext`, `Heap.chain_setNext` — a chain goes on elsewhere
* `Heap.evolves_setTableHead`, `Heap.chain_setTableHead` — a chain starts elsewhere
* `Heap.evolves_freeSegment` — a segment that nobody owns is given back
-/

namespace SwarmVm

namespace Heap

variable {h h' h₀ : Heap} {r t e : Ref} {s p q : SegRef} {l l₁ l₂ : List SegRef} {A X : Set Ref}

/-- The object that an element slot names when it is filled with `r`. -/
def slotRef (r : Ref) : Ref := UInt16.ofNat (r.toNat % elementRange)

/-- An index that fits in a slot is stored as it is. -/
theorem slotRef_of_lt (hr : r.toNat < elementRange) : slotRef r = r := by
  rw [slotRef, Nat.mod_eq_of_lt hr, UInt16.ofNat_toNat]

/-- Every object has an index that fits in an element slot. -/
theorem slotRef_of_isValid (layout : h.Layout) (hv : h.isValid r = true) : slotRef r = r :=
  slotRef_of_lt (layout.lt_elementRange (lt_objectSlots_of_isValid hv))

/-! ### Elements -/

theorem evolves_setElement (wf : h.WellFormed) (hs : s.toNat < h.segmentSlots) {k : Nat}
    (hk : k < slotsPerSegment) {e : Option Ref} (he : ∀ r, e = some r → slotRef r ∈ A) :
    Evolves ∅ A h (h.setElement s k e) := by
  have w := writesIn_setElement h s hk e
  refine evolves_of_elements wf (wf.layout.of_writesIn w) w.size
    (WritesIn.sameObjects_of_segment wf.layout hs w)
    (fun r _ s' _ => link_setElement wf.layout hs hk e s') fun r ht s' hs' k' hk' x hx => ?_
  by_cases ne : s' = s
  · subst ne
    rw [element?_setElement wf.layout hs hk] at hx
    split at hx
    · obtain ⟨r', hr', rfl⟩ := Option.map_eq_some_iff.1 hx
      exact .inr (he r' hr')
    · exact .inl hx
  · rw [WritesIn.element?_of_ne wf.layout hs (wf.segment_lt ht hs') ne w hk'] at hx
    exact .inl hx

/-- Filling an element slot changes no chain. -/
theorem chain_setElement (wf : h.WellFormed) (hs : s.toNat < h.segmentSlots) {k : Nat}
    (hk : k < slotsPerSegment) (e : Option Ref) (ht : h.IsTable t) :
    (h.setElement s k e).chain t = h.chain t := by
  have o := WritesIn.sameObjects_of_segment wf.layout hs (writesIn_setElement h s hk e)
  refine Linked.chain_eq ?_
  rw [o.tableHead]
  exact (wf.linked t ht).congr fun s' _ => link_setElement wf.layout hs hk e s'

/-! ### Taking a segment -/

theorem writesIn_clearElements (h : Heap) (s : SegRef) {n : Nat} (hn : n ≤ slotsPerSegment) :
    WritesIn (h.segmentOffset s) (h.segmentOffset s + 22) h
      ((List.range n).foldl (fun h k => h.setElement s k none) h) := by
  induction n with
  | zero => exact .refl _ _ _
  | succ n ih =>
    rw [List.range_succ, List.foldl_append]
    have w := ih (by omega)
    have w' := writesIn_setElement
      ((List.range n).foldl (fun h k => h.setElement s k none) h) s (k := n) (by omega) none
    rw [w.segmentOffset] at w'
    exact w.trans w'

theorem element?_clearElements (layout : h.Layout) (hs : s.toNat < h.segmentSlots) {n k : Nat}
    (hn : n ≤ slotsPerSegment) (hk : k < n) :
    ((List.range n).foldl (fun h k => h.setElement s k none) h).element? s k = none := by
  induction n with
  | zero => omega
  | succ n ih =>
    have w := writesIn_clearElements h s (n := n) (by omega)
    rw [List.range_succ, List.foldl_append, List.foldl_cons, List.foldl_nil,
      element?_setElement (layout.of_writesIn w) (by rw [w.segmentSlots]; exact hs) (by omega)]
    split
    · rfl
    · exact ih (by omega) (by omega)

theorem writesIn_initSegment (h : Heap) (s : SegRef) :
    WritesIn (h.segmentOffset s) (h.segmentOffset s + 22) h (h.initSegment s) := by
  have w := writesIn_clearElements h s le_rfl
  have w' := writesIn_setLink
    ((List.range slotsPerSegment).foldl (fun h k => h.setElement s k none) h) s
    { valid := true, next := noNext }
  rw [w.segmentOffset] at w'
  exact w.trans w'

theorem link_initSegment (layout : h.Layout) (hs : s.toNat < h.segmentSlots) :
    (h.initSegment s).link s = { valid := true, next := noNext } := by
  have w := writesIn_clearElements h s le_rfl
  exact link_setLink (layout.of_writesIn w) (by rw [w.segmentSlots]; exact hs) (by decide)

theorem element?_initSegment (layout : h.Layout) (hs : s.toNat < h.segmentSlots) {k : Nat}
    (hk : k < slotsPerSegment) : (h.initSegment s).element? s k = none := by
  have w := writesIn_clearElements h s le_rfl
  have hs' : s.toNat < _ := w.segmentSlots.symm ▸ hs
  rw [initSegment, element?_setLink (layout.of_writesIn w) hs' _ hs' hk]
  exact element?_clearElements layout hs le_rfl hk

/-- `s` was free and is an empty segment now, and nothing else is different. -/
structure NewSegment (h : Heap) (s : SegRef) (h' : Heap) : Prop where
  /-- The edges are in place. -/
  layout : h'.Layout
  /-- The row is as long as it was. -/
  size : h'.size = h.size
  /-- The objects are the same. -/
  objects : SameObjects h h'
  /-- The segment was free. -/
  free : h.segmentIsValid s = false
  /-- It is a chain of its own now. -/
  link : h'.link s = { valid := true, next := noNext }
  /-- It is empty. -/
  empty : ∀ k < slotsPerSegment, h'.element? s k = none
  /-- The other links are the same. -/
  links : ∀ s', h.segmentIsValid s' = true → h'.link s' = h.link s'
  /-- The other elements are the same. -/
  elements : ∀ s', h.segmentIsValid s' = true → ∀ k < slotsPerSegment,
    h'.element? s' k = h.element? s' k

/-- The heap with the edge of the segments moved out by one slot. -/
def withSegmentSlot (h : Heap) : Heap := { h with segmentStart := h.segmentStart - segmentSize }

theorem layout_withSegmentSlot (layout : h.Layout)
    (room : h.objectEnd + segmentSize ≤ h.segmentStart) : h.withSegmentSlot.Layout := by
  have hs := layout.segmentStart_eq
  have := layout.inside
  simp only [segmentSize, slotsPerSegment, pairsPerSegment] at room
  refine ⟨layout.accepted, ?_, ?_, layout.objects, ⟨h.segmentSlots + 1, ?_⟩⟩
  · change h.objectEnd ≤ h.segmentStart - 22
    omega
  · change h.segmentStart - 22 ≤ h.size
    omega
  · change h.size - (h.segmentStart - 22) = 22 * (h.segmentSlots + 1)
    omega

theorem segmentSlots_withSegmentSlot (layout : h.Layout)
    (room : h.objectEnd + segmentSize ≤ h.segmentStart) :
    h.withSegmentSlot.segmentSlots = h.segmentSlots + 1 := by
  have hs := layout.segmentStart_eq
  have := layout.inside
  simp only [segmentSize, slotsPerSegment, pairsPerSegment] at room
  change (h.size - (h.segmentStart - 22)) / 22 = h.segmentSlots + 1
  omega

theorem link_withSegmentSlot (layout : h.Layout)
    (room : h.objectEnd + segmentSize ≤ h.segmentStart) (hs : s.toNat < h.segmentSlots) :
    h.withSegmentSlot.link s = h.link s := by
  rw [link, link, segmentSlots_withSegmentSlot layout room, if_pos (by omega), if_pos hs]
  rfl

/-- `h₀` has a slot for the segment `s`, which is free in `h`, and is the same otherwise. -/
structure SegmentRoom (h : Heap) (s : SegRef) (h₀ : Heap) : Prop where
  /-- The edges are in place. -/
  layout : h₀.Layout
  /-- The row is as long as it was. -/
  size : h₀.size = h.size
  /-- No slot is lost, -/
  slots : h.segmentSlots ≤ h₀.segmentSlots
  /-- and that of the segment is there. -/
  lt : s.toNat < h₀.segmentSlots
  /-- It is free. -/
  free : h.segmentIsValid s = false
  /-- The objects are the same. -/
  objects : SameObjects h h₀
  /-- The other links are the same. -/
  link : ∀ s', s' ≠ s → h₀.link s' = h.link s'
  /-- All elements are the same. -/
  element? : ∀ s' k, h₀.element? s' k = h.element? s' k

/-- The segment is taken from the lowest free slot, or from a new one when none is free. It fails
when there is neither. -/
theorem allocSegment_takes (layout : h.Layout) : Ends allocSegment h
    (fun s h' => (∀ s' < s, h.segmentIsValid s' = true)
      ∧ ∃ h₀, SegmentRoom h s h₀ ∧ h' = h₀.initSegment s)
    fun _ h' => h' = h ∧ (∀ s, s.toNat < h.segmentSlots → h.segmentIsValid s = true)
      ∧ h.freeBytes < segmentSize := by
  have hle := layout.segmentSlots_le
  rw [ends_iff, allocSegment]
  cases hf : h.freeSegment? with
  | some i =>
    obtain ⟨hs, free, lower⟩ := lowest_of_find?_eq_some (by omega) hf
    exact ⟨lower, h, ⟨layout, rfl, le_rfl, hs, free, ⟨rfl, fun _ _ => rfl⟩, fun _ _ => rfl,
      fun _ _ => rfl⟩, rfl⟩
  | none =>
    by_cases room : h.objectEnd + segmentSize ≤ h.segmentStart
    · simp only [room, if_true]
      have hn : (UInt16.ofNat h.segmentSlots).toNat = h.segmentSlots := toNat_ofNat_of_lt (by omega)
      have hslots := segmentSlots_withSegmentSlot layout room
      refine ⟨fun s' hs' => used_of_find?_eq_none hf ((UInt16.lt_iff_toNat_lt.1 hs').trans_eq hn),
        h.withSegmentSlot, ⟨layout_withSegmentSlot layout room, rfl, by omega, by omega, ?_,
          ⟨rfl, fun _ _ => rfl⟩, fun s' ne => ?_, fun _ _ => rfl⟩, rfl⟩
      · rw [segmentIsValid, link, hn, if_neg (lt_irrefl _)]
      · have hne : s'.toNat ≠ h.segmentSlots := fun he => ne (UInt16.toNat_inj.1 (he.trans hn.symm))
        rcases Nat.lt_or_gt_of_ne hne with hlt | hgt
        · exact link_withSegmentSlot layout room hlt
        · rw [link, link, if_neg (by omega), if_neg (by omega)]
    · simp only [room, if_false]
      refine ⟨trivial, fun _ => used_of_find?_eq_none hf, ?_⟩
      rw [freeBytes]
      rw [segmentSize] at room ⊢
      omega

namespace SegmentRoom

/-- A slot that is behind all others takes its bytes from the room between the regions. -/
theorem segmentSize_le (m : SegmentRoom h s h₀) (layout : h.Layout)
    (full : ∀ s, s.toNat < h.segmentSlots → h.segmentIsValid s = true) :
    segmentSize ≤ h.freeBytes := by
  have behind : h.segmentSlots ≤ s.toNat := by
    by_contra hs
    have hv := full s (by omega)
    rw [m.free] at hv
    cases hv
  have hstart := layout.segmentStart_eq
  have hstart₀ := m.layout.segmentStart_eq
  have hend := layout.objectEnd_eq
  have hend₀ := m.layout.objectEnd_eq
  have hordered₀ := m.layout.ordered
  have hlt := m.lt
  rw [m.size] at hstart₀
  rw [m.objects.slots] at hend₀
  rw [show segmentSize = 22 from rfl, freeBytes]
  omega

theorem newSegment (m : SegmentRoom h s h₀) : h.NewSegment s (h₀.initSegment s) := by
  have w := writesIn_initSegment h₀ s
  have o := WritesIn.sameObjects_of_segment m.layout m.lt w
  have hne : ∀ s', h.segmentIsValid s' = true → s' ≠ s := by
    rintro s' hs' rfl
    rw [m.free] at hs'
    cases hs'
  refine ⟨m.layout.of_writesIn w, w.size.trans m.size, ⟨o.slots.trans m.objects.slots,
    fun i hi => (o.byte i (m.objects.slots ▸ hi)).trans (m.objects.byte i hi)⟩, m.free,
    link_initSegment m.layout m.lt, fun k hk => element?_initSegment m.layout m.lt hk,
    fun s' hs' => ?_, fun s' hs' k hk => ?_⟩
  · exact (WritesIn.link_of_ne m.layout m.lt (hne s' hs') w).trans (m.link s' (hne s' hs'))
  · have hlt := (lt_segmentSlots_of_isValid hs').trans_le m.slots
    exact (WritesIn.element?_of_ne m.layout m.lt hlt (hne s' hs') w hk).trans (m.element? s' k)

end SegmentRoom

/-- The segment was not in use where it is taken. -/
theorem newSegment_allocSegment (layout : h.Layout) :
    Ends allocSegment h (fun s h' => h.NewSegment s h') fun _ h' => h' = h := by
  refine (allocSegment_takes layout).imp (fun s h' hs => ?_) fun _ _ he => he.1
  obtain ⟨-, h₀, m, rfl⟩ := hs
  exact m.newSegment

namespace NewSegment

theorem evolves (n : h.NewSegment s h') (wf : h.WellFormed) : Evolves ∅ A h h' := by
  refine evolves_of_elements wf n.layout n.size n.objects (fun r ht s' hs' => ?_)
    fun r ht s' hs' k hk e he => ?_
  · exact n.links s' (wf.segmentIsValid ht hs')
  · rw [n.elements s' (wf.segmentIsValid ht hs') k hk] at he
    exact .inl he

theorem chain (n : h.NewSegment s h') (wf : h.WellFormed) (ht : h.IsTable t) :
    h'.chain t = h.chain t := by
  refine Linked.chain_eq ?_
  rw [n.objects.tableHead]
  exact (wf.linked t ht).congr fun s' hs' => n.links s' (wf.segmentIsValid ht hs')

theorem linked (n : h.NewSegment s h') : h'.Linked s [s] := by
  have hv : h'.segmentIsValid s = true := by rw [segmentIsValid, n.link]
  refine ⟨rfl, n.layout.ne_noNext (lt_segmentSlots_of_isValid hv), hv, ?_⟩
  rw [Linked, next, n.link]

theorem unowned (n : h.NewSegment s h') (wf : h.WellFormed) : h'.Unowned s := by
  intro t ht hs
  have ht : h.IsTable t := (n.objects.sameButHeads.isTable_iff t).1 ht
  rw [n.chain wf ht] at hs
  exact unowned_of_not_valid wf n.free t ht hs

end NewSegment

/-! ### Links -/

theorem Linked.lt_range (layout : h.Layout) (hl : h.Linked q l) : q.toNat < Link.range := by
  cases l with
  | nil =>
    rw [show q = noNext from hl]
    decide
  | cons x l => exact layout.lt_range (lt_segmentSlots_of_isValid hl.2.2.1)

theorem link_setNext (layout : h.Layout) (hp : p.toNat < h.segmentSlots)
    (hq : q.toNat < Link.range) : (h.setNext p q).link p = { h.link p with next := q } :=
  link_setLink layout hp hq

theorem link_setNext_of_ne (layout : h.Layout) (hp : p.toNat < h.segmentSlots) (ne : s ≠ p) :
    (h.setNext p q).link s = h.link s :=
  WritesIn.link_of_ne layout hp ne (writesIn_setLink h p _)

/-- The chain of a table behind one of its segments is replaced. -/
theorem linked_setNext (wf : h.WellFormed) (ht : h.IsTable t) (hc : h.chain t = l₁ ++ p :: l₂)
    (hq : h.Linked q l) (hpl : p ∉ l) :
    (h.setNext p q).Linked ((h.setNext p q).tableHead t) (l₁ ++ p :: l) := by
  have hl := wf.linked t ht
  rw [hc] at hl
  have hp : p.toNat < h.segmentSlots := hl.lt (by simp)
  have o := WritesIn.sameObjects_of_segment wf.layout hp (writesIn_setLink h p
    { h.link p with next := q })
  have hlink := link_setNext wf.layout hp (hq.lt_range wf.layout)
  have hnodup := hl.nodup
  rw [List.nodup_append] at hnodup
  rw [show (h.setNext p q).tableHead t = h.tableHead t from o.tableHead t]
  refine hl.replace_tail (fun y hy => ?_) ?_ ?_
  · exact link_setNext_of_ne wf.layout hp (hnodup.2.2 y hy p List.mem_cons_self)
  · rw [segmentIsValid, hlink]
    exact hl.isValid p (by simp)
  · rw [next, hlink]
    exact hq.congr fun y hy => link_setNext_of_ne wf.layout hp (ne_of_mem_of_not_mem hy hpl)

theorem chain_setNext (wf : h.WellFormed) (ht : h.IsTable t) (hc : h.chain t = l₁ ++ p :: l₂)
    (hq : h.Linked q l) (hpl : p ∉ l) : (h.setNext p q).chain t = l₁ ++ p :: l :=
  (linked_setNext wf ht hc hq hpl).chain_eq

theorem chain_setNext_of_ne (wf : h.WellFormed) (ht : h.IsTable t) (hp : p ∈ h.chain t)
    (hr : h.IsTable r) (ne : r ≠ t) : (h.setNext p q).chain r = h.chain r := by
  have hlt := wf.segment_lt ht hp
  have o := WritesIn.sameObjects_of_segment wf.layout hlt (writesIn_setLink h p
    { h.link p with next := q })
  refine Linked.chain_eq ?_
  rw [show (h.setNext p q).tableHead r = h.tableHead r from o.tableHead r]
  refine (wf.linked r hr).congr fun s hs => link_setNext_of_ne wf.layout hlt ?_
  exact fun e => wf.disjoint r t hr ht ne hs (e ▸ hp)

/-- A chain may go on with segments of its own, or with ones that nobody owns. -/
theorem evolves_setNext (wf : h.WellFormed) (ht : h.IsTable t) (hc : h.chain t = l₁ ++ p :: l₂)
    (hq : h.Linked q l) (hpl : p ∉ l) (sub : ∀ s ∈ l, s ∈ l₂ ∨ h.Unowned s)
    (elements : ∀ s ∈ l, h.Unowned s → ∀ k < slotsPerSegment, ∀ e, h.element? s k = some e →
      e ∈ A) : Evolves ∅ A h (h.setNext p q) := by
  have hpc : p ∈ h.chain t := by rw [hc]; simp
  have hp := wf.segment_lt ht hpc
  have w : WritesIn _ _ h (h.setNext p q) := writesIn_setLink h p _
  have o := WritesIn.sameObjects_of_segment wf.layout hp w
  have helement : ∀ s, s.toNat < h.segmentSlots → ∀ k < slotsPerSegment,
      (h.setNext p q).element? s k = h.element? s k := by
    intro s hs k hk
    exact element?_setLink wf.layout hp _ hs hk
  refine evolves_of_chain wf (wf.layout.of_writesIn w) w.size o.sameButHeads t
    (fun r _ _ => o.tableHead r) (fun r ne hr s hs => ?_) (fun r ne hr s hs k hk e he => ?_)
    fun _ => ⟨_, linked_setNext wf ht hc hq hpl, fun s hs => ?_, fun s hs k hk e he => ?_⟩
  · exact link_setNext_of_ne wf.layout hp fun e => wf.disjoint r t hr ht ne hs (e ▸ hpc)
  · rw [helement s (wf.segment_lt hr hs) k hk] at he
    exact .inl he
  · rw [hc]
    rcases List.mem_append.1 hs with hs | hs
    · exact .inl (List.mem_append_left _ hs)
    · rcases List.mem_cons.1 hs with rfl | hs
      · exact .inl (by simp)
      · exact (sub s hs).imp_left fun hs => by simp [hs]
  · -- a segment of the old chain brings nothing new, and one that nobody owned only given objects
    have hold : s ∈ h.chain t → h.PointsTo t e ∨ e ∈ A := by
      intro hmem
      rw [helement s (wf.segment_lt ht hmem) k hk] at he
      exact .inl ((wf.pointsTo_iff ht).2 ⟨s, hmem, k, hk, he⟩)
    rcases List.mem_append.1 hs with hs | hs
    · exact hold (by rw [hc]; exact List.mem_append_left _ hs)
    · rcases List.mem_cons.1 hs with rfl | hs
      · exact hold hpc
      · rcases sub s hs with hmem | hfree
        · exact hold (by rw [hc]; simp [hmem])
        · rw [helement s (hq.lt hs) k hk] at he
          exact .inr (elements s hs hfree k hk e he)

/-! ### First segments -/

theorem header_setTableHead (h : Heap) (t r : Ref) (q : SegRef) :
    (h.setTableHead t q).header r = h.header r := by
  have w : WritesIn _ _ h (h.setTableHead t q) := writesIn_setWord h (objectOffset t + 1) q
  refine header_eq_of_byte w.objectSlots fun _ => w.byte _ ?_
  rw [objectOffset_eq, objectOffset_eq]
  omega

theorem tableHead_setTableHead (layout : h.Layout) (ht : h.IsTable t) (q : SegRef) :
    (h.setTableHead t q).tableHead t = q := by
  have := layout.objectOffset_le (lt_objectSlots_of_isValid ht.1)
  have := layout.ordered
  have := layout.inside
  rw [tableHead, kind, header_setTableHead, if_pos (show (h.header t).kind = .table from ht.2),
    setTableHead, word_setWord (by omega)]

theorem linked_setTableHead (layout : h.Layout) (ht : h.IsTable t) (hq : h.Linked q l) :
    (h.setTableHead t q).Linked ((h.setTableHead t q).tableHead t) l := by
  have g := WritesIn.sameSegments_of_object layout (lt_objectSlots_of_isValid ht.1)
    (writesIn_setTableHead h t q)
  rw [tableHead_setTableHead layout ht]
  exact hq.congr fun s _ => g.link layout s

theorem chain_setTableHead (layout : h.Layout) (ht : h.IsTable t) (hq : h.Linked q l) :
    (h.setTableHead t q).chain t = l :=
  (linked_setTableHead layout ht hq).chain_eq

theorem chain_setTableHead_of_ne (wf : h.WellFormed) (ht : h.IsTable t) (hr : h.IsTable r)
    (ne : r ≠ t) : (h.setTableHead t q).chain r = h.chain r := by
  have w := writesIn_setTableHead h t q
  have g := WritesIn.sameSegments_of_object wf.layout (lt_objectSlots_of_isValid ht.1) w
  refine Linked.chain_eq ?_
  rw [w.tableHead_of_ne ne]
  exact (wf.linked r hr).congr fun s _ => g.link wf.layout s

/-- A table may start with a later segment of its chain. -/
theorem evolves_setTableHead (wf : h.WellFormed) (ht : h.IsTable t) (hq : h.Linked q l)
    (sub : ∀ s ∈ l, s ∈ h.chain t) : Evolves ∅ A h (h.setTableHead t q) := by
  have w := writesIn_setTableHead h t q
  have g := WritesIn.sameSegments_of_object wf.layout (lt_objectSlots_of_isValid ht.1) w
  have objects : SameButHeads h (h.setTableHead t q) := by
    refine ⟨fun r => ?_, fun r => ?_, fun r => ?_, fun r hk => w.value_of_ne ?_⟩
    · rw [isValid, header_setTableHead, isValid]
    · rw [header_setTableHead]
    · rw [kind, header_setTableHead, kind]
    · rintro rfl
      exact hk ht.2
  refine evolves_of_chain wf (wf.layout.of_writesIn w) w.size objects t
    (fun r ne _ => w.tableHead_of_ne ne) (fun r _ _ s _ => g.link wf.layout s)
    (fun r _ hr s hs k _ e he => ?_)
    fun _ => ⟨l, linked_setTableHead wf.layout ht hq, fun s hs => .inl (sub s hs),
      fun s hs k hk e he => ?_⟩
  · rw [g.element? wf.layout (wf.segment_lt hr hs)] at he
    exact .inl he
  · rw [g.element? wf.layout (hq.lt hs)] at he
    exact .inl ((wf.pointsTo_iff ht).2 ⟨s, sub s hs, k, hk, he⟩)

/-! ### Giving a segment back -/

theorem evolves_freeSegment (wf : h.WellFormed) (hs : h.Unowned s) :
    Evolves ∅ A h (h.freeSegment s) := by
  rw [freeSegment]
  split
  · next hlt =>
    have w := writesIn_setLink h s {}
    refine evolves_of_elements wf (wf.layout.of_writesIn w) w.size
      (WritesIn.sameObjects_of_segment wf.layout hlt w) (fun r hr s' hs' => ?_)
      fun r hr s' hs' k hk e he => ?_
    · exact WritesIn.link_of_ne wf.layout hlt (fun e => hs r hr (e ▸ hs')) w
    · rw [element?_setLink wf.layout hlt _ (wf.segment_lt hr hs') hk] at he
      exact .inl he
  · exact .refl wf

end Heap

end SwarmVm
