import SwarmVm.Proofs.Heap.Reachability
import Mathlib.Data.Set.Card

/-!
# Collections are exact

A collection keeps the objects that can be reached and the segments on their chains, and nothing
else. This holds of every heap whose edges are in place, whatever its slots hold: elements may name
free slots, chains may be shared or run in a circle.

After the marking (`Reachability`) every slot is swept by its own mark alone, so a sweep is
described by what it does to one header and one link; and then the edges move over free slots, which
no valid index notices.

## Main definitions

* `Header.swept`, `Link.swept` — a header and a link after a sweep
* `Heap.Collected` — what a collection leaves behind

## Main results

* `Heap.header_sweepObjects`, `Heap.link_sweepSegments` — the sweeps, slot by slot
* `Heap.collected_collect` — every collection is exact
-/

namespace SwarmVm

/-- The header of an object after a sweep. -/
def Header.swept (header : Header) (marked : Bool) : Header :=
  if header.valid then if marked then { header with mark := true } else Header.free else header

/-- The link of a segment after a sweep. -/
def Link.swept (link : Link) (marked : Bool) : Link :=
  if link.valid then if marked then { link with mark := true } else {} else link

theorem Header.valid_swept (header : Header) (marked : Bool) :
    (header.swept marked).valid = (header.valid && marked) := by
  obtain ⟨_, valid, _⟩ := header
  cases valid <;> cases marked <;> rfl

/-- A header that is still valid is marked, and otherwise as it was. -/
theorem Header.swept_of_valid {header : Header} {marked : Bool}
    (hv : (header.swept marked).valid = true) :
    header.swept marked = { header with mark := true } := by
  rw [Header.valid_swept, Bool.and_eq_true] at hv
  rw [Header.swept, if_pos hv.1, if_pos hv.2]

theorem Link.valid_swept (link : Link) (marked : Bool) :
    (link.swept marked).valid = (link.valid && marked) := by
  obtain ⟨valid, _, _⟩ := link
  cases valid <;> cases marked <;> rfl

/-- A link that is still in use is marked, and otherwise as it was. -/
theorem Link.swept_of_valid {link : Link} {marked : Bool}
    (hv : (link.swept marked).valid = true) : link.swept marked = { link with mark := true } := by
  rw [Link.valid_swept, Bool.and_eq_true] at hv
  rw [Link.swept, if_pos hv.1, if_pos hv.2]

namespace Heap

variable {h g g' : Heap} {r : Ref} {s : SegRef} {n : Nat} {marks : Array Bool}

/-! ### Sweeping segments -/

theorem writesIn_sweepSegment (h : Heap) (s : SegRef) (marked : Bool) :
    WritesIn (h.segmentOffset s) (h.segmentOffset s + 22) h (h.sweepSegment s marked) := by
  rw [sweepSegment, freeSegment]
  split_ifs
  · exact writesIn_setLink h s _
  · exact writesIn_setLink h s _
  · exact .refl _ _ _
  · exact .refl _ _ _

theorem link_sweepSegment (l : h.Layout) (s : SegRef) (marked : Bool) :
    (h.sweepSegment s marked).link s = (h.link s).swept marked := by
  rw [sweepSegment, Link.swept]
  by_cases hv : h.segmentIsValid s = true
  · have hs := lt_segmentSlots_of_isValid hv
    have hv' : (h.link s).valid = true := hv
    rw [if_pos hv, if_pos hv', freeSegment, if_pos hs]
    cases marked with
    | true => exact link_setLink l hs (k := { h.link s with mark := true }) (next_lt h s)
    | false => exact link_setLink l hs (k := {}) (by decide)
  · have hv' : ¬ (h.link s).valid = true := hv
    rw [if_neg hv, if_neg hv']

theorem element?_sweepSegment (l : h.Layout) {s' : SegRef} (hs' : s'.toNat < h.segmentSlots)
    {k : Nat} (hk : k < slotsPerSegment) (marked : Bool) :
    (h.sweepSegment s marked).element? s' k = h.element? s' k := by
  by_cases hv : h.segmentIsValid s = true
  · have hs := lt_segmentSlots_of_isValid hv
    rw [sweepSegment, if_pos hv, freeSegment, if_pos hs]
    split <;> exact element?_setLink l hs _ hs' hk
  · rw [sweepSegment, if_neg hv]

/-- The first `n` segments of `h` are swept in `g`, and nothing else is different. -/
structure SegmentsSwept (marks : Array Bool) (n : Nat) (h g : Heap) : Prop where
  /-- Only segments are written. -/
  writes : WritesIn h.segmentStart h.size h g
  /-- The links are swept. -/
  link : ∀ s, g.link s
    = if s.toNat < n then (h.link s).swept (marks.getD s.toNat false) else h.link s
  /-- The elements are not touched. -/
  element : ∀ s, s.toNat < h.segmentSlots → ∀ k < slotsPerSegment, g.element? s k = h.element? s k

theorem SegmentsSwept.step (l : h.Layout) (hn : n < h.segmentSlots)
    (sw : SegmentsSwept marks n h g) :
    SegmentsSwept marks (n + 1) h (g.sweepSegment (UInt16.ofNat n) (marks.getD n false)) := by
  have hle := l.segmentSlots_le
  have hsn : (UInt16.ofNat n).toNat = n := toNat_ofNat_of_lt (by omega)
  have lg := l.of_writesIn sw.writes
  have hs : (UInt16.ofNat n).toNat < g.segmentSlots := by rw [hsn, sw.writes.segmentSlots]; exact hn
  have w := writesIn_sweepSegment g (UInt16.ofNat n) (marks.getD n false)
  obtain ⟨hlo, hhi⟩ := lg.segmentOffset_bounds hs
  rw [sw.writes.segmentStart] at hlo
  rw [sw.writes.size] at hhi
  refine ⟨sw.writes.trans (w.mono hlo hhi), fun s => ?_, fun s hs' k hk => ?_⟩
  · by_cases hsn' : s = UInt16.ofNat n
    · subst hsn'
      rw [link_sweepSegment lg, sw.link, hsn, if_neg (lt_irrefl n), if_pos (Nat.lt_succ_self n)]
    · have hne : s.toNat ≠ n := fun e => hsn' (UInt16.toNat_inj.1 (e.trans hsn.symm))
      rw [WritesIn.link_of_ne lg hs hsn' w, sw.link]
      simp only [show s.toNat < n + 1 ↔ s.toNat < n by omega]
  · rw [element?_sweepSegment lg (by rw [sw.writes.segmentSlots]; exact hs') hk,
      sw.element s hs' k hk]

theorem segmentsSwept_foldl (l : h.Layout) (marks : Array Bool) (hn : n ≤ h.segmentSlots) :
    SegmentsSwept marks n h ((List.range n).foldl
      (fun h i => h.sweepSegment (UInt16.ofNat i) (marks.getD i false)) h) := by
  induction n with
  | zero => exact ⟨.refl _ _ _, fun s => by simp, fun _ _ _ _ => rfl⟩
  | succ n ih =>
    rw [List.range_succ, List.foldl_append]
    exact (ih (by omega)).step l (by omega)

theorem segmentsSwept_sweepSegments (l : h.Layout) (marks : Array Bool) :
    SegmentsSwept marks h.segmentSlots h (h.sweepSegments marks) :=
  segmentsSwept_foldl l marks le_rfl

theorem link_sweepSegments (l : h.Layout) (marks : Array Bool) (s : SegRef) :
    (h.sweepSegments marks).link s = (h.link s).swept (marks.getD s.toNat false) := by
  rw [(segmentsSwept_sweepSegments l marks).link]
  split
  · rfl
  · next hs => rw [link, if_neg hs]; rfl

/-! ### Sweeping objects -/

theorem writesIn_sweepObject (h : Heap) (r : Ref) (marked : Bool) :
    WritesIn (objectOffset r) (objectOffset r + 1) h (h.sweepObject r marked) := by
  rw [sweepObject, invalidate]
  split_ifs
  · exact writesIn_setByte h _ _
  · exact writesIn_setByte h _ _
  · exact .refl _ _ _
  · exact .refl _ _ _

theorem header_sweepObject (l : h.Layout) (r : Ref) (marked : Bool) :
    (h.sweepObject r marked).header r = (h.header r).swept marked := by
  rw [sweepObject, Header.swept]
  by_cases hv : h.isValid r = true
  · have hr := lt_objectSlots_of_isValid hv
    have hv' : (h.header r).valid = true := hv
    rw [if_pos hv, if_pos hv', invalidate, if_pos hr]
    cases marked with
    | true =>
      exact header_setHeader l hr (d := { h.header r with mark := true }) (tag_header_lt h r)
    | false => exact header_setHeader l hr (d := Header.free) (by decide)
  · have hv' : ¬ (h.header r).valid = true := hv
    rw [if_neg hv, if_neg hv']

/-- The first `n` objects of `h` are swept in `g`, and nothing else is different. -/
structure ObjectsSwept (marks : Array Bool) (n : Nat) (h g : Heap) : Prop where
  /-- Only objects are written. -/
  writes : WritesIn 0 h.objectEnd h g
  /-- The headers are swept. -/
  header : ∀ r, g.header r
    = if r.toNat < n then (h.header r).swept (marks.getD r.toNat false) else h.header r
  /-- The words are not touched. -/
  word : ∀ r : Ref, ∀ i, 1 ≤ i → i ≤ 3 → g.word (objectOffset r + i) = h.word (objectOffset r + i)

theorem ObjectsSwept.step (l : h.Layout) (hn : n < h.objectSlots)
    (sw : ObjectsSwept marks n h g) :
    ObjectsSwept marks (n + 1) h (g.sweepObject (UInt16.ofNat n) (marks.getD n false)) := by
  have hle := l.objectSlots_le
  have hrn : (UInt16.ofNat n).toNat = n := toNat_ofNat_of_lt (by omega)
  have lg := l.of_writesIn sw.writes
  have w := writesIn_sweepObject g (UInt16.ofNat n) (marks.getD n false)
  have hoff := lg.objectOffset_le (r := UInt16.ofNat n)
    (by rw [hrn, sw.writes.objectSlots]; exact hn)
  rw [sw.writes.objectEnd] at hoff
  refine ⟨sw.writes.trans (w.mono (Nat.zero_le _) (by omega)), fun r => ?_, fun r i h₁ h₃ => ?_⟩
  · by_cases hr : r = UInt16.ofNat n
    · subst hr
      rw [header_sweepObject lg, sw.header, hrn, if_neg (lt_irrefl n), if_pos (Nat.lt_succ_self n)]
    · have hne : r.toNat ≠ n := fun e => hr (UInt16.toNat_inj.1 (e.trans hrn.symm))
      rw [(w.mono le_rfl (by omega)).header_of_ne hr, sw.header]
      simp only [show r.toNat < n + 1 ↔ r.toNat < n by omega]
  · rw [w.word (by rw [objectOffset_eq, objectOffset_eq]; omega), sw.word r i h₁ h₃]

theorem objectsSwept_foldl (l : h.Layout) (marks : Array Bool) (hn : n ≤ h.objectSlots) :
    ObjectsSwept marks n h ((List.range n).foldl
      (fun h i => h.sweepObject (UInt16.ofNat i) (marks.getD i false)) h) := by
  induction n with
  | zero => exact ⟨.refl _ _ _, fun r => by simp, fun _ _ _ _ => rfl⟩
  | succ n ih =>
    rw [List.range_succ, List.foldl_append]
    exact (ih (by omega)).step l (by omega)

theorem objectsSwept_sweepObjects (l : h.Layout) (marks : Array Bool) :
    ObjectsSwept marks h.objectSlots h (h.sweepObjects marks) :=
  objectsSwept_foldl l marks le_rfl

theorem header_sweepObjects (l : h.Layout) (marks : Array Bool) (r : Ref) :
    (h.sweepObjects marks).header r = (h.header r).swept (marks.getD r.toNat false) := by
  rw [(objectsSwept_sweepObjects l marks).header]
  split
  · rfl
  · next hr => rw [header, if_neg hr]; rfl

/-! ### Moving the edges -/

theorem lastUsed_le (used : Nat → Bool) : ∀ n, lastUsed used n ≤ n
  | 0 => le_rfl
  | n + 1 => by
    rw [lastUsed]
    split
    · exact le_rfl
    · exact (lastUsed_le used n).trans (Nat.le_succ n)

theorem lt_lastUsed {used : Nat → Bool} {i : Nat} (hu : used i = true) :
    ∀ {n}, i < n → i < lastUsed used n
  | n + 1, hi => by
    rw [lastUsed]
    split
    · exact hi
    · next hn =>
      have : i ≠ n := fun e => hn (e ▸ hu)
      exact lt_lastUsed hu (by omega)

/-- The last index in use is in use. -/
theorem used_lastUsed {used : Nat → Bool} : ∀ {n i}, lastUsed used n = i + 1 → used i = true
  | n + 1, i, he => by
    rw [lastUsed] at he
    split at he
    · next hn => obtain rfl : n = i := by omega
                 exact hn
    · exact used_lastUsed he

/-- How many object slots are left when the edge moves. -/
def usedObjects (g : Heap) : Nat := lastUsed (fun i => g.isValid (UInt16.ofNat i)) g.objectSlots

/-- How many segment slots are left when the edge moves. -/
def usedSegments (g : Heap) : Nat :=
  lastUsed (fun i => g.segmentIsValid (UInt16.ofNat i)) g.segmentSlots

theorem lt_usedObjects (hv : g.isValid r = true) : r.toNat < g.usedObjects :=
  lt_lastUsed (by rwa [UInt16.ofNat_toNat]) (lt_objectSlots_of_isValid hv)

theorem lt_usedSegments (hv : g.segmentIsValid s = true) : s.toNat < g.usedSegments :=
  lt_lastUsed (by rwa [UInt16.ofNat_toNat]) (lt_segmentSlots_of_isValid hv)

theorem usedSegments_le (l : g.Layout) : g.segmentStart + g.usedSegments * 22 ≤ g.size := by
  have hle : g.usedSegments ≤ g.segmentSlots := lastUsed_le _ _
  have := l.segmentStart_eq
  omega

theorem layout_retract (l : g.Layout) : g.retract.Layout := by
  have ho : g.usedObjects ≤ g.objectSlots := lastUsed_le _ _
  have hs := usedSegments_le l
  have he := l.objectEnd_eq
  have := l.ordered
  have := l.inside
  refine ⟨l.accepted, ?_, Nat.sub_le _ _, ⟨g.usedObjects, Nat.mul_comm _ _⟩,
    ⟨g.usedSegments, ?_⟩⟩
  · change g.usedObjects * 5 ≤ g.size - g.usedSegments * 22
    omega
  · change g.size - (g.size - g.usedSegments * 22) = 22 * g.usedSegments
    omega

theorem objectSlots_retract (g : Heap) : g.retract.objectSlots = g.usedObjects :=
  Nat.mul_div_cancel g.usedObjects (by decide : 0 < 5)

theorem segmentSlots_retract (l : g.Layout) : g.retract.segmentSlots = g.usedSegments := by
  have hs := usedSegments_le l
  change (g.size - (g.size - g.usedSegments * 22)) / 22 = g.usedSegments
  omega

theorem header_retract (hv : g.isValid r = true) : g.retract.header r = g.header r := by
  rw [header, header, objectSlots_retract, if_pos (lt_usedObjects hv),
    if_pos (lt_objectSlots_of_isValid hv)]
  rfl

theorem isValid_retract (g : Heap) (r : Ref) : g.retract.isValid r = g.isValid r := by
  cases hv : g.isValid r with
  | true => rw [isValid, header_retract hv]; exact hv
  | false =>
    rw [isValid, header, objectSlots_retract]
    split
    · next hr =>
      have : r.toNat < g.objectSlots := hr.trans_le (lastUsed_le _ _)
      rw [isValid, header, if_pos this] at hv
      exact hv
    · rfl

theorem value_retract (g : Heap) (r : Ref) : g.retract.value r = g.value r := by
  have hiff := isValid_retract g r
  cases hv : g.isValid r with
  | true => rw [value, value, header_retract hv]; rfl
  | false =>
    rw [hv, isValid] at hiff
    rw [isValid] at hv
    simp only [value, hiff, hv, if_false, Bool.false_eq_true]

theorem link_retract (l : g.Layout) (hv : g.segmentIsValid s = true) :
    g.retract.link s = g.link s := by
  rw [link, link, segmentSlots_retract l, if_pos (lt_usedSegments hv),
    if_pos (lt_segmentSlots_of_isValid hv)]
  rfl

theorem segmentIsValid_retract (l : g.Layout) (s : SegRef) :
    g.retract.segmentIsValid s = g.segmentIsValid s := by
  cases hv : g.segmentIsValid s with
  | true => rw [segmentIsValid, link_retract l hv]; exact hv
  | false =>
    rw [segmentIsValid, link, segmentSlots_retract l]
    split
    · next hs =>
      have : s.toNat < g.segmentSlots := hs.trans_le (lastUsed_le _ _)
      rw [segmentIsValid, link, if_pos this] at hv
      exact hv
    · rfl

/-! ### A collection -/

/-- What a collection with the given roots leaves of `h`: the heap `h'`, and the count of what it
gave back. -/
structure Collected (h : Heap) (roots : List Ref) (freed : Freed) (h' : Heap) : Prop where
  /-- The edges are still in place. -/
  layout : h'.Layout
  /-- The row is as long as it was. -/
  size : h'.size = h.size
  /-- The objects that are left are those that can be reached. -/
  isValid_iff : ∀ r, h'.isValid r = true ↔ h.isValid r = true ∧ h.Reachable roots r
  /-- They have the values they had, -/
  value : ∀ r, h'.isValid r = true → h'.value r = h.value r
  /-- and their headers, up to the mark. -/
  header : ∀ r, h'.isValid r = true → h'.header r = { h.header r with mark := (h'.header r).mark }
  /-- The segments that are left are those on the chains of tables that are left. -/
  segmentIsValid_iff : ∀ s, h'.segmentIsValid s = true ↔ h.segmentIsValid s = true
    ∧ ∃ r t, h'.isValid r = true ∧ h.value r = .table t ∧ h.OnChain t.head s
  /-- They have the elements they had, -/
  element : ∀ s, h'.segmentIsValid s = true → ∀ k < slotsPerSegment,
    h'.element? s k = h.element? s k
  /-- and the links. -/
  next : ∀ s, h'.segmentIsValid s = true → h'.next s = h.next s
  /-- The objects end right behind the last one. -/
  objectEnd_le : ∀ r, h'.isValid r = true → objectOffset r + objectSize ≤ h'.objectEnd
  /-- There is no free slot at their edge. -/
  objectEnd_eq : h'.objectEnd = 0
    ∨ ∃ r, h'.isValid r = true ∧ h'.objectEnd = objectOffset r + objectSize
  /-- The segments start with the last one. -/
  segmentStart_le : ∀ s, h'.segmentIsValid s = true → h'.segmentStart ≤ h'.segmentOffset s
  /-- There is no free slot at their edge. -/
  segmentStart_eq : h'.segmentStart = h'.size
    ∨ ∃ s, h'.segmentIsValid s = true ∧ h'.segmentStart = h'.segmentOffset s
  /-- The objects given back are counted. -/
  objects : freed.objects = {r | h.isValid r = true ∧ h'.isValid r = false}.ncard
  /-- The segments given back are counted. -/
  segments : freed.segments
    = {s | h.segmentIsValid s = true ∧ h'.segmentIsValid s = false}.ncard

/-- Counting slots by number is counting indices. -/
theorem countP_range_eq_ncard {p : UInt16 → Bool} (hn : n ≤ 65536)
    (hp : ∀ x, p x = true → x.toNat < n) :
    (List.range n).countP (fun i => p (UInt16.ofNat i)) = {x | p x = true}.ncard := by
  have hnodup : (((List.range n).filter fun i => p (UInt16.ofNat i)).map UInt16.ofNat).Nodup := by
    refine (List.nodup_range.filter _).map_on fun i hi j hj he => ?_
    have hi := List.mem_range.1 (List.mem_filter.1 hi).1
    have hj := List.mem_range.1 (List.mem_filter.1 hj).1
    rw [← toNat_ofNat_of_lt (i := i) (by omega), he, toNat_ofNat_of_lt (by omega)]
  have hset : {x | p x = true}
      = ↑(((List.range n).filter fun i => p (UInt16.ofNat i)).map UInt16.ofNat).toFinset := by
    ext x
    simp only [List.coe_toFinset, List.mem_map, List.mem_filter, List.mem_range]
    refine ⟨fun hx => ⟨x.toNat, ⟨hp x hx, ?_⟩, UInt16.ofNat_toNat⟩, ?_⟩
    · rw [UInt16.ofNat_toNat]
      exact hx
    · rintro ⟨i, ⟨_, hi⟩, rfl⟩
      exact hi
  rw [hset, Set.ncard_coe_finset, List.toFinset_card_of_nodup hnodup, List.length_map,
    List.countP_eq_length_filter]

/-- The heap after both sweeps, before the edges move. -/
structure Swept (h : Heap) (roots : List Ref) (g : Heap) : Prop where
  /-- The edges are still in place. -/
  layout : g.Layout
  /-- The row is as long as it was. -/
  size : g.size = h.size
  /-- The headers are swept. -/
  header : ∀ r, g.header r = (h.header r).swept ((h.mark roots).getD r.toNat false)
  /-- The words of the objects are as they were. -/
  word : ∀ r, h.isValid r = true → ∀ i, 1 ≤ i → i ≤ 3 →
    g.word (objectOffset r + i) = h.word (objectOffset r + i)
  /-- The links are swept. -/
  link : ∀ s, g.link s
    = (h.link s).swept ((h.markSegments (h.mark roots)).getD s.toNat false)
  /-- The elements are as they were. -/
  element : ∀ s, s.toNat < h.segmentSlots → ∀ k < slotsPerSegment,
    g.element? s k = h.element? s k

theorem swept_sweep (l : h.Layout) (roots : List Ref) : h.Swept roots
    ((h.sweepSegments (h.markSegments (h.mark roots))).sweepObjects (h.mark roots)) := by
  have sw₁ := segmentsSwept_sweepSegments l (h.markSegments (h.mark roots))
  have l₁ := l.of_writesIn sw₁.writes
  have sw₂ := objectsSwept_sweepObjects l₁ (h.mark roots)
  have o₁ : SameObjects h _ := sw₁.writes.sameObjects (l.objectEnd_eq ▸ l.ordered)
  have g₂ : SameSegments _ _ := sw₂.writes.sameSegments l₁.ordered
  refine ⟨l₁.of_writesIn sw₂.writes, sw₂.writes.size.trans sw₁.writes.size, fun r => ?_,
    fun r hv i h₁ h₃ => ?_, fun s => ?_, fun s hs k hk => ?_⟩
  · rw [header_sweepObjects l₁, o₁.header]
  · have hr := l.objectOffset_le (lt_objectSlots_of_isValid hv)
    have := l.ordered
    rw [sw₂.word r i h₁ h₃, sw₁.writes.word (by omega)]
  · rw [g₂.link l₁, link_sweepSegments l]
  · rw [g₂.element? l₁ (by rw [sw₁.writes.segmentSlots]; exact hs), sw₁.element s hs k hk]

namespace Swept

variable {roots : List Ref}

theorem isValid_iff (l : h.Layout) (sw : h.Swept roots g) :
    g.isValid r = true ↔ h.isValid r = true ∧ h.Reachable roots r := by
  rw [← marked_mark_iff l, isValid, sw.header, Header.valid_swept, Bool.and_eq_true]
  exact ⟨fun hv => hv.2, fun hm => ⟨((marked_mark_iff l).1 hm).1, hm⟩⟩

theorem header_of_isValid (sw : h.Swept roots g) (hv : g.isValid r = true) :
    g.header r = { h.header r with mark := true } := by
  rw [isValid, sw.header] at hv
  rw [sw.header, Header.swept_of_valid hv]

/-- The value of an object is read off its words and flags, and not off its mark. -/
theorem value (l : h.Layout) (sw : h.Swept roots g) (hv : g.isValid r = true) :
    g.value r = h.value r := by
  have hv' : h.isValid r = true := ((sw.isValid_iff l).1 hv).1
  have hh : (h.header r).valid = true := hv'
  rw [Heap.value, Heap.value, sw.header_of_isValid hv, sw.word r hv' 1 (by omega) (by omega),
    sw.word r hv' 3 (by omega) (by omega)]
  simp only [hh, if_true]
  rfl

theorem segmentIsValid_iff (l : h.Layout) (sw : h.Swept roots g) {s : SegRef} :
    g.segmentIsValid s = true ↔ h.segmentIsValid s = true
      ∧ ∃ r t, g.isValid r = true ∧ h.value r = .table t ∧ h.OnChain t.head s := by
  have hsize : (h.mark roots).size = h.objectSlots := by
    rw [mark, size_markFrom, Array.size_replicate]
  have hmarked : Marked (h.markSegments (h.mark roots)) s
      ↔ ∃ r t, g.isValid r = true ∧ h.value r = .table t ∧ h.OnChain t.head s := by
    rw [marked_markSegments_iff l hsize]
    simp only [marked_mark_iff l, sw.isValid_iff l]
  rw [← hmarked, segmentIsValid, sw.link, Link.valid_swept, Bool.and_eq_true]
  exact Iff.rfl

theorem link_of_isValid (sw : h.Swept roots g) {s : SegRef} (hv : g.segmentIsValid s = true) :
    g.link s = { h.link s with mark := true } := by
  rw [segmentIsValid, sw.link] at hv
  rw [sw.link, Link.swept_of_valid hv]

end Swept

theorem objectEnd_retract (g : Heap) : g.retract.objectEnd = g.usedObjects * 5 := rfl

theorem segmentStart_retract (g : Heap) :
    g.retract.segmentStart = g.size - g.usedSegments * 22 := rfl

/-- Either no object is left, or the last slot that is left holds one. -/
theorem usedObjects_eq_zero_or (l : g.Layout) :
    g.usedObjects = 0 ∨ ∃ r, g.isValid r = true ∧ g.usedObjects = r.toNat + 1 := by
  have hle : g.usedObjects ≤ g.objectSlots := lastUsed_le _ _
  have := l.objectSlots_le
  cases hn : g.usedObjects with
  | zero => exact .inl rfl
  | succ i =>
    have hi : (UInt16.ofNat i).toNat = i := toNat_ofNat_of_lt (by omega)
    exact .inr ⟨UInt16.ofNat i, used_lastUsed hn, by rw [hi]⟩

/-- Either no segment is left, or the last slot that is left is in use. -/
theorem usedSegments_eq_zero_or (l : g.Layout) :
    g.usedSegments = 0 ∨ ∃ s, g.segmentIsValid s = true ∧ g.usedSegments = s.toNat + 1 := by
  have hle : g.usedSegments ≤ g.segmentSlots := lastUsed_le _ _
  have := l.segmentSlots_le
  cases hn : g.usedSegments with
  | zero => exact .inl rfl
  | succ i =>
    have hi : (UInt16.ofNat i).toNat = i := toNat_ofNat_of_lt (by omega)
    exact .inr ⟨UInt16.ofNat i, used_lastUsed hn, by rw [hi]⟩

theorem countP_freed {valid valid' : UInt16 → Bool} {marks : Array Bool} (hn : n ≤ 65536)
    (lt : ∀ x, valid x = true → x.toNat < n)
    (hv' : ∀ x, valid' x = (valid x && marks.getD x.toNat false)) :
    (List.range n).countP (fun i => valid (UInt16.ofNat i) && !marks.getD i false)
      = {x | valid x = true ∧ valid' x = false}.ncard := by
  have hset : {x | valid x = true ∧ valid' x = false}
      = {x | (valid x && !marks.getD x.toNat false) = true} := by
    ext x
    simp only [Set.mem_ofPred_eq, hv']
    cases valid x <;> simp
  rw [hset, ← countP_range_eq_ncard hn fun x hx => lt x (Bool.and_eq_true_iff.1 hx).1]
  refine List.countP_congr fun i hi => ?_
  rw [toNat_ofNat_of_lt ((List.mem_range.1 hi).trans_le hn)]

/-! ### The collection -/

section Collect

variable {roots : List Ref}

theorem isValid_collect_iff (l : h.Layout) :
    (h.collect roots).2.isValid r = true ↔ h.isValid r = true ∧ h.Reachable roots r := by
  rw [show (h.collect roots).2.isValid r = _ from isValid_retract _ r,
    (swept_sweep l roots).isValid_iff l]

theorem value_collect (l : h.Layout) (hv : (h.collect roots).2.isValid r = true) :
    (h.collect roots).2.value r = h.value r := by
  rw [show (h.collect roots).2.isValid r = _ from isValid_retract _ r] at hv
  exact (value_retract _ r).trans ((swept_sweep l roots).value l hv)

theorem header_collect (l : h.Layout) (hv : (h.collect roots).2.isValid r = true) :
    (h.collect roots).2.header r = { h.header r with mark := true } := by
  rw [show (h.collect roots).2.isValid r = _ from isValid_retract _ r] at hv
  rw [show (h.collect roots).2.header r = _ from header_retract hv,
    (swept_sweep l roots).header_of_isValid hv]

theorem segmentIsValid_collect_iff (l : h.Layout) :
    (h.collect roots).2.segmentIsValid s = true ↔ h.segmentIsValid s = true
      ∧ ∃ r t, (h.collect roots).2.isValid r = true ∧ h.value r = .table t
        ∧ h.OnChain t.head s := by
  have sw := swept_sweep l roots
  have hvalid : ∀ r, (h.collect roots).2.isValid r = _ := isValid_retract _
  simp only [show (h.collect roots).2.segmentIsValid s = _ from segmentIsValid_retract sw.layout s,
    hvalid]
  exact sw.segmentIsValid_iff l

theorem link_collect (l : h.Layout) (hv : (h.collect roots).2.segmentIsValid s = true) :
    (h.collect roots).2.link s = { h.link s with mark := true } := by
  have sw := swept_sweep l roots
  rw [show (h.collect roots).2.segmentIsValid s = _ from segmentIsValid_retract sw.layout s] at hv
  rw [show (h.collect roots).2.link s = _ from link_retract sw.layout hv, sw.link_of_isValid hv]

theorem element?_collect (l : h.Layout) (hs : s.toNat < h.segmentSlots) {k : Nat}
    (hk : k < slotsPerSegment) : (h.collect roots).2.element? s k = h.element? s k :=
  (swept_sweep l roots).element s hs k hk

theorem layout_collect (l : h.Layout) (roots : List Ref) : (h.collect roots).2.Layout :=
  layout_retract (swept_sweep l roots).layout

theorem size_collect (l : h.Layout) (roots : List Ref) : (h.collect roots).2.size = h.size :=
  (swept_sweep l roots).size

end Collect

/-- **Collections are exact.** Whatever the slots of a heap hold and whatever the roots are, a
collection keeps the objects that can be reached and the segments on their chains, as they were; it
gives back and counts all others, and leaves no free slot at either edge. -/
theorem collected_collect (l : h.Layout) (roots : List Ref) :
    h.Collected roots (h.collect roots).1 (h.collect roots).2 := by
  have sw := swept_sweep l roots
  have hvalid : ∀ r, (h.collect roots).2.isValid r = _ := isValid_retract _
  have hsegment : ∀ s, (h.collect roots).2.segmentIsValid s = _ := segmentIsValid_retract sw.layout
  have lc := layout_collect l roots
  constructor
  case layout => exact lc
  case size => exact size_collect l roots
  case isValid_iff => exact fun r => isValid_collect_iff l
  case value => exact fun r => value_collect l
  case header =>
    intro r hv
    rw [header_collect l hv]
  case segmentIsValid_iff => exact fun s => segmentIsValid_collect_iff l
  case element =>
    intro s hv k hk
    exact element?_collect l (lt_segmentSlots_of_isValid ((segmentIsValid_collect_iff l).1 hv).1) hk
  case next =>
    intro s hv
    rw [next, link_collect l hv]
    rfl
  case objectEnd_le =>
    intro r hv
    exact lc.objectOffset_le (lt_objectSlots_of_isValid hv)
  case objectEnd_eq =>
    rcases usedObjects_eq_zero_or sw.layout with h0 | ⟨r, hr, hn⟩
    · exact .inl ((objectEnd_retract _).trans (by rw [h0]))
    · refine .inr ⟨r, (hvalid r).trans hr, (objectEnd_retract _).trans ?_⟩
      rw [hn, objectOffset_eq, objectSize]
      omega
  case segmentStart_le =>
    intro s hv
    exact (lc.segmentOffset_bounds (lt_segmentSlots_of_isValid hv)).1
  case segmentStart_eq =>
    rcases usedSegments_eq_zero_or sw.layout with h0 | ⟨s, hs, hn⟩
    · exact .inl ((segmentStart_retract _).trans (by rw [h0]; rfl))
    · refine .inr ⟨s, (hsegment s).trans hs, (segmentStart_retract _).trans ?_⟩
      rw [hn]
      rfl
  case objects =>
    have := l.objectSlots_le
    refine countP_freed (by omega) (fun x => lt_objectSlots_of_isValid) fun r => ?_
    rw [hvalid, isValid, sw.header, Header.valid_swept, isValid]
  case segments =>
    have := l.segmentSlots_le
    refine countP_freed (by omega) (fun x => lt_segmentSlots_of_isValid) fun s => ?_
    rw [hsegment, segmentIsValid, sw.link, Link.valid_swept, segmentIsValid]

/-- A heap that no program makes: the chain of its table runs in a circle, and one of the elements
names a slot that there is not. -/
def knotted : Heap where
  bytes := #[12, 0, 0, 0, 0, 9, 7, 0, 0, 0, 9, 7, 0, 0, 0] ++ Array.replicate 27 0
    ++ #[1, 128, 7, 128] ++ Array.replicate 16 0 ++ #[0, 128]
  objectEnd := 15
  segmentStart := 42

theorem collected_knotted : knotted.Layout ∧ knotted.OnChain (knotted.next 0) 0
    ∧ knotted.Collected [0, 9] (knotted.collect [0, 9]).1 (knotted.collect [0, 9]).2 := by
  have layout : knotted.Layout := by constructor <;> decide
  exact ⟨layout, .here (by decide) (by decide), collected_collect layout [0, 9]⟩

end Heap

end SwarmVm
