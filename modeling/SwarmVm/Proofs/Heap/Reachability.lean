import SwarmVm.Proofs.Heap.Chain
import Mathlib.Logic.Relation

/-!
# Objects that can be reached

An object points at the elements of its segments when it is a table or an array, and at the captured
record when it is a closure. Indices may dangle: they are pointed at, and lead nowhere.

The marking works through a list, and an object that is already marked is not visited again. Two
invariants carry it. What is marked belongs to any set that contains the list and is closed under
pointing (`markFrom_sound`); and whatever a marked object points at is marked or still waits in the
list (`markFrom_closed`).

## Main definitions

* `Heap.PointsTo` — one step
* `Heap.Reachable` — any number of steps from a root or a permanent object

## Main results

* `Heap.marked_mark_iff` — the marked objects are the reachable ones
* `Heap.marked_markSegments_iff` — the marked segments are those on the chains of marked tables
-/

namespace SwarmVm

namespace Heap

variable {h : Heap} {r e : Ref} {s : SegRef} {roots work : List Ref} {marks : Array Bool}

/-- `r` points at `e`: `e` is an element of the table or array `r`, or the record that the closure
`r` captured. -/
inductive PointsTo (h : Heap) : Ref → Ref → Prop
  | element {r e : Ref} {t : TableValue} {s : SegRef} {k : Nat} : h.value r = .table t →
    h.OnChain t.head s → k < slotsPerSegment → h.element? s k = some e → PointsTo h r e
  | captured {r e : Ref} {c : Closure} : h.value r = .closure c → c.captured = some e →
    PointsTo h r e

/-- `r` can be reached from one of the roots, or from a permanent object. -/
def Reachable (h : Heap) (roots : List Ref) (r : Ref) : Prop :=
  ∃ root, h.isValid root = true ∧ (root ∈ roots ∨ (h.header root).permanent = true)
    ∧ Relation.ReflTransGen h.PointsTo root r

theorem mem_segmentObjects_iff :
    e ∈ h.segmentObjects s ↔ ∃ k < slotsPerSegment, h.element? s k = some e := by
  simp [segmentObjects, List.mem_filterMap]

theorem mem_successors_iff : e ∈ h.successors r ↔ h.PointsTo r e := by
  rw [successors]
  refine ⟨fun he => ?_, fun he => ?_⟩
  · split at he
    · next t ht =>
      obtain ⟨s, hs, he⟩ := List.mem_flatMap.1 he
      obtain ⟨k, hk, he⟩ := mem_segmentObjects_iff.1 he
      exact .element ht (mem_usedChain_iff.1 hs) hk he
    · next c hc => exact .captured hc (by simpa using he)
    · simp at he
  · cases he with
    | element ht hs hk he =>
      rw [ht]
      exact List.mem_flatMap.2 ⟨_, mem_usedChain_iff.2 hs, mem_segmentObjects_iff.2 ⟨_, hk, he⟩⟩
    | captured hc he => simp [hc, he]

/-- A free slot points at nothing. -/
theorem PointsTo.isValid (he : h.PointsTo r e) : h.isValid r = true := by
  cases he with
  | element ht _ _ _ => exact (kind_of_value ht (by simp)).1
  | captured hc _ => exact (kind_of_value hc (by simp)).1

/-! ### Marking -/

/-- The entry of an object in an array of marks. -/
def Marked (marks : Array Bool) (r : Ref) : Prop := marks.getD r.toNat false = true

theorem Marked.lt (hm : Marked marks r) : r.toNat < marks.size := by
  by_contra hr
  simp [Marked, hr] at hm

theorem marked_set (bound : r.toNat < marks.size) :
    Marked (marks.set r.toNat true bound) e ↔ e = r ∨ Marked marks e := by
  simp only [Marked, Array.getD_eq_getD_getElem?, Array.getElem?_set]
  by_cases he : r.toNat = e.toNat
  · simp [UInt16.toNat_inj.1 he]
  · have : e ≠ r := fun h => he (h ▸ rfl)
    simp [he, this]

theorem marked_of_getElem (bound : r.toNat < marks.size) (hm : marks[r.toNat] = true) :
    Marked marks r := by
  simp [Marked, bound, hm]

/-- What gets marked lies in every set that holds the marked objects and the valid ones of the list,
and that is closed under pointing at valid objects. -/
theorem markFrom_sound {P : Ref → Prop}
    (closed : ∀ r e, P r → h.PointsTo r e → h.isValid e = true → P e)
    (hmarks : ∀ r, Marked marks r → P r) (hwork : ∀ r ∈ work, h.isValid r = true → P r) :
    ∀ r, Marked (h.markFrom marks work) r → P r := by
  fun_induction markFrom h marks work with
  | case1 marks => exact hmarks
  | case2 marks r rest bound fresh ih =>
    have hr : P r := hwork r List.mem_cons_self fresh.2
    refine ih (fun e he => ?_) fun e he hv => ?_
    · rcases (marked_set bound).1 he with rfl | he
      · exact hr
      · exact hmarks e he
    · rcases List.mem_append.1 he with he | he
      · exact closed r e hr (mem_successors_iff.1 he) hv
      · exact hwork e (List.mem_cons_of_mem _ he) hv
  | case3 marks r rest bound old ih =>
    exact ih hmarks fun e he => hwork e (List.mem_cons_of_mem _ he)
  | case4 marks r rest bound ih =>
    exact ih hmarks fun e he => hwork e (List.mem_cons_of_mem _ he)

theorem markFrom_mono (hm : Marked marks r) : Marked (h.markFrom marks work) r := by
  fun_induction markFrom h marks work with
  | case1 marks => exact hm
  | case2 marks r rest bound fresh ih => exact ih ((marked_set bound).2 (.inr hm))
  | case3 marks r rest bound old ih => exact ih hm
  | case4 marks r rest bound ih => exact ih hm

theorem size_markFrom : (h.markFrom marks work).size = marks.size := by
  fun_induction markFrom h marks work with
  | case1 marks => rfl
  | case2 marks r rest bound fresh ih => rw [ih, Array.size_set]
  | case3 marks r rest bound old ih => exact ih
  | case4 marks r rest bound ih => exact ih

/-- Every valid object of the list gets marked. -/
theorem markFrom_work (size : marks.size = h.objectSlots) (hr : r ∈ work)
    (hv : h.isValid r = true) : Marked (h.markFrom marks work) r := by
  fun_induction markFrom h marks work with
  | case1 marks => simp at hr
  | case2 marks x rest bound fresh ih =>
    rcases List.mem_cons.1 hr with rfl | hr
    · exact markFrom_mono ((marked_set bound).2 (.inl rfl))
    · exact ih (by rw [Array.size_set, size]) (List.mem_append_right _ hr)
  | case3 marks x rest bound old ih =>
    rcases List.mem_cons.1 hr with rfl | hr
    · refine markFrom_mono (marked_of_getElem bound ?_)
      by_contra hm
      exact old ⟨by simpa using hm, hv⟩
    · exact ih size hr
  | case4 marks x rest bound ih =>
    rcases List.mem_cons.1 hr with rfl | hr
    · exact absurd (size ▸ lt_objectSlots_of_isValid hv) bound
    · exact ih size hr

/-- What a marked object points at is marked, if that was so of the first marks up to the list. -/
theorem markFrom_closed (size : marks.size = h.objectSlots)
    (inv : ∀ r e, Marked marks r → h.PointsTo r e → h.isValid e = true →
      Marked marks e ∨ e ∈ work) :
    ∀ r e, Marked (h.markFrom marks work) r → h.PointsTo r e → h.isValid e = true →
      Marked (h.markFrom marks work) e := by
  fun_induction markFrom h marks work with
  | case1 marks =>
    intro r e hr he hv
    exact (inv r e hr he hv).resolve_right List.not_mem_nil
  | case2 marks x rest bound fresh ih =>
    refine ih (by rw [Array.size_set, size]) fun r e hr he hv => ?_
    rcases (marked_set bound).1 hr with rfl | hr
    · exact .inr (List.mem_append_left _ (mem_successors_iff.2 he))
    · rcases inv r e hr he hv with hm | hm
      · exact .inl ((marked_set bound).2 (.inr hm))
      · rcases List.mem_cons.1 hm with rfl | hm
        · exact .inl ((marked_set bound).2 (.inl rfl))
        · exact .inr (List.mem_append_right _ hm)
  | case3 marks x rest bound old ih =>
    refine ih size fun r e hr he hv => ?_
    rcases inv r e hr he hv with hm | hm
    · exact .inl hm
    · rcases List.mem_cons.1 hm with rfl | hm
      · refine .inl (marked_of_getElem bound ?_)
        by_contra hne
        exact old ⟨by simpa using hne, hv⟩
      · exact .inr hm
  | case4 marks x rest bound ih =>
    refine ih size fun r e hr he hv => ?_
    rcases inv r e hr he hv with hm | hm
    · exact .inl hm
    · rcases List.mem_cons.1 hm with rfl | hm
      · exact absurd (size ▸ lt_objectSlots_of_isValid hv) bound
      · exact .inr hm

theorem not_marked_replicate (n : Nat) : ¬ Marked (Array.replicate n false) r := by
  rw [Marked, Array.getD_eq_getD_getElem?, Array.getElem?_replicate]
  split <;> simp

theorem mem_permanents_iff (l : h.Layout) :
    r ∈ h.permanents ↔ r.toNat < h.objectSlots ∧ (h.header r).permanent = true := by
  have := l.objectSlots_le
  simp only [permanents, List.mem_filter, List.mem_map, List.mem_range]
  refine and_congr_left fun _ => ⟨?_, fun hr => ⟨r.toNat, hr, UInt16.ofNat_toNat⟩⟩
  rintro ⟨i, hi, rfl⟩
  rwa [toNat_ofNat_of_lt (by omega)]

/-- The marked objects are the valid ones that can be reached. -/
theorem marked_mark_iff (l : h.Layout) :
    Marked (h.mark roots) r ↔ h.isValid r = true ∧ h.Reachable roots r := by
  have hsize : (Array.replicate h.objectSlots false).size = h.objectSlots := Array.size_replicate
  constructor
  · refine markFrom_sound (P := fun r => h.isValid r = true ∧ h.Reachable roots r)
      (fun r e hr he hv => ?_) (fun r hr => absurd hr (not_marked_replicate _))
      (fun r hr hv => ⟨hv, r, hv, ?_, .refl⟩) r
    · obtain ⟨root, hroot, hfrom, hpath⟩ := hr.2
      exact ⟨hv, root, hroot, hfrom, hpath.tail he⟩
    · rcases List.mem_append.1 hr with hr | hr
      · exact .inl hr
      · exact .inr ((mem_permanents_iff l).1 hr).2
  · rintro ⟨hv, root, hroot, hfrom, hpath⟩
    have hstart : Marked (h.mark roots) root := by
      refine markFrom_work hsize (List.mem_append.2 ?_) hroot
      exact hfrom.imp_right fun hp =>
        (mem_permanents_iff l).2 ⟨lt_objectSlots_of_isValid hroot, hp⟩
    -- along the path every object but the last is valid, because it points at the next one
    induction hpath with
    | refl => exact hstart
    | tail _ hstep ih =>
      exact markFrom_closed hsize (fun r e hr => absurd hr (not_marked_replicate _)) _ _
        (ih hstep.isValid) hstep hv

/-! ### Marking segments -/

theorem getD_foldl_setIfInBounds (j : Nat) : ∀ (ss : List SegRef) (live : Array Bool),
    (ss.foldl (fun live s => live.setIfInBounds s.toNat true) live).getD j false = true
      ↔ live.getD j false = true ∨ j < live.size ∧ ∃ s ∈ ss, s.toNat = j
  | [], live => by simp
  | s :: ss, live => by
    rw [List.foldl_cons, getD_foldl_setIfInBounds j ss, Array.size_setIfInBounds,
      Array.getD_eq_getD_getElem?, Array.getD_eq_getD_getElem?, Array.getElem?_setIfInBounds]
    by_cases hj : s.toNat = j <;> by_cases hlt : j < live.size <;> simp [hj, hlt]

theorem size_foldl_setIfInBounds (ss : List SegRef) (live : Array Bool) :
    (ss.foldl (fun live s => live.setIfInBounds s.toNat true) live).size = live.size := by
  induction ss generalizing live with
  | nil => rfl
  | cons s ss ih => rw [List.foldl_cons, ih, Array.size_setIfInBounds]

theorem getD_markChain (h : Heap) (live : Array Bool) (r : Ref) (j : Nat) :
    (h.markChain live r).getD j false = true ↔ live.getD j false = true
      ∨ j < live.size ∧ ∃ t, h.value r = .table t ∧ ∃ s ∈ h.usedChain t.head, s.toNat = j := by
  rw [markChain]
  split
  · next t ht =>
    rw [getD_foldl_setIfInBounds]
    simp only [ht, Value.table.injEq, exists_eq_left']
  · next hne =>
    have : ¬ ∃ t, h.value r = .table t ∧ ∃ s ∈ h.usedChain t.head, s.toNat = j :=
      fun ⟨t, ht, _⟩ => hne t ht
    simp [this]

theorem size_markChain (h : Heap) (live : Array Bool) (r : Ref) :
    (h.markChain live r).size = live.size := by
  rw [markChain]
  split
  · exact size_foldl_setIfInBounds _ _
  · rfl

/-- The marks of the segments after the objects of a list were looked at. -/
theorem getD_foldl_markChain (h : Heap) (marks : Array Bool) (j : Nat) (is : List Nat)
    (live : Array Bool) :
    (is.foldl (fun live i => if marks.getD i false then h.markChain live (UInt16.ofNat i) else live)
      live).getD j false = true
      ↔ live.getD j false = true ∨ j < live.size ∧ ∃ i ∈ is, marks.getD i false = true
          ∧ ∃ t, h.value (UInt16.ofNat i) = .table t ∧ ∃ s ∈ h.usedChain t.head, s.toNat = j := by
  induction is generalizing live with
  | nil => simp
  | cons i is ih =>
    rw [List.foldl_cons, ih]
    by_cases hm : marks.getD i false = true
    · rw [if_pos hm, getD_markChain, size_markChain, List.exists_mem_cons_iff, or_assoc,
        ← and_or_left]
      simp only [hm, true_and]
    · rw [if_neg hm, List.exists_mem_cons_iff]
      simp only [hm, false_and, false_or, Bool.false_eq_true]

/-- The marked segments are those on the chains of the marked tables. -/
theorem marked_markSegments_iff (l : h.Layout) (size : marks.size = h.objectSlots) :
    Marked (h.markSegments marks) s ↔ ∃ r t, Marked marks r ∧ h.value r = .table t
      ∧ h.OnChain t.head s := by
  have := l.objectSlots_le
  rw [Marked, markSegments, getD_foldl_markChain, Array.size_replicate]
  constructor
  · rintro (hf | ⟨_, i, hi, hm, t, ht, s', hs', he⟩)
    · exact absurd hf (not_marked_replicate _)
    · have hi : i < h.objectSlots := List.mem_range.1 hi
      refine ⟨UInt16.ofNat i, t, ?_, ht, ?_⟩
      · rwa [Marked, toNat_ofNat_of_lt (by omega)]
      · obtain rfl := UInt16.toNat_inj.1 he
        exact mem_usedChain_iff.1 hs'
  · rintro ⟨r, t, hm, ht, hs⟩
    refine .inr ⟨lt_segmentSlots_of_isValid hs.isValid, r.toNat, List.mem_range.2 (size ▸ hm.lt),
      hm, t, ?_, s, mem_usedChain_iff.2 hs, rfl⟩
    rwa [UInt16.ofNat_toNat]

end Heap

end SwarmVm
