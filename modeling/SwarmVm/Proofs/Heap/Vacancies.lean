import SwarmVm.Proofs.Heap.Spared

/-!
# Room for objects

An object takes a free slot, or a new slot at the edge if there is room between the objects and the
segments. Either way, as many objects fit in front of the segments as there are whole slots, and
each one that is made takes one of these places. There is always room until none of them is left.

## Main definitions

* `Heap.vacancies` — how many more objects there is room for

## Main results

* `Heap.vacancies_allocSlot`, `Heap.vacancies_allocValue` — every new object takes one of them, and
  there is no other reason to fail
-/

namespace SwarmVm

namespace Heap

variable {h h' : Heap} {r : Ref}

/-- How many more objects there is room for, in free slots and before the segments. -/
def vacancies (h : Heap) : Nat := h.segmentStart / objectSize - h.stats.objects

theorem objects_le (layout : h.Layout) : h.stats.objects ≤ h.segmentStart / objectSize := by
  have hcount : h.stats.objects ≤ h.objectSlots :=
    List.countP_le_length.trans_eq List.length_range
  have hend := layout.objectEnd_eq
  have hordered := layout.ordered
  rw [objectSize]
  omega

theorem objects_eq_ncard (layout : h.Layout) :
    h.stats.objects = {x | h.isValid x = true}.ncard := by
  have hle := layout.objectSlots_le
  exact countP_range_eq_ncard (by omega) fun _ => lt_objectSlots_of_isValid

/-- A heap with one object more has one vacancy less. -/
theorem vacancies_of_insert (layout : h.Layout) (layout' : h'.Layout) (free : h.isValid r = false)
    (valid : ∀ x, h'.isValid x = true ↔ x = r ∨ h.isValid x = true)
    (start : h'.segmentStart = h.segmentStart) : h.vacancies = h'.vacancies + 1 := by
  have : Finite Ref := Finite.of_injective UInt16.toFin fun _ _ => UInt16.toFin_inj.1
  have hset : {x | h'.isValid x = true} = insert r {x | h.isValid x = true} := Set.ext valid
  have hcount : h'.stats.objects = h.stats.objects + 1 := by
    rw [objects_eq_ncard layout', hset, Set.ncard_insert_of_notMem (by simp [free]),
      objects_eq_ncard layout]
  have hle := objects_le layout'
  rw [start, hcount] at hle
  rw [vacancies, vacancies, start, hcount]
  omega

theorem vacancies_allocSlot (wf : h.WellFormed) : Ends allocSlot h
    (fun _ h' => h.vacancies = h'.vacancies + 1) fun _ h' => h' = h ∧ h.vacancies = 0 := by
  have layout := wf.layout
  have hle := layout.objectSlots_le
  refine (allocSlot_takes layout).imp (fun r h' hr => ?_) fun _ _ he => ?_
  · obtain ⟨-, h₀, m, rfl⟩ := hr
    refine vacancies_of_insert layout m.layout_initObject m.free (fun x => ?_)
      ((writesIn_initObject h₀ r).segmentStart.trans m.segmentStart)
    by_cases ne : x = r
    · subst ne
      exact iff_of_true m.isValid_initObject (.inl rfl)
    · rw [isValid, m.header_initObject_of_ne ne, or_iff_right ne, isValid]
  · obtain ⟨same, full, small⟩ := he
    refine ⟨same, ?_⟩
    have hcount : h.stats.objects = h.objectSlots := by
      refine (List.countP_eq_length.2 fun i hi => ?_).trans List.length_range
      have hi : i < h.objectSlots := List.mem_range.1 hi
      exact full _ ((toNat_ofNat_of_lt (by omega)).trans_lt hi)
    have hend := layout.objectEnd_eq
    rw [vacancies, hcount]
    rw [objectSize, freeBytes] at small
    rw [objectSize]
    omega

/-- A new object with a value. -/
theorem vacancies_allocValue (wf : h.WellFormed) (v : Value) : Ends (allocValue v) h
    (fun _ h' => h.vacancies = h'.vacancies + 1) fun _ h' => h' = h ∧ h.vacancies = 0 := by
  refine ends_bind ((vacancies_allocSlot wf).and (newObject_allocSlot (A := Set.univ) wf) |>.imp
    (fun _ _ => id) fun _ _ he => he.1) fun r h₁ hn => ?_
  obtain ⟨hvacancies, n⟩ := hn
  refine ends_bind (ends_modify (Q := fun _ h₂ => h₂.vacancies = h₁.vacancies) ?_)
    fun _ h₂ he => ends_pure (by rw [hvacancies, he])
  have layout := n.evolves.wellFormed.layout
  have w := writesIn_setValue h₁ r v
  have hobjects : (h₁.setValue r v).stats.objects = h₁.stats.objects := by
    rw [objects_eq_ncard (layout.of_writesIn w), objects_eq_ncard layout]
    simp only [isValid_setValue layout (lt_objectSlots_of_isValid n.isValid)]
  rw [vacancies, vacancies, hobjects, w.segmentStart]

end Heap

end SwarmVm
