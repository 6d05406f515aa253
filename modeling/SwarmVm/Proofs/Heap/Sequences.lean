import SwarmVm.Proofs.Heap.Spared

/-!
# What an array holds

An array keeps a sequence in the slots of its chain, from the first slot on and without gaps, and
every slot behind the sequence is empty. `Heap.Holds` says so. Under it the elements that are read
are the sequence, appending an object makes the sequence longer by one, and a copy has the sequence
of the original.

The slots are looked at as one list. A slot of this list is a slot of the segment that is as many
places down the chain as there are whole segments before it.

## Main definitions

* `Heap.Holds` — the array and its sequence

## Main results

* `Heap.holds_arrayNew`, `Heap.holds_arrayPush`, `Heap.holds_arrayClone` — arrays as sequences
-/

namespace SwarmVm

namespace Heap

variable {h h' : Heap} {r a e : Ref} {s p : SegRef} {l : List Ref} {k : Nat}

/-! ### Slots -/

theorem length_elements (h : Heap) (s : SegRef) : (h.elements s).length = slotsPerSegment := by
  rw [elements, List.length_map, List.length_range]

theorem getElem?_elements (h : Heap) (s : SegRef) (hk : k < slotsPerSegment) :
    (h.elements s)[k]? = some (h.element? s k) := by
  rw [elements, List.getElem?_map, List.getElem?_range hk, Option.map_some]

/-- The slots of a list of segments, one after the other. -/
theorem getElem?_flatMap_elements (h : Heap) (segments : List SegRef) (j : Nat) :
    (segments.flatMap h.elements)[j]?
      = segments[j / slotsPerSegment]?.map fun s => h.element? s (j % slotsPerSegment) := by
  have hpos : 0 < slotsPerSegment := by decide
  induction segments generalizing j with
  | nil => simp
  | cons s rest ih =>
    rw [List.flatMap_cons]
    by_cases hj : j < slotsPerSegment
    · rw [List.getElem?_append_left (by rwa [length_elements]), getElem?_elements h s hj,
        Nat.div_eq_of_lt hj, Nat.mod_eq_of_lt hj]
      rfl
    · rw [Nat.not_lt] at hj
      rw [List.getElem?_append_right (by rwa [length_elements]), length_elements, ih,
        Nat.div_eq_sub_div hpos hj, Nat.mod_eq_sub_mod hj, List.getElem?_cons_succ]

theorem getElem?_arraySlots (h : Heap) (a : Ref) (j : Nat) :
    (h.arraySlots a)[j]?
      = (h.chain a)[j / slotsPerSegment]?.map fun s => h.element? s (j % slotsPerSegment) :=
  getElem?_flatMap_elements h (h.chain a) j

theorem length_arraySlots (h : Heap) (a : Ref) :
    (h.arraySlots a).length = slotsPerSegment * (h.chain a).length := by
  rw [arraySlots, List.length_flatMap]
  simp [length_elements, Nat.mul_comm]

/-- The length of a chain is told by its slots. -/
theorem length_chain_of_slots (hs : h'.arraySlots a = h.arraySlots a) :
    (h'.chain a).length = (h.chain a).length := by
  have hlen := congrArg List.length hs
  rw [length_arraySlots, length_arraySlots] at hlen
  exact Nat.eq_of_mul_eq_mul_left (by decide) hlen

theorem length_chain_of_empty (hs : h.arraySlots a = List.replicate slotsPerSegment none) :
    (h.chain a).length = 1 := by
  have hlen := congrArg List.length hs
  rw [length_arraySlots, List.length_replicate] at hlen
  exact Nat.eq_of_mul_eq_mul_left (by decide) hlen

/-- A slot is filled or emptied. No segment is twice in a chain, so it is one slot of the list. -/
theorem arraySlots_setElement (wf : h.WellFormed) (ht : h.IsTable a) {i : Nat}
    (hs : (h.chain a)[i]? = some s) (hk : k < slotsPerSegment) (e : Option Ref) :
    (h.setElement s k e).arraySlots a
      = (h.arraySlots a).set (slotsPerSegment * i + k) (e.map slotRef) := by
  have hmem : s ∈ h.chain a := List.mem_of_getElem? hs
  have hlt := wf.segment_lt ht hmem
  have hnodup := (wf.linked a ht).nodup
  have hi := (List.getElem?_eq_some_iff.1 hs).1
  have hin : slotsPerSegment * i + k < (h.arraySlots a).length := by
    rw [length_arraySlots]
    calc slotsPerSegment * i + k < slotsPerSegment * i + slotsPerSegment := by omega
      _ = slotsPerSegment * (i + 1) := by rw [Nat.mul_succ]
      _ ≤ slotsPerSegment * (h.chain a).length := Nat.mul_le_mul_left _ hi
  refine List.ext_getElem? fun j => ?_
  rw [getElem?_arraySlots, chain_setElement wf hlt hk e ht, List.getElem?_set]
  by_cases hj : slotsPerSegment * i + k = j
  · subst hj
    have hdiv : (slotsPerSegment * i + k) / slotsPerSegment = i := by
      rw [Nat.mul_add_div (by decide), Nat.div_eq_of_lt hk, Nat.add_zero]
    have hmod : (slotsPerSegment * i + k) % slotsPerSegment = k := by
      rw [Nat.mul_add_mod, Nat.mod_eq_of_lt hk]
    rw [if_pos (Eq.refl _), if_pos hin, hdiv, hmod, hs, Option.map_some,
      element?_setElement wf.layout hlt hk, if_pos (Eq.refl k)]
    exact congrArg some (Option.map_congr fun r _ => (slotRef.eq_1 r).symm)
  · rw [if_neg hj, getElem?_arraySlots]
    cases hc : (h.chain a)[j / slotsPerSegment]? with
    | none => rw [Option.map_none, Option.map_none]
    | some s' =>
      have hk' : j % slotsPerSegment < slotsPerSegment := Nat.mod_lt _ (by decide)
      simp only [Option.map_some, Option.some.injEq]
      by_cases ne : s' = s
      · subst ne
        have hij : j / slotsPerSegment = i :=
          (List.getElem?_inj (List.getElem?_eq_some_iff.1 hc).1 hnodup).1 (hc.trans hs.symm)
        have hne : j % slotsPerSegment ≠ k := by
          intro he
          have hdiv := Nat.div_add_mod j slotsPerSegment
          rw [hij, he] at hdiv
          exact hj hdiv
        rw [element?_setElement wf.layout hlt hk, if_neg hne]
      · exact WritesIn.element?_of_ne wf.layout hlt
          (wf.segment_lt ht (List.mem_of_getElem? hc)) ne (writesIn_setElement h s hk e) hk'

/-- A chain that grows by a segment gets empty slots. -/
theorem arraySlots_append (wf : h.WellFormed) (ht : h.IsTable a) {segments : List SegRef}
    (hc : h.chain a = segments ++ [p]) (n : h.NewSegment s h') :
    (h'.setNext p s).arraySlots a = h.arraySlots a ++ List.replicate slotsPerSegment none := by
  have hp : p ∈ h.chain a := by rw [hc]; simp
  have hlt : p.toNat < h'.segmentSlots := lt_segmentSlots_of_isValid (by
    rw [segmentIsValid, n.links p (wf.segmentIsValid ht hp)]
    exact wf.segmentIsValid ht hp)
  have hs : s.toNat < h'.segmentSlots := n.linked.lt List.mem_cons_self
  have hempty : (h'.setNext p s).elements s = List.replicate slotsPerSegment none := by
    refine List.eq_replicate_iff.2 ⟨length_elements _ _, fun e he => ?_⟩
    obtain ⟨k, hk, rfl⟩ := List.mem_map.1 he
    have hk := List.mem_range.1 hk
    exact (element?_setLink n.layout hlt _ hs hk).trans (n.empty k hk)
  rw [arraySlots, (spares_append wf ht hc n).2.2.2, List.flatMap_append, List.flatMap_singleton,
    hempty, arraySlots]
  refine congrArg (· ++ List.replicate slotsPerSegment none)
    (List.flatMap_congr fun s' hs' => List.map_congr_left fun k hk => ?_)
  have hv := wf.segmentIsValid ht hs'
  have hs'lt : s'.toNat < h'.segmentSlots := lt_segmentSlots_of_isValid (by
    rw [segmentIsValid, n.links s' hv]
    exact hv)
  have hk := List.mem_range.1 hk
  exact (element?_setLink n.layout hlt _ hs'lt hk).trans (n.elements s' hv k hk)

/-! ### Sequences -/

/-- The array holds the sequence `l`, and the slots behind it are empty. -/
structure Holds (h : Heap) (a : Ref) (l : List Ref) : Prop where
  /-- The array is there. -/
  isValid : h.isValid a = true
  /-- It is an array. -/
  isArray : h.isArray a = true
  /-- The sequence is in the first slots. -/
  slots : ∃ n, h.arraySlots a = l.map some ++ List.replicate n none

theorem untilGap_append_replicate (l : List Ref) (n : Nat) :
    untilGap (l.map some ++ List.replicate n none) = l := by
  induction l with
  | nil => cases n <;> rfl
  | cons r l ih => rw [List.map_cons, List.cons_append, untilGap, ih]

namespace Holds

theorem isTable (hl : h.Holds a l) : h.IsTable a := by
  have hk := hl.isArray
  rw [Heap.isArray, Bool.and_eq_true, decide_eq_true_eq] at hk
  exact ⟨hl.isValid, hk.1⟩

theorem arrayElements (hl : h.Holds a l) : h.arrayElements a = l := by
  obtain ⟨n, hn⟩ := hl.slots
  rw [Heap.arrayElements, hn, untilGap_append_replicate]

theorem arraySize (hl : h.Holds a l) : h.arraySize a = l.length := by
  rw [Heap.arraySize, hl.arrayElements]

theorem unaltered (hl : h.Holds a l) (u : Unaltered h h' a) : h'.Holds a l where
  isValid := u.isValid
  isArray := (u.isArray hl.isTable).trans hl.isArray
  slots := by
    rw [u.slots]
    exact hl.slots

/-- Writes to segments do not concern the object itself. -/
theorem of_sameObjects (hl : h.Holds a l) (o : SameObjects h h') (l' : List Ref)
    (slots : ∃ n, h'.arraySlots a = l'.map some ++ List.replicate n none) : h'.Holds a l' where
  isValid := (o.isValid a).trans hl.isValid
  isArray := by
    have hk := hl.isArray
    rwa [Heap.isArray, ← o.kind, ← o.header] at hk
  slots := slots

end Holds

/-- The slot behind the sequence is filled. -/
theorem Holds.setElement (wf : h.WellFormed) (hl : h.Holds a l)
    (hs : h.segmentOf? a l.length = some s) (r : Ref) :
    (h.setElement s (slotOf l.length) (some r)).Holds a (l ++ [slotRef r]) := by
  obtain ⟨n, hn⟩ := hl.slots
  have hmem : s ∈ h.chain a := List.mem_of_getElem? hs
  have hin : l.length < (h.arraySlots a).length := by
    have hi := (List.getElem?_eq_some_iff.1 hs).1
    rw [length_arraySlots]
    exact (Nat.div_lt_iff_lt_mul (by decide)).1 hi |>.trans_eq (Nat.mul_comm _ _)
  have hlen : 0 < n := by
    rw [hn, List.length_append, List.length_map, List.length_replicate] at hin
    omega
  obtain ⟨n, rfl⟩ := Nat.exists_eq_succ_of_ne_zero hlen.ne'
  refine hl.of_sameObjects (WritesIn.sameObjects_of_segment wf.layout (wf.segment_lt hl.isTable hmem)
    (writesIn_setElement h s (slotOf_lt _) (some r))) _ ⟨n, ?_⟩
  rw [arraySlots_setElement wf hl.isTable hs (slotOf_lt _), slotOf, Nat.div_add_mod, hn,
    List.set_append_right _ _ (by simp), List.length_map, Nat.sub_self]
  simp [List.replicate_succ]

/-- A full array gets a segment. -/
theorem holds_extendChain (wf : h.WellFormed) (hl : h.Holds a l)
    (hfull : h.segmentOf? a l.length = none) : Ends (extendChain a l.length) h
      (fun s h' => h'.WellFormed ∧ h'.Holds a l ∧ h'.segmentOf? a l.length = some s)
      fun _ h' => h' = h := by
  obtain ⟨n, hn⟩ := hl.slots
  have hsize := hl.arraySize
  -- there is no slot behind the sequence, so its length is that of the chain, in slots
  have hlen : l.length = slotsPerSegment * (h.chain a).length := by
    have hle := List.getElem?_eq_none_iff.1 hfull
    have htotal := length_arraySlots h a
    rw [hn, List.length_append, List.length_map, List.length_replicate] at htotal
    have hge := (Nat.le_div_iff_mul_le (by decide : 0 < slotsPerSegment)).1 hle
    rw [Nat.mul_comm] at hge
    omega
  refine ends_get_bind ?_
  split
  · next p hp =>
    split at hp
    · cases hp
    · rw [← hsize] at hp hfull
      have hc := chain_eq_append_of_full hfull hp
      refine ends_bind (newSegment_allocSegment wf.layout) fun s h₁ ns => ?_
      refine ends_bind (ends_modify (Q := fun _ h' => h' = h₁.setNext p s) rfl) fun _ h₂ he => ?_
      subst he
      obtain ⟨_, wf', ht', hc'⟩ := spares_append wf hl.isTable hc ns
      have hp : p ∈ h₁.chain a := by rw [ns.chain wf hl.isTable, hc]; simp
      have hp' : p.toNat < h₁.segmentSlots := by
        have ev : Evolves ∅ Set.univ h h₁ := ns.evolves wf
        exact ev.wellFormed.segment_lt (ev.isTable (Set.notMem_empty a) hl.isTable) hp
      have o := WritesIn.sameObjects_of_segment ns.layout hp' (writesIn_setLink h₁ p
        { h₁.link p with next := s })
      refine ends_pure ⟨wf', (hl.of_sameObjects ns.objects l ?_).of_sameObjects o l ?_, ?_⟩
      · rw [arraySlots_congr (ns.chain wf hl.isTable) fun s' hs' k hk =>
          ns.elements s' (wf.segmentIsValid hl.isTable hs') k hk]
        exact ⟨n, hn⟩
      · refine ⟨n + slotsPerSegment, ?_⟩
        rw [show (h₁.setLink p { h₁.link p with next := s }) = h₁.setNext p s from rfl,
          arraySlots_append wf hl.isTable hc ns, hn, List.append_assoc, List.replicate_add]
      · rw [segmentOf?, hc', hlen, Nat.mul_div_cancel_left _ (by decide)]
        simp
  · exact ends_throw rfl

/-- Appending an object makes the sequence longer by one. -/
theorem holds_arrayPush (wf : h.WellFormed) (hl : h.Holds a l) (r : Ref) :
    Ends (arrayPush a r) h (fun _ h' => h'.Holds a (l ++ [slotRef r])) fun _ h' => h' = h := by
  have hsize := hl.arraySize
  refine ends_get_bind ?_
  simp only [hsize]
  split
  · next s hs => exact ends_modify (hl.setElement wf hs r)
  · next hfull =>
    refine ends_bind (holds_extendChain wf hl hfull) fun s h₁ hs => ?_
    obtain ⟨wf₁, hl₁, hs₁⟩ := hs
    exact ends_modify (hl₁.setElement wf₁ hs₁ r)

theorem holds_arrayPushAll (wf : h.WellFormed) (hl : h.Holds a l) (rs : List Ref) :
    Ends (arrayPushAll a rs) h (fun _ h' => h'.Holds a (l ++ rs.map slotRef))
      fun _ _ => True := by
  induction rs generalizing h l with
  | nil => exact ends_pure (by simpa using hl)
  | cons r rs ih =>
    have ev := evolves_arrayPush (A := Set.univ) (a := a) (r := r) wf (fun _ => hl.isValid)
      (Set.mem_univ _)
    refine ends_bind (((holds_arrayPush wf hl r).and ev).imp (fun _ _ => id) fun _ _ _ => trivial)
      fun _ h₁ h₁' => ?_
    obtain ⟨hl₁, ev₁⟩ := h₁'
    refine (ih ev₁.wellFormed hl₁).imp (fun _ _ hl₂ => ?_) fun _ _ => id
    simpa using hl₂

/-! ### New arrays -/

theorem arraySlots_setHeader (wf : h.WellFormed) (ht : h.IsTable a) {header : Header}
    (tag : header.tag = (h.header a).tag) :
    (h.setHeader a header).arraySlots a = h.arraySlots a := by
  have hr := lt_objectSlots_of_isValid ht.1
  have g := (writesIn_setHeader h a header).sameSegments_of_object wf.layout hr
  exact arraySlots_congr (chain_setHeader wf.layout hr tag).1
    fun s hs k _ => g.element? wf.layout (wf.segment_lt ht hs) k

/-- A new table has one segment, and it is empty. -/
theorem arraySlots_allocTable (wf : h.WellFormed) : Ends alloc.allocTable h
    (fun r h' => h'.arraySlots r = List.replicate slotsPerSegment none) fun _ _ => True := by
  refine ends_bind ((newObject_allocSlot (A := Set.univ) wf).imp (fun _ _ => id)
    fun _ _ _ => trivial) fun r h₁ n => ends_get_bind ?_
  have wf₁ := n.evolves.wellFormed
  have seg := newSegment_allocSegment wf₁.layout
  cases ha : allocSegment h₁ with
  | error e h₂ =>
    exact ends_bind (ends_set (Q := fun _ _ => True) trivial) fun _ _ _ => ends_throw trivial
  | ok s h₂ =>
    have ns := seg.of_ok ha
    have ev₂ : Evolves ∅ Set.univ h₁ h₂ := ns.evolves wf₁
    have hv₂ := ev₂.isValid r (Set.notMem_empty r) n.isValid
    have hlt : s.toNat < h₂.segmentSlots := ns.linked.lt List.mem_cons_self
    obtain ⟨_, _, hc⟩ := evolves_setValue_table (A := Set.univ) (v := ⟨s, false, false⟩)
      ev₂.wellFormed hv₂ ns.linked fun s' hs => by
        rw [List.mem_singleton.1 hs]
        exact ns.unowned wf₁
    have g := (writesIn_setValue h₂ r (.table ⟨s, false, false⟩)).sameSegments_of_object
      ns.layout (lt_objectSlots_of_isValid hv₂)
    refine ends_bind (ends_set (Q := fun _ h' => h'.arraySlots r
      = List.replicate slotsPerSegment none) ?_) fun _ _ he => ends_pure he
    rw [arraySlots, hc, List.flatMap_singleton]
    refine List.eq_replicate_iff.2 ⟨length_elements _ _, fun e he => ?_⟩
    obtain ⟨k, hk, rfl⟩ := List.mem_map.1 he
    exact (g.element? ns.layout hlt k).trans (ns.empty k (List.mem_range.1 hk))

/-- A header with the same tag, of an array that is there, does not change what is held. -/
theorem holds_setHeader (wf : h.WellFormed) (ht : h.IsTable a) {header : Header}
    (tag : header.tag = (h.header a).tag) (valid : header.valid = true) (flagA : header.flagA = true)
    (slots : ∃ n, h.arraySlots a = l.map some ++ List.replicate n none) :
    (h.setHeader a header).Holds a l := by
  have hr := lt_objectSlots_of_isValid ht.1
  have hh := header_setHeader wf.layout hr (tag ▸ tag_header_lt h a)
  have hk := kind_setHeader wf.layout hr tag
  refine ⟨?_, ?_, ?_⟩
  · rw [isValid, hh, valid]
  · rw [isArray, hk, ht.2, hh, flagA, decide_eq_true (Eq.refl Kind.table), Bool.and_self]
  · rwa [arraySlots_setHeader wf ht tag]

/-- A new array is empty. -/
theorem holds_arrayNew (wf : h.WellFormed) :
    Ends arrayNew h (fun r h' => h'.Holds r []) fun _ _ => True := by
  refine ends_bind (((arraySlots_allocTable wf).and (newObject_allocTable (A := Set.univ) wf)).imp
    (fun _ _ => id) fun _ _ _ => trivial) fun r h₁ h₁' => ?_
  obtain ⟨hslots, n, ht⟩ := h₁'
  have hl : (h₁.setHeader r { h₁.header r with flagA := true }).Holds r [] := by
    refine holds_setHeader n.evolves.wellFormed ht rfl ht.1 rfl ⟨slotsPerSegment, ?_⟩
    rw [hslots, List.map_nil, List.nil_append]
  exact ends_bind (ends_modify (Q := fun _ h₂ => h₂.Holds r []) hl) fun _ _ hl => ends_pure hl

/-- The flag that says that an array is a copy is not part of what it holds. -/
theorem Holds.setFlagB (wf : h.WellFormed) (hl : h.Holds a l) (flag : Bool) :
    (h.setFlagB a flag).Holds a l := by
  have hk := hl.isArray
  rw [Heap.isArray, Bool.and_eq_true] at hk
  exact holds_setHeader wf hl.isTable rfl hl.isValid hk.2 hl.slots

theorem Holds.setPermanent (wf : h.WellFormed) (hl : h.Holds a l) (r : Ref) (permanent : Bool) :
    (h.setPermanent r permanent).Holds a l :=
  hl.unaltered ((spares_setPermanent wf r permanent).unaltered hl.isValid)

/-- What is in a slot fits in a slot. -/
theorem slotRef_of_element? (he : h.element? s k = some e) : slotRef e = e := by
  have hw := (h.word (h.slotOffset s k)).toNat_lt
  rw [element?] at he
  split at he
  · next hle =>
    have hr : (h.word (h.slotOffset s k)).toNat - elementRange < elementRange := by
      rw [elementRange] at hle ⊢
      omega
    rw [← Option.some.inj he]
    refine slotRef_of_lt ((UInt16.toNat_ofNat_of_lt' (hr.trans ?_)).trans_lt hr)
    decide
  · cases he

theorem slotRef_of_mem_arrayElements (he : e ∈ h.arrayElements a) : slotRef e = e := by
  obtain ⟨s, _, he⟩ := List.mem_flatMap.1 (mem_of_mem_untilGap he)
  obtain ⟨k, _, he⟩ := List.mem_map.1 he
  exact slotRef_of_element? he

theorem map_slotRef_arrayElements (h : Heap) (a : Ref) :
    (h.arrayElements a).map slotRef = h.arrayElements a := by
  conv_rhs => rw [← List.map_id (h.arrayElements a)]
  exact List.map_congr_left fun e he => slotRef_of_mem_arrayElements he

/-- A copy that succeeds is a new array to which the elements were appended. -/
theorem ends_arrayClone (h : Heap) (a : Ref) : Ends (arrayClone a) h
    (fun r h' => ∃ h₁ h₂, arrayNew h = .ok r h₁
      ∧ arrayPushAll r (h.arrayElements a) h₁ = .ok () h₂ ∧ h' = h₂.setFlagB r true)
    fun _ _ => True := by
  refine ends_get_bind (ends_bind (Q := fun r h₁ => arrayNew h = .ok r h₁) ⟨id, fun _ => trivial⟩
    fun r h₁ hnew => ends_get_bind ?_)
  cases hp : arrayPushAll r (h.arrayElements a) h₁ with
  | error e h₂ =>
    exact ends_bind (ends_set (Q := fun _ _ => True) trivial) fun _ _ _ => ends_throw trivial
  | ok u h₂ =>
    refine ends_bind (ends_set (Q := fun _ h' => h' = h₂.setFlagB r true) rfl) fun _ _ he => ?_
    exact ends_pure ⟨h₁, h₂, hnew, hp, he⟩

/-- A copy of an array has its sequence. -/
theorem holds_arrayClone (wf : h.WellFormed) (a : Ref) :
    Ends (arrayClone a) h (fun r h' => h'.Holds r (h.arrayElements a)) fun _ _ => True := by
  refine (ends_arrayClone h a).imp ?_ fun _ _ => id
  rintro r _ ⟨h₁, h₂, hnew, hp, rfl⟩
  have n := (newObject_arrayNew (A := Set.univ) wf).of_ok hnew
  have wf₁ := n.1.evolves.wellFormed
  have evs := evolves_arrayPushAll (A := Set.univ) wf₁ n.1.isValid
    fun e (_ : e ∈ h.arrayElements a) => Set.mem_univ _
  have hl := (holds_arrayPushAll wf₁ ((holds_arrayNew wf).of_ok hnew) (h.arrayElements a)).of_ok hp
  rw [List.nil_append, map_slotRef_arrayElements] at hl
  exact hl.setFlagB (evs.of_ok hp).wellFormed true

end Heap

end SwarmVm
