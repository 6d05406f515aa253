import SwarmVm.Proofs.Heap.Comparison
import SwarmVm.Proofs.Heap.Sequences

/-!
# The places of a table

A table keeps its pairs in places: five to a segment, the key before the value. Here is what the few
writes that tables are made of do to places and to the entries that are read off them. A write
concerns one place (`Heap.Rewrites`), a chain that grows gets empty places at its end, and a chain
that loses a segment loses the places of that segment and no others.

An object that is left alone keeps its slots, segment by segment, and so its entries.

## Main results

* `Heap.rewrites_setPair`, `Heap.Rewrites.tableEntries` — a place is written
* `Heap.places_append`, `Heap.chain_unlinkSegment` — a segment comes or goes
* `Heap.Unaltered.tableEntries` — a table that is left alone
-/

namespace SwarmVm

namespace Heap

variable {h h' : Heap} {t k v : Ref} {s p : SegRef} {q : PairSlot} {l l₁ l₂ : List SegRef}

/-! ### Places -/

theorem mem_segmentPairs : q ∈ segmentPairs s ↔ q.segment = s ∧ q.pair < pairsPerSegment := by
  rw [segmentPairs, List.mem_map]
  constructor
  · rintro ⟨i, hi, rfl⟩
    exact ⟨rfl, List.mem_range.1 hi⟩
  · rintro ⟨rfl, hq⟩
    exact ⟨q.pair, List.mem_range.2 hq, rfl⟩

theorem mem_pairSlots_iff :
    q ∈ h.pairSlots t ↔ q.segment ∈ h.chain t ∧ q.pair < pairsPerSegment := by
  simp only [pairSlots, List.mem_flatMap, mem_segmentPairs]
  constructor
  · rintro ⟨s, hs, rfl, hq⟩
    exact ⟨hs, hq⟩
  · rintro ⟨hs, hq⟩
    exact ⟨_, hs, rfl, hq⟩

/-- No place is twice in a table, since no segment is twice in a chain. -/
theorem nodup_pairSlots (hc : (h.chain t).Nodup) : (h.pairSlots t).Nodup := by
  rw [pairSlots, List.nodup_flatMap]
  refine ⟨fun s _ => List.nodup_range.map fun i j he => (PairSlot.mk.inj he).2, ?_⟩
  refine hc.imp fun ne q hq hq' => ne ?_
  rw [← (mem_segmentPairs.1 hq).1, ← (mem_segmentPairs.1 hq').1]

/-- A slot of a chain is written. -/
theorem element?_setElement_of_mem (wf : h.WellFormed) (ht : h.IsTable t) (hs : s ∈ h.chain t)
    {i : Nat} (hi : i < slotsPerSegment) (e : Option Ref) (hp : p ∈ h.chain t) {j : Nat}
    (hj : j < slotsPerSegment) : (h.setElement s i e).element? p j
      = if p = s ∧ j = i then e.map slotRef else h.element? p j := by
  have hlt := wf.segment_lt ht hs
  by_cases he : p = s
  · subst he
    simp only [element?_setElement wf.layout hlt hi, true_and]
    rfl
  · rw [if_neg fun hps => he hps.1]
    exact WritesIn.element?_of_ne wf.layout hlt (wf.segment_lt ht hp) he
      (writesIn_setElement h s hi e) hj

/-- One place of a table is written, and its chain stays. -/
structure Rewrites (h h' : Heap) (t : Ref) (q : PairSlot) (key value : Option Ref) : Prop where
  /-- The heap is well formed. -/
  wellFormed : h'.WellFormed
  /-- The table is there. -/
  isTable : h'.IsTable t
  /-- Its chain is the same. -/
  chain : h'.chain t = h.chain t
  /-- The key of the place is the given one, and the other keys stay. -/
  key? : ∀ q' ∈ h.pairSlots t, h'.key? q' = if q' = q then key else h.key? q'
  /-- The value of the place is the given one, and the other values stay. -/
  fieldValue? : ∀ q' ∈ h.pairSlots t,
    h'.fieldValue? q' = if q' = q then value else h.fieldValue? q'

/-- The slots of two places are the same only if the places are. -/
theorem slot_eq_iff {q q' : PairSlot} :
    (q'.segment = q.segment ∧ 2 * q'.pair = 2 * q.pair) = (q' = q) := by
  cases q
  cases q'
  simp

theorem slot_eq_iff' {q q' : PairSlot} :
    (q'.segment = q.segment ∧ 2 * q'.pair + 1 = 2 * q.pair + 1) = (q' = q) := by
  cases q
  cases q'
  simp

theorem rewrites_setKey (wf : h.WellFormed) (ht : h.IsTable t) (hq : q ∈ h.pairSlots t)
    (key : Option Ref) : Rewrites h (h.setKey q key) t q (key.map slotRef) (h.fieldValue? q) := by
  obtain ⟨hs, hp⟩ := mem_pairSlots hq
  have hk := (PairSlot.key_lt hp).1
  have hlt := wf.segment_lt ht hs
  have ev : Evolves ∅ Set.univ h (h.setKey q key) := evolves_setElement wf hlt hk (by simp)
  refine ⟨ev.wellFormed, ev.isTable (Set.notMem_empty t) ht, chain_setElement wf hlt hk key ht,
    fun q' hq' => ?_, fun q' hq' => ?_⟩
  · obtain ⟨hs', hp'⟩ := mem_pairSlots hq'
    simp only [Heap.key?, setKey, slot_eq_iff,
      element?_setElement_of_mem wf ht hs hk key hs' (PairSlot.key_lt hp').1]
  · obtain ⟨hs', hp'⟩ := mem_pairSlots hq'
    rw [Heap.fieldValue?, setKey,
      element?_setElement_of_mem wf ht hs hk key hs' (PairSlot.key_lt hp').2, if_neg (by omega)]
    split
    · next he => rw [he]; rfl
    · rfl

theorem rewrites_setFieldValue (wf : h.WellFormed) (ht : h.IsTable t) (hq : q ∈ h.pairSlots t)
    (value : Option Ref) :
    Rewrites h (h.setFieldValue q value) t q (h.key? q) (value.map slotRef) := by
  obtain ⟨hs, hp⟩ := mem_pairSlots hq
  have hk := (PairSlot.key_lt hp).2
  have hlt := wf.segment_lt ht hs
  have ev : Evolves ∅ Set.univ h (h.setFieldValue q value) := evolves_setElement wf hlt hk (by simp)
  refine ⟨ev.wellFormed, ev.isTable (Set.notMem_empty t) ht, chain_setElement wf hlt hk value ht,
    fun q' hq' => ?_, fun q' hq' => ?_⟩
  · obtain ⟨hs', hp'⟩ := mem_pairSlots hq'
    rw [Heap.key?, setFieldValue,
      element?_setElement_of_mem wf ht hs hk value hs' (PairSlot.key_lt hp').1, if_neg (by omega)]
    split
    · next he => rw [he]; rfl
    · rfl
  · obtain ⟨hs', hp'⟩ := mem_pairSlots hq'
    simp only [Heap.fieldValue?, setFieldValue, slot_eq_iff',
      element?_setElement_of_mem wf ht hs hk value hs' (PairSlot.key_lt hp').2]

namespace Rewrites

variable {key value key' value' : Option Ref}

theorem pairSlots (w : Rewrites h h' t q key value) : h'.pairSlots t = h.pairSlots t := by
  rw [Heap.pairSlots, w.chain, Heap.pairSlots]

theorem mem {q' : PairSlot} (w : Rewrites h h' t q key value)
    (hq : q' ∈ h.pairSlots t) : q' ∈ h'.pairSlots t := by
  rwa [w.pairSlots]

/-- A place that is written twice holds what was written last. -/
theorem trans {h'' : Heap} (w : Rewrites h h' t q key value)
    (w' : Rewrites h' h'' t q key' value') : Rewrites h h'' t q key' value' := by
  refine ⟨w'.wellFormed, w'.isTable, w'.chain.trans w.chain, fun q' hq' => ?_, fun q' hq' => ?_⟩
  · rw [w'.key? q' (w.mem hq'), w.key? q' hq']
    split <;> rfl
  · rw [w'.fieldValue? q' (w.mem hq'), w.fieldValue? q' hq']
    split <;> rfl

end Rewrites

/-- Both slots of a place are written. -/
theorem rewrites_setPair (wf : h.WellFormed) (ht : h.IsTable t) (hq : q ∈ h.pairSlots t)
    (key value : Option Ref) : Rewrites h ((h.setKey q key).setFieldValue q value) t q
      (key.map slotRef) (value.map slotRef) := by
  have w := rewrites_setKey wf ht hq key
  have w' := rewrites_setFieldValue w.wellFormed w.isTable (w.mem hq) value
  rw [w.key? q hq, if_pos rfl] at w'
  exact w.trans w'

theorem rewrites_writePair (wf : h.WellFormed) (ht : h.IsTable t) (hq : q ∈ h.pairSlots t)
    (k v : Ref) : Rewrites h (h.writePair q k v) t q (some (slotRef k)) (some (slotRef v)) :=
  rewrites_setPair wf ht hq (some k) (some v)

/-! ### Entries -/

theorem tableEntries_eq {before behind : List PairSlot}
    (hs : h.pairSlots t = before ++ q :: behind) : h.tableEntries t
      = before.filterMap h.pairAt? ++ (h.pairAt? q).toList ++ behind.filterMap h.pairAt? := by
  rw [tableEntries, hs, List.filterMap_append, List.filterMap_cons]
  cases h.pairAt? q <;> simp

theorem pairAt?_congr {q' : PairSlot} (hk : h'.key? q' = h.key? q)
    (hv : h'.fieldValue? q' = h.fieldValue? q) : h'.pairAt? q' = h.pairAt? q := by
  rw [pairAt?, pairAt?, hk, hv]

theorem pairAt?_eq_some {q : PairSlot} (hk : h.key? q = some k) (hv : h.fieldValue? q = some v) :
    h.pairAt? q = some (k, v) := by
  rw [pairAt?, hk, hv]

theorem pairAt?_eq_none {q : PairSlot} (hk : h.key? q = none) : h.pairAt? q = none := by
  rw [pairAt?, hk]

namespace Rewrites

variable {key value : Option Ref}

theorem pairAt? (w : Rewrites h h' t q (some k) (some v)) (hq : q ∈ h.pairSlots t) :
    h'.pairAt? q = some (k, v) := by
  refine pairAt?_eq_some ?_ ?_
  · rw [w.key? q hq, if_pos rfl]
  · rw [w.fieldValue? q hq, if_pos rfl]

/-- The entries of the other places stay. -/
theorem tableEntries (w : Rewrites h h' t q key value) (nodup : (h.pairSlots t).Nodup)
    {before behind : List PairSlot} (hs : h.pairSlots t = before ++ q :: behind) :
    h'.tableEntries t
      = before.filterMap h.pairAt? ++ (h'.pairAt? q).toList ++ behind.filterMap h.pairAt? := by
  rw [tableEntries_eq (w.pairSlots.trans hs)]
  have hother : ∀ q' ∈ h.pairSlots t, q' ≠ q → h'.pairAt? q' = h.pairAt? q' := by
    intro q' hq' ne
    refine pairAt?_congr ?_ ?_
    · rw [w.key? q' hq', if_neg ne]
    · rw [w.fieldValue? q' hq', if_neg ne]
  rw [hs] at nodup hother
  obtain ⟨_, hbehind, hcross⟩ := List.nodup_append.1 nodup
  have hleft : before.filterMap h'.pairAt? = before.filterMap h.pairAt? := by
    refine List.filterMap_congr fun q' hq' => hother q' (by simp [hq']) ?_
    exact fun he => hcross q' hq' q List.mem_cons_self he
  have hright : behind.filterMap h'.pairAt? = behind.filterMap h.pairAt? := by
    refine List.filterMap_congr fun q' hq' => hother q' (by simp [hq']) ?_
    rintro rfl
    exact (List.nodup_cons.1 hbehind).1 hq'
  rw [hleft, hright]

end Rewrites

/-! ### Segments that come and go -/

/-- The places of a chain that grows by a segment: those it had, as they were, and empty ones. -/
theorem places_append (wf : h.WellFormed) (ht : h.IsTable t) (hc : h.chain t = l ++ [p])
    (n : h.NewSegment s h') : (h'.setNext p s).pairSlots t = h.pairSlots t ++ segmentPairs s
      ∧ (∀ q ∈ h.pairSlots t, (h'.setNext p s).key? q = h.key? q
        ∧ (h'.setNext p s).fieldValue? q = h.fieldValue? q)
      ∧ ∀ q ∈ segmentPairs s, (h'.setNext p s).key? q = none
        ∧ (h'.setNext p s).fieldValue? q = none := by
  have hvalid : ∀ x ∈ h.chain t, x.toNat < h'.segmentSlots := by
    intro x hx
    have hv := wf.segmentIsValid ht hx
    exact lt_segmentSlots_of_isValid (by rwa [segmentIsValid, n.links x hv])
  have hp := hvalid p (by rw [hc]; simp)
  have hold : ∀ x ∈ h.chain t, ∀ i < slotsPerSegment,
      (h'.setNext p s).element? x i = h.element? x i := by
    intro x hx i hi
    rw [setNext, element?_setLink n.layout hp _ (hvalid x hx) hi,
      n.elements x (wf.segmentIsValid ht hx) i hi]
  have hnew : ∀ i < slotsPerSegment, (h'.setNext p s).element? s i = none := by
    intro i hi
    rw [setNext, element?_setLink n.layout hp _ (n.linked.lt List.mem_cons_self) hi, n.empty i hi]
  refine ⟨?_, fun q hq => ?_, fun q hq => ?_⟩
  · rw [pairSlots, (spares_append wf ht hc n).2.2.2, List.flatMap_append, List.flatMap_singleton,
      pairSlots]
  · obtain ⟨hs, hpair⟩ := mem_pairSlots hq
    obtain ⟨hk, hk'⟩ := PairSlot.key_lt hpair
    exact ⟨hold _ hs _ hk, hold _ hs _ hk'⟩
  · obtain ⟨rfl, hpair⟩ := mem_segmentPairs.1 hq
    obtain ⟨hk, hk'⟩ := PairSlot.key_lt hpair
    exact ⟨hnew _ hk, hnew _ hk'⟩

/-- What is left of the chain of a table when a segment is unlinked: all the others, unless there is
no other. -/
theorem chain_unlinkSegment (wf : h.WellFormed) (ht : h.IsTable t) (hs : s ∈ h.chain t) :
    (h.chain t = [s] ∧ h.unlinkSegment t s = h)
    ∨ ∃ l₁ l₂, h.chain t = l₁ ++ s :: l₂ ∧ (h.unlinkSegment t s).chain t = l₁ ++ l₂
      ∧ l₁ ++ l₂ ≠ [] ∧ ∀ x ∈ l₁ ++ l₂, (h.unlinkSegment t s).elements x = h.elements x := by
  have hlt : ∀ x ∈ h.chain t, x.toNat < h.segmentSlots := fun x hx => wf.segment_lt ht hx
  rw [unlinkSegment]
  rcases segmentBefore?_cases hs with ⟨l₁, b, l₂, hc, hb⟩ | ⟨l₂, hc, hb⟩
  · have hl := wf.linked t ht
    rw [hc, List.append_cons] at hl
    have hsub : ∀ x ∈ l₁ ++ [b] ++ l₂, x ∈ h.chain t := by
      intro x hx
      rw [hc, List.append_cons]
      exact List.mem_append.2 ((List.mem_append.1 hx).imp_right (List.mem_cons_of_mem s))
    rw [hb]
    refine .inr ⟨l₁ ++ [b], l₂, by simp [hc], ?_, by simp, fun x hx => ?_⟩
    · simpa using chain_cut wf ht hc hl.of_append.2.2.2 (List.Subset.refl l₂)
    · exact elements_cut wf.layout (hlt b (hsub b (by simp))) (hlt x (hsub x hx)) _ _
  · have htail : h.Linked (h.next s) l₂ := by
      have hl := wf.linked t ht
      rw [hc] at hl
      exact hl.1 ▸ hl.2.2.2
    rw [hb]
    simp only
    split
    · next hnext =>
      have hend : h.Linked (h.next s) [] := hnext
      rw [htail.unique hend] at hc
      exact .inl ⟨hc, rfl⟩
    · next hnext =>
      refine .inr ⟨[], l₂, by simpa using hc, by simpa using chain_cut_head wf ht hc, ?_,
        fun x hx => elements_cut_head wf.layout ht (hlt x ?_) _ _⟩
      · intro hnil
        obtain rfl : l₂ = [] := by simpa using hnil
        exact hnext htail
      · rw [hc]
        exact List.mem_cons_of_mem s hx

/-- A place whose segment has the same slots. -/
theorem place_congr (he : h'.elements q.segment = h.elements q.segment)
    (hq : q.pair < pairsPerSegment) :
    h'.key? q = h.key? q ∧ h'.fieldValue? q = h.fieldValue? q := by
  have hel : ∀ i < slotsPerSegment, h'.element? q.segment i = h.element? q.segment i := by
    intro i hi
    have := congrArg (fun row => row[i]?) he
    simpa [getElem?_elements _ _ hi] using this
  exact ⟨hel _ (PairSlot.key_lt hq).1, hel _ (PairSlot.key_lt hq).2⟩

/-! ### Tables that are left alone -/

/-- The pairs of one row of slots. -/
def rowPairs (row : List (Option Ref)) : List (Option Ref × Option Ref) :=
  (List.range pairsPerSegment).map fun i => (row[2 * i]?.join, row[2 * i + 1]?.join)

theorem map_segmentPairs (h : Heap) (s : SegRef) :
    (segmentPairs s).map (fun q => (h.key? q, h.fieldValue? q)) = rowPairs (h.elements s) := by
  rw [segmentPairs, List.map_map, rowPairs]
  refine List.map_congr_left fun i hi => ?_
  obtain ⟨hk, hk'⟩ := PairSlot.key_lt (q := ⟨s, i⟩) (List.mem_range.1 hi)
  rw [getElem?_elements h s hk, getElem?_elements h s hk']
  rfl

theorem map_pairSlots (h : Heap) (t : Ref) :
    (h.pairSlots t).map (fun q => (h.key? q, h.fieldValue? q))
      = ((h.chain t).map h.elements).flatMap rowPairs := by
  rw [pairSlots, List.map_flatMap, List.flatMap_map]
  exact List.flatMap_congr fun s _ => map_segmentPairs h s

namespace Unaltered

/-- Segment by segment, the slots are the same. -/
theorem rows (u : Unaltered h h' t) :
    (h'.chain t).map h'.elements = (h.chain t).map h.elements := by
  have hwidth : ∀ (g : Heap) (l : List SegRef),
      (l.map g.elements).map List.length = List.replicate l.length slotsPerSegment := by
    intro g l
    simp [length_elements, Function.comp_def]
  refine List.eq_iff_flatten_eq.2 ⟨?_, ?_⟩
  · exact u.slots
  · rw [hwidth, hwidth, length_chain_of_slots u.slots]

theorem map_pairSlots (u : Unaltered h h' t) :
    (h'.pairSlots t).map (fun q => (h'.key? q, h'.fieldValue? q))
      = (h.pairSlots t).map fun q => (h.key? q, h.fieldValue? q) := by
  rw [Heap.map_pairSlots, Heap.map_pairSlots, u.rows]

theorem tableEntries (u : Unaltered h h' t) : h'.tableEntries t = h.tableEntries t := by
  have hpairs : ∀ g : Heap, g.tableEntries t
      = ((g.pairSlots t).map fun q => (g.key? q, g.fieldValue? q)).filterMap fun p =>
        p.1.bind fun k => p.2.map fun v => (k, v) := by
    intro g
    rw [List.filterMap_map]
    refine List.filterMap_congr fun q _ => ?_
    rw [Function.comp_apply, pairAt?]
    cases g.key? q <;> cases g.fieldValue? q <;> rfl
  rw [hpairs, hpairs, u.map_pairSlots]

end Unaltered

end Heap

end SwarmVm
