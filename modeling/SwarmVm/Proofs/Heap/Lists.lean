import SwarmVm.Proofs.Heap.Sequences

/-!
# Arrays are lists

The number of elements of an array is not stored. It is found again by looking for the first empty
slot, while the slot of a position is found by dividing by the width of a segment. The two agree as
long as the chain has exactly the segments that the elements need: then the first empty slot is
behind the last element, also when the last segment is full and there is no empty slot at all.
`Heap.Packed` adds this count to `Heap.Holds`.

The operations move at most one segment: appending to a full chain takes one, dropping the only
element of the last segment gives it back. So what has to be checked is the count at the multiples
of the width, in `Heap.packed_arrayPush` and `Heap.packed_arrayPop`.

## Main definitions

* `Heap.Packed` — an array that holds a sequence in as few segments as possible
* `Heap.ReadsAs` — everything that can be read from an array is read from a list
* `Heap.ArrayBuilt` — the arrays that can be made

## Main results

* `Heap.ArrayBuilt.packed` — every array that can be made is packed
* `Heap.arrays_are_lists` — what the operations on arrays do, on lists
-/

namespace SwarmVm

namespace Heap

variable {h h' : Heap} {r a e : Ref} {s p : SegRef} {l : List Ref} {k : Nat}

/-! ### Packed arrays -/

/-- The number of segments of an array with `n` elements. -/
def segmentsFor (n : Nat) : Nat := max 1 ((n + 9) / 10)

/-- The array holds the sequence `l`, in as few segments as possible. -/
structure Packed (h : Heap) (a : Ref) (l : List Ref) : Prop extends h.Holds a l where
  /-- There are no more segments than needed. -/
  length_chain : (h.chain a).length = segmentsFor l.length

/-- The position behind the elements has a slot, or all slots are taken. -/
theorem Holds.length_le (hl : h.Holds a l) : l.length ≤ 10 * (h.chain a).length := by
  rw [← hl.arraySize]
  exact arraySize_le h a

/-- All slots behind the sequence are empty, and there are as many as the chain has left. -/
theorem Holds.arraySlots_eq (hl : h.Holds a l) : h.arraySlots a
    = l.map some ++ List.replicate (10 * (h.chain a).length - l.length) none := by
  obtain ⟨n, hn⟩ := hl.slots
  have hlen := length_arraySlots h a
  rw [hn, List.length_append, List.length_map, List.length_replicate] at hlen
  rw [hn]
  congr 2
  rw [slotsPerSegment, pairsPerSegment] at hlen
  omega

/-- What is behind a position of the sequence. -/
theorem Holds.exists_slot (hl : h.Holds a l) {i : Nat} (hi : i < l.length) :
    ∃ s, h.segmentOf? a i = some s ∧ h.element? s (slotOf i) = l[i]? := by
  have hslot : (h.arraySlots a)[i]? = some l[i]? := by
    rw [hl.arraySlots_eq, List.getElem?_append_left (by simpa using hi), List.getElem?_map,
      List.getElem?_eq_getElem hi]
    rfl
  rw [getElem?_arraySlots, Option.map_eq_some_iff] at hslot
  exact hslot

theorem Holds.arrayGet? (hl : h.Holds a l) (i : Nat) : h.arrayGet? a i = l[i]? := by
  rw [Heap.arrayGet?, hl.arraySize]
  split
  · next hi =>
    obtain ⟨s, hs, he⟩ := hl.exists_slot hi
    rw [hs, Option.bind_some, he]
  · next hi => rw [List.getElem?_eq_none (Nat.not_lt.1 hi)]

namespace Packed

theorem unaltered (hp : h.Packed a l) (u : Unaltered h h' a) : h'.Packed a l where
  toHolds := hp.toHolds.unaltered u
  length_chain := (length_chain_of_slots u.slots).trans hp.length_chain

theorem setFlagB (wf : h.WellFormed) (hp : h.Packed a l) (flag : Bool) :
    (h.setFlagB a flag).Packed a l where
  toHolds := hp.toHolds.setFlagB wf flag
  length_chain := by
    have tag : ({ h.header a with flagB := flag } : Header).tag = (h.header a).tag := rfl
    exact (length_chain_of_slots (arraySlots_setHeader wf hp.isTable tag)).trans hp.length_chain

/-- A slot of the chain is written. -/
theorem setElement (wf : h.WellFormed) (hp : h.Packed a l) {i : Nat}
    (hs : h.segmentOf? a i = some s) {e : Option Ref} {l' : List Ref}
    (hl : (h.setElement s (slotOf i) e).Holds a l')
    (hlen : segmentsFor l'.length = segmentsFor l.length) :
    (h.setElement s (slotOf i) e).Packed a l' where
  toHolds := hl
  length_chain := by
    have hlt := wf.segment_lt hp.isTable (List.mem_of_getElem? hs)
    rw [chain_setElement wf hlt (slotOf_lt i) e hp.isTable, hlen, hp.length_chain]

end Packed

/-! ### New arrays and new elements -/

theorem length_chain_arrayNew (wf : h.WellFormed) :
    Ends arrayNew h (fun r h' => (h'.chain r).length = 1) fun _ _ => True := by
  refine ends_bind (((arraySlots_allocTable wf).and (newObject_allocTable (A := Set.univ) wf)).imp
    (fun _ _ => id) fun _ _ _ => trivial) fun r h₁ hr => ?_
  obtain ⟨hslots, n, ht⟩ := hr
  have tag : ({ h₁.header r with flagA := true } : Header).tag = (h₁.header r).tag := rfl
  have hlen : ((h₁.setFlagA r true).chain r).length = 1 :=
    length_chain_of_empty ((arraySlots_setHeader n.evolves.wellFormed ht tag).trans hslots)
  exact ends_bind (ends_modify (Q := fun _ h₂ => (h₂.chain r).length = 1) hlen)
    fun _ _ he => ends_pure he

/-- A new array has one segment. -/
theorem packed_arrayNew (wf : h.WellFormed) :
    Ends arrayNew h (fun r h' => h'.Packed r []) fun _ _ => True :=
  ((holds_arrayNew wf).and (length_chain_arrayNew wf)).imp (fun _ _ hr => ⟨hr.1, hr.2⟩)
    fun _ _ _ => trivial

/-- Appending to a full chain takes a segment, and the slot behind the elements exists otherwise. -/
theorem packed_arrayPush (wf : h.WellFormed) (hp : h.Packed a l) (r : Ref) :
    Ends (arrayPush a r) h (fun _ h' => h'.Packed a (l ++ [slotRef r])) fun _ h' => h' = h := by
  have hsize := hp.arraySize
  have hchain := hp.length_chain
  have hle := hp.length_le
  have hnext : (l ++ [slotRef r]).length = l.length + 1 := by simp
  refine ends_get_bind ?_
  simp only [hsize]
  split
  · next s hs =>
    refine ends_modify (hp.setElement wf hs (hp.toHolds.setElement wf hs r) ?_)
    have hi : l.length / 10 < (h.chain a).length := (List.getElem?_eq_some_iff.1 hs).1
    rw [hnext]
    simp only [segmentsFor] at hchain ⊢
    omega
  · next hfull =>
    have hi : (h.chain a).length ≤ l.length / 10 := List.getElem?_eq_none_iff.1 hfull
    have grown := spares_extendChain wf (fun _ => hp.isValid) (hsize ▸ hfull)
    rw [hsize] at grown
    refine ends_bind (((holds_extendChain wf hp.toHolds hfull).and grown).imp (fun _ _ => id)
      fun _ _ he => he.1) fun s h₁ hs => ?_
    obtain ⟨⟨wf₁, hl₁, hs₁⟩, _, _, ht₁, hc₁⟩ := hs
    refine ends_modify ⟨hl₁.setElement wf₁ hs₁ r, ?_⟩
    rw [chain_setElement wf₁ (wf₁.segment_lt ht₁ (List.mem_of_getElem? hs₁)) (slotOf_lt _) _ ht₁,
      hc₁, List.length_append, List.length_singleton, hnext]
    simp only [segmentsFor] at hchain ⊢
    omega

theorem packed_arrayPushAll (wf : h.WellFormed) (hp : h.Packed a l) (rs : List Ref) :
    Ends (arrayPushAll a rs) h (fun _ h' => h'.Packed a (l ++ rs.map slotRef))
      fun _ _ => True := by
  induction rs generalizing h l with
  | nil => exact ends_pure (by simpa using hp)
  | cons r rs ih =>
    have ev := evolves_arrayPush (A := Set.univ) (a := a) (r := r) wf (fun _ => hp.isValid)
      (Set.mem_univ _)
    refine ends_bind (((packed_arrayPush wf hp r).and ev).imp (fun _ _ => id) fun _ _ _ => trivial)
      fun _ h₁ hp₁ => ?_
    simpa using ih hp₁.2.wellFormed hp₁.1

/-- A copy has as few segments as possible, whatever the original has. -/
theorem packed_arrayClone (wf : h.WellFormed) (a : Ref) :
    Ends (arrayClone a) h (fun r h' => h'.Packed r (h.arrayElements a)) fun _ _ => True := by
  refine (ends_arrayClone h a).imp ?_ fun _ _ => id
  rintro r _ ⟨h₁, h₂, hnew, hpush, rfl⟩
  have n := (newObject_arrayNew (A := Set.univ) wf).of_ok hnew
  have wf₁ := n.1.evolves.wellFormed
  have evs := evolves_arrayPushAll (A := Set.univ) wf₁ n.1.isValid
    fun e (_ : e ∈ h.arrayElements a) => Set.mem_univ _
  have hp := (packed_arrayPushAll wf₁ ((packed_arrayNew wf).of_ok hnew) (h.arrayElements a)).of_ok
    hpush
  rw [List.nil_append, map_slotRef_arrayElements] at hp
  exact hp.setFlagB (evs.of_ok hpush).wellFormed true

/-! ### Replaced and dropped elements -/

/-- The slot of a position is written, as a slot of the list of all slots. -/
theorem arraySlots_setElement_slotOf (wf : h.WellFormed) (ht : h.IsTable a) {i : Nat}
    (hs : h.segmentOf? a i = some s) (e : Option Ref) :
    (h.setElement s (slotOf i) e).arraySlots a = (h.arraySlots a).set i (e.map slotRef) := by
  rw [arraySlots_setElement wf ht hs (slotOf_lt i), slotOf, Nat.div_add_mod]

theorem Holds.of_setElement (wf : h.WellFormed) (hl : h.Holds a l) {i : Nat}
    (hs : h.segmentOf? a i = some s) (e : Option Ref) {l' : List Ref}
    (slots : ∃ n, (h.arraySlots a).set i (e.map slotRef) = l'.map some ++ List.replicate n none) :
    (h.setElement s (slotOf i) e).Holds a l' := by
  refine hl.of_sameObjects (WritesIn.sameObjects_of_segment wf.layout (wf.segment_lt hl.isTable
    (List.mem_of_getElem? hs)) (writesIn_setElement h s (slotOf_lt i) e)) l' ?_
  rwa [arraySlots_setElement_slotOf wf hl.isTable hs]

/-- An element is replaced. -/
theorem Holds.arraySet (wf : h.WellFormed) (hl : h.Holds a l) {i : Nat} (hi : i < l.length)
    (r : Ref) : ∃ s, h.segmentOf? a i = some s
      ∧ h.arraySet a i r = (true, h.setElement s (slotOf i) (some r))
      ∧ (h.setElement s (slotOf i) (some r)).Holds a (l.set i (slotRef r)) := by
  obtain ⟨s, hs, _⟩ := hl.exists_slot hi
  refine ⟨s, hs, ?_, hl.of_setElement wf hs (some r) ?_⟩
  · rw [Heap.arraySet, hl.arraySize, if_pos hi, hs]
  · obtain ⟨n, hn⟩ := hl.slots
    refine ⟨n, ?_⟩
    rw [hn, List.set_append_left _ _ (by simpa using hi), List.map_set]
    rfl

theorem packed_arraySet (wf : h.WellFormed) (hp : h.Packed a l) {i : Nat} (hi : i < l.length)
    (r : Ref) : ∃ h', h.arraySet a i r = (true, h') ∧ h'.Packed a (l.set i (slotRef r)) := by
  obtain ⟨s, hs, hset, hl⟩ := hp.toHolds.arraySet wf hi r
  exact ⟨_, hset, hp.setElement wf hs hl (by simp)⟩

theorem arraySet_of_le (hl : h.Holds a l) {i : Nat} (hi : l.length ≤ i) (r : Ref) :
    h.arraySet a i r = (false, h) := by
  rw [arraySet, hl.arraySize, if_neg (Nat.not_lt.2 hi)]

theorem arrayPop_of_nil (hl : h.Holds a []) : h.arrayPop a = (false, h) := by
  rw [arrayPop, hl.arraySize]
  rfl

/-- The slot of the last element is emptied. -/
theorem Holds.dropLast (wf : h.WellFormed) (hl : h.Holds a (l ++ [e]))
    (hs : h.segmentOf? a l.length = some s) :
    (h.setElement s (slotOf l.length) none).Holds a l := by
  obtain ⟨n, hn⟩ := hl.slots
  refine hl.of_setElement wf hs none ⟨n + 1, ?_⟩
  rw [hn, List.map_append, List.append_assoc, List.set_append_right _ _ (by simp),
    List.length_map, Nat.sub_self]
  rfl

/-- The last segment of a chain is given back. The sequence does not reach into it. -/
theorem Holds.cut (wf : h.WellFormed) (hl : h.Holds a l) {segments : List SegRef}
    (hc : h.chain a = segments ++ [p, s]) (hlen : l.length ≤ 10 * (segments.length + 1)) :
    ((h.setNext p noNext).freeSegment s).Holds a l
      ∧ ((h.setNext p noNext).freeSegment s).chain a = segments ++ [p] := by
  have ht := hl.isTable
  have hp : p.toNat < h.segmentSlots := wf.segment_lt ht (by rw [hc]; simp)
  have hchain := chain_cut wf ht hc (q := noNext) (l := []) rfl (List.nil_subset _)
  have hwidth : ((segments ++ [p]).flatMap h.elements).length = 10 * (segments.length + 1) := by
    simp [List.length_flatMap, length_elements, slotsPerSegment, pairsPerSegment]
    omega
  -- the slots that are left are the first ones
  have hslots : ((h.setNext p noNext).freeSegment s).arraySlots a
      = (h.arraySlots a).take (10 * (segments.length + 1)) := by
    have hall : h.arraySlots a = (segments ++ [p]).flatMap h.elements ++ h.elements s := by
      rw [arraySlots, hc]
      simp
    rw [hall, ← hwidth, List.take_left, arraySlots, hchain]
    refine List.flatMap_congr fun x hx => elements_cut wf.layout hp (wf.segment_lt ht ?_) _ _
    rw [hc, List.append_cons]
    exact List.mem_append_left _ hx
  refine ⟨hl.of_sameObjects (sameObjects_cut wf.layout hp _ _) l ?_, hchain⟩
  obtain ⟨n, hn⟩ := hl.slots
  rw [hslots, hn, List.take_append, List.take_of_length_le (by simpa using hlen),
    List.take_replicate]
  exact ⟨_, rfl⟩

/-- Dropping the last element empties its slot. If the element stood alone in the last segment, and
that is not the only one, the segment is cut off. -/
theorem Packed.arrayPop_cases (hp : h.Packed a (l ++ [e])) :
    ∃ s, h.segmentOf? a l.length = some s
      ∧ (segmentsFor (l.length + 1) = segmentsFor l.length
          ∧ h.arrayPop a = (true, h.setElement s (slotOf l.length) none)
        ∨ ∃ segments p, h.chain a = segments ++ [p, s] ∧ l.length = 10 * (segments.length + 1)
          ∧ h.arrayPop a
            = (true, ((h.setElement s (slotOf l.length) none).setNext p noNext).freeSegment s)) := by
  have hlen : (l ++ [e]).length = l.length + 1 := by simp
  have hchain := hp.length_chain
  obtain ⟨s, hs, _⟩ := hp.exists_slot (i := l.length) (by simp)
  refine ⟨s, hs, ?_⟩
  rw [hlen] at hchain
  simp only [arrayPop, hp.arraySize, hlen, Nat.add_one_ne_zero, if_false, Nat.add_sub_cancel, hs]
  simp only [segmentsFor] at hchain
  split
  · next hcond =>
    obtain ⟨p, hbefore, _⟩ := hp.exists_slot (i := l.length - slotsPerSegment) (by rw [hlen]; omega)
    rw [hbefore]
    rw [segmentOf?] at hs hbefore
    simp only [slotOf, slotsPerSegment, pairsPerSegment] at hcond hs hbefore
    refine .inr ⟨(h.chain a).take ((l.length - 10) / 10), p, ?_, ?_, rfl⟩
    · -- the element stood alone in the last segment, so the one before that comes last but one
      have hnext : l.length / 10 = (l.length - 10) / 10 + 1 := by omega
      have hsplit := chain_eq_of_getElem? hbefore (hnext ▸ hs)
      rwa [List.drop_eq_nil_of_le (by change _ ≤ (l.length - 10) / 10 + 2; omega)] at hsplit
    · rw [List.length_take]
      omega
  · next hcond =>
    refine .inl ⟨?_, rfl⟩
    simp only [slotOf, slotsPerSegment, pairsPerSegment] at hcond
    simp only [segmentsFor]
    omega

/-- Dropping the only element of the last segment gives the segment back. -/
theorem packed_arrayPop (wf : h.WellFormed) (hp : h.Packed a (l ++ [e])) :
    ∃ h', h.arrayPop a = (true, h') ∧ h'.Packed a l := by
  obtain ⟨s, hs, ⟨hcount, hpop⟩ | ⟨segments, p, hsplit, hcount, hpop⟩⟩ := hp.arrayPop_cases
  · refine ⟨_, hpop, hp.setElement wf hs (hp.toHolds.dropLast wf hs) ?_⟩
    rw [List.length_append, List.length_singleton, hcount]
  · have hlt := wf.segment_lt hp.isTable (List.mem_of_getElem? hs)
    have ev : Evolves ∅ Set.univ h (h.setElement s (slotOf l.length) none) :=
      evolves_setElement wf hlt (slotOf_lt _) (by simp)
    have hc := chain_setElement wf hlt (slotOf_lt l.length) none hp.isTable
    obtain ⟨hl', hc'⟩ := (hp.toHolds.dropLast wf hs).cut ev.wellFormed (hc.trans hsplit) hcount.le
    refine ⟨_, hpop, hl', ?_⟩
    rw [hc', List.length_append, List.length_singleton]
    simp only [segmentsFor]
    omega

theorem packed_arrayPopMany (wf : h.WellFormed) (hp : h.Packed a l) :
    (h.arrayPopMany a l.length).Packed a [] := by
  induction l using List.reverseRecOn generalizing h with
  | nil => exact hp
  | append_singleton l e ih =>
    obtain ⟨h', hpop, hp'⟩ := packed_arrayPop wf hp
    have ev : Evolves ∅ Set.univ h (h.arrayPop a).2 := evolves_arrayPop wf fun _ => hp.isValid
    rw [hpop] at ev
    rw [List.length_append, List.length_singleton, arrayPopMany, hpop]
    exact ih ev.wellFormed hp'

theorem packed_arrayClear (wf : h.WellFormed) (hp : h.Packed a l) :
    (h.arrayClear a).Packed a [] := by
  have ev : Evolves ∅ Set.univ h (h.arrayPopMany a (h.arraySize a)) :=
    evolves_arrayPopMany wf hp.isValid _
  rw [arrayClear]
  rw [hp.arraySize] at ev ⊢
  exact (packed_arrayPopMany wf hp).setFlagB ev.wellFormed false

/-! ### Every array that can be made -/

/-- The arrays that can be made: a new one or a copy, and what is left of one by an operation on it,
or by a call that is not about it. The indices of elements fit in a slot. -/
inductive ArrayBuilt : Heap → Ref → Prop
  | new {h h' : Heap} {a : Ref} : Built h → arrayNew h = .ok a h' → ArrayBuilt h' a
  | clone {h h' : Heap} {a b : Ref} : Built h → arrayClone b h = .ok a h' → ArrayBuilt h' a
  | push {h : Heap} {a r : Ref} : ArrayBuilt h a → r.toNat < 0x8000 →
    ArrayBuilt (after (arrayPush a r) h) a
  | pop {h : Heap} {a : Ref} : ArrayBuilt h a → ArrayBuilt (h.arrayPop a).2 a
  | set {h : Heap} {a r : Ref} {i : Nat} : ArrayBuilt h a → r.toNat < 0x8000 →
    ArrayBuilt (h.arraySet a i r).2 a
  | clear {h : Heap} {a : Ref} : ArrayBuilt h a → ArrayBuilt (h.arrayClear a) a
  | elsewhere {h : Heap} {a : Ref} {q : Request} : ArrayBuilt h a → q.Allowed h → q.Leaves h a →
    ArrayBuilt (q.perform h) a

theorem Built.of_ok {α : Type} {x : HeapM α} {q : Request} {y : α} (hb : Built h)
    (hq : q.perform h = after x h) (allowed : q.Allowed h) (hx : x h = .ok y h') : Built h' := by
  have hb' := Built.perform hb allowed
  rwa [hq, after, hx] at hb'

/-- Every array that can be made is packed, in a heap that can be made. -/
theorem ArrayBuilt.packed (hb : ArrayBuilt h a) : Built h ∧ ∃ l, h.Packed a l := by
  induction hb with
  | new hb hnew =>
    exact ⟨hb.of_ok (q := .arrayNew) rfl trivial hnew,
      _, (packed_arrayNew hb.wellFormed.1).of_ok hnew⟩
  | @clone h h' a b hb hclone =>
    exact ⟨hb.of_ok (q := .arrayClone b) rfl trivial hclone,
      _, (packed_arrayClone hb.wellFormed.1 b).of_ok hclone⟩
  | @push h a r _ _ ih =>
    obtain ⟨hb, l, hp⟩ := ih
    refine ⟨hb.perform (q := .arrayPush a r) trivial, after_of_ends
      (P := fun h' => ∃ l, h'.Packed a l) ((packed_arrayPush hb.wellFormed.1 hp r).imp
      (fun _ _ hp' => ⟨_, hp'⟩) ?_)⟩
    rintro _ _ rfl
    exact ⟨l, hp⟩
  | @pop h a _ ih =>
    obtain ⟨hb, l, hp⟩ := ih
    refine ⟨hb.perform (q := .arrayPop a) trivial, ?_⟩
    rcases List.eq_nil_or_concat' l with rfl | ⟨l, e, rfl⟩
    · rw [arrayPop_of_nil hp.toHolds]
      exact ⟨[], hp⟩
    · obtain ⟨h', hpop, hp'⟩ := packed_arrayPop hb.wellFormed.1 hp
      rw [hpop]
      exact ⟨l, hp'⟩
  | @set h a r i _ _ ih =>
    obtain ⟨hb, l, hp⟩ := ih
    refine ⟨hb.perform (q := .arraySet a i r) trivial, ?_⟩
    by_cases hi : i < l.length
    · obtain ⟨h', hset, hp'⟩ := packed_arraySet hb.wellFormed.1 hp hi r
      rw [hset]
      exact ⟨_, hp'⟩
    · rw [arraySet_of_le hp.toHolds (Nat.not_lt.1 hi)]
      exact ⟨l, hp⟩
  | @clear h a _ ih =>
    obtain ⟨hb, l, hp⟩ := ih
    exact ⟨hb.perform (q := .arrayClear a) hp.isValid, [], packed_arrayClear hb.wellFormed.1 hp⟩
  | elsewhere _ allowed leaves ih =>
    obtain ⟨hb, l, hp⟩ := ih
    obtain ⟨wf, tidy⟩ := hb.wellFormed
    exact ⟨hb.perform allowed, l, hp.unaltered (leaves.unaltered wf tidy allowed hp.isValid)⟩

/-! ### Arrays as lists -/

/-- Everything that can be read from the array is read from the list `l`, and the chain has no
segment and no occupied slot beyond it. -/
structure ReadsAs (h : Heap) (a : Ref) (l : List Ref) : Prop where
  /-- The elements are those of the list, -/
  elements : h.arrayElements a = l
  /-- as many as it has, -/
  size : h.arraySize a = l.length
  /-- at the positions they have in it. -/
  get : ∀ i, h.arrayGet? a i = l[i]?
  /-- A search answers the first position of an equal element, or the length. -/
  find : ∀ r, h.arrayFind a r = l.findIdx fun e => h.compare e r == .eq
  /-- There are as many segments as the list needs. -/
  segments : (h.chain a).length = max 1 ((l.length + 9) / 10)
  /-- Behind the list, every slot is empty. -/
  slots : h.arraySlots a
    = l.map some ++ List.replicate (10 * (h.chain a).length - l.length) none

theorem Packed.readsAs (hp : h.Packed a l) : h.ReadsAs a l where
  elements := hp.arrayElements
  size := hp.arraySize
  get := hp.arrayGet?
  find r := by rw [arrayFind, arrayFindBy, hp.arrayElements]
  segments := hp.length_chain
  slots := hp.arraySlots_eq

/-- **Arrays are lists.** An array that can be made reads as a list, and the operations do to it
what they say on lists. They fail for want of room only, and but for a copy that failed half way
they then leave every byte as it was. No other object is altered, and a copy is a new array that
shares no segment with the original. -/
theorem arrays_are_lists (hb : ArrayBuilt h a) : ∃ l, h.ReadsAs a l
    ∧ (∀ r : Ref, r.toNat < 0x8000 → Ends (arrayPush a r) h
        (fun _ h' => h'.ReadsAs a (l ++ [r]) ∧ Spares {a} h h')
        fun e h' => e = .heapExhausted ∧ h' = h)
    ∧ (l = [] → h.arrayPop a = (false, h))
    ∧ (l ≠ [] → ∃ h', h.arrayPop a = (true, h') ∧ h'.ReadsAs a l.dropLast ∧ Spares {a} h h')
    ∧ (∀ i, ∀ r : Ref, i < l.length → r.toNat < 0x8000 →
        ∃ h', h.arraySet a i r = (true, h') ∧ h'.ReadsAs a (l.set i r) ∧ Spares {a} h h')
    ∧ (∀ i r, l.length ≤ i → h.arraySet a i r = (false, h))
    ∧ ((h.arrayClear a).ReadsAs a [] ∧ Spares {a} h (h.arrayClear a))
    ∧ Ends (arrayClone a) h
        (fun b h' => h.isValid b = false ∧ h'.isArray b = true ∧ h'.ReadsAs b l ∧ h'.ReadsAs a l
          ∧ List.Disjoint (h'.chain b) (h'.chain a) ∧ Spares ∅ h h')
        fun e h' => e = .heapExhausted ∧ Spares ∅ h h' := by
  obtain ⟨hb, l, hp⟩ := hb.packed
  have wf := hb.wellFormed.1
  have hv : h.kind a = .table → h.isValid a = true := fun _ => hp.isValid
  refine ⟨l, hp.readsAs, fun r hr => ?_, ?_, fun hne => ?_, fun i r hi hr => ?_,
    fun i r hi => arraySet_of_le hp.toHolds hi r,
    ⟨(packed_arrayClear wf hp).readsAs, spares_arrayClear wf hp.isValid⟩, ?_⟩
  · refine ((packed_arrayPush wf hp r).and (spares_arrayPush wf hv r)).imp (fun _ h' hpush => ?_)
      fun e h' he => ⟨rfl, he.1⟩
    rw [slotRef_of_lt hr] at hpush
    exact ⟨hpush.1.readsAs, hpush.2⟩
  · rintro rfl
    exact arrayPop_of_nil hp.toHolds
  · obtain ⟨l, e, rfl⟩ := (List.eq_nil_or_concat' l).resolve_left hne
    obtain ⟨h', hpop, hp'⟩ := packed_arrayPop wf hp
    have sp := spares_arrayPop wf hv
    rw [hpop] at sp
    rw [List.dropLast_concat]
    exact ⟨h', hpop, hp'.readsAs, sp⟩
  · obtain ⟨h', hset, hp'⟩ := packed_arraySet wf hp hi r
    have sp := spares_arraySet wf hv i r
    rw [hset] at sp
    rw [slotRef_of_lt hr] at hp'
    exact ⟨h', hset, hp'.readsAs, sp⟩
  · refine (((packed_arrayClone wf a).and (newObject_arrayClone (A := Set.univ) wf
      fun _ _ => Set.mem_univ _)).and (spares_arrayClone wf a)).imp ?_ fun e h' he => ⟨rfl, he.2⟩
    rintro b h' ⟨⟨hp', n, ht⟩, sp⟩
    have u := sp.unaltered hp.isValid
    have ne : b ≠ a := by
      rintro rfl
      rw [n.free] at hv
      exact Bool.false_ne_true (hv hp.isTable.2)
    rw [hp.arrayElements] at hp'
    exact ⟨n.free, hp'.isArray, hp'.readsAs, (hp.unaltered u).readsAs,
      n.evolves.wellFormed.disjoint b a ht (u.isTable hp.isTable) ne, sp⟩

/-- An array with one element more than a segment holds: itself, eleven times. -/
def elevenTimes : Heap := (after (arrayPush 0 0))^[11] (after arrayNew (make 64))

theorem arrays_are_lists_elevenTimes : ArrayBuilt elevenTimes 0
    ∧ elevenTimes.arraySize 0 = 11 ∧ (elevenTimes.chain 0).length = 2 := by
  have hmake : Built (make 64) := .make (by decide)
  have hnew : ArrayBuilt (after arrayNew (make 64)) 0 := by
    have hanswer : (match arrayNew (make 64) with
      | .ok r _ => r == 0
      | .error _ _ => false) = true := by decide +kernel
    split at hanswer
    · next r h' hok =>
      obtain rfl : r = 0 := eq_of_beq hanswer
      rw [after, hok]
      exact .new hmake hok
    · cases hanswer
  have hpushed : ∀ n, ArrayBuilt ((after (arrayPush 0 0))^[n] (after arrayNew (make 64))) 0 := by
    intro n
    induction n with
    | zero => exact hnew
    | succ n ih =>
      rw [Function.iterate_succ_apply']
      exact .push ih (by decide)
  have hb : ArrayBuilt elevenTimes 0 := hpushed 11
  have hsize : elevenTimes.arraySize 0 = 11 := by decide +kernel
  obtain ⟨l, hl, _⟩ := arrays_are_lists hb
  refine ⟨hb, hsize, ?_⟩
  rw [hl.segments, ← hl.size, hsize]
  rfl

end Heap

end SwarmVm
