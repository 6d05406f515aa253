import SwarmVm.Proofs.Heap.Objects

/-!
# Tables and arrays

What tables and arrays do to the heap, in terms of `Heap.Evolves`: an operation on one of them
leaves a well-formed heap, whether it succeeds or runs out of room, and the table or array holds
nothing new but the objects the operation was given. A chain grows at its end by a segment that
nobody owns, and loses a segment only after it has been taken out of the chain.

None of this depends on whether a table is used as a table or as an array: the structure of the heap
does not notice when pairs are read as a sequence, or the other way round.

## Main results

* `Heap.evolves_tableSet`, `Heap.evolves_arrayPush`, `Heap.evolves_arrayPop`,
  `Heap.evolves_arrayClear` — changes
* `Heap.newObject_arrayNew`, `Heap.newObject_arrayClone` — new arrays
* `Heap.pointsTo_of_tableGet?`, `Heap.pointsTo_of_mem_arrayElements` — what is found in a table or
  an array, it points at
-/

namespace SwarmVm

namespace Heap

variable {h h' : Heap} {r t a e : Ref} {s p : SegRef} {l l₁ l₂ : List SegRef} {A : Set Ref}

/-! ### Growing and shrinking a chain -/

/-- A chain grows by a segment at its end. -/
theorem evolves_append (wf : h.WellFormed) (ht : h.IsTable t) (hc : h.chain t = l ++ [p])
    (n : h.NewSegment s h') : Evolves ∅ A h (h'.setNext p s)
      ∧ s.toNat < (h'.setNext p s).segmentSlots := by
  have ev : Evolves ∅ A h h' := n.evolves wf
  have ht' := ev.isTable (Set.notMem_empty t) ht
  have hc' : h'.chain t = l ++ p :: [] := (n.chain wf ht).trans hc
  have hs : h'.Unowned s := n.unowned wf
  have hp : p ∉ [s] := by
    intro hp
    rw [List.mem_singleton] at hp
    exact hs t ht' (by rw [hc', hp]; simp)
  refine ⟨ev.trans' (evolves_setNext ev.wellFormed ht' hc' n.linked hp ?_ ?_), ?_⟩
  · intro s' hs'
    rw [List.mem_singleton] at hs'
    exact .inr (hs' ▸ hs)
  · intro s' hs' _ k hk e he
    rw [List.mem_singleton] at hs'
    rw [hs', n.empty k hk] at he
    cases he
  · have w : WritesIn (h'.segmentOffset p) (h'.segmentOffset p + 22) h' (h'.setNext p s) :=
      writesIn_setLink h' p _
    rw [w.segmentSlots]
    exact n.linked.lt List.mem_cons_self

/-- A chain goes on somewhere behind one of its segments, and that segment is given back. -/
theorem evolves_cut (wf : h.WellFormed) (ht : h.IsTable t) (hc : h.chain t = l₁ ++ p :: s :: l₂)
    {q : SegRef} (hq : h.Linked q l) (sub : l ⊆ l₂) :
    Evolves ∅ A h ((h.setNext p q).freeSegment s) := by
  have hl := wf.linked t ht
  rw [hc] at hl
  obtain ⟨_, htail, hdis⟩ := List.nodup_append.1 hl.nodup
  obtain ⟨hp, hs, _⟩ : p ∉ s :: l₂ ∧ s ∉ l₂ ∧ l₂.Nodup := by
    simpa only [List.nodup_cons] using htail
  have hpl : p ∉ l := fun hpl => hp (List.mem_cons_of_mem _ (sub hpl))
  have ev : Evolves ∅ A h (h.setNext p q) := by
    refine evolves_setNext wf ht hc hq hpl (fun s' hs' => .inl (by simp [sub hs'])) ?_
    intro s' hs' hfree
    exact absurd (by rw [hc]; simp [sub hs']) (hfree t ht)
  -- nobody owns the segment any more: the table has lost it, and it was not another's before
  refine ev.trans' (evolves_freeSegment ev.wellFormed fun r hr hmem => ?_)
  have hw : WritesIn _ _ h (h.setNext p q) := writesIn_setLink h p _
  have o := WritesIn.sameObjects_of_segment wf.layout (hl.lt (x := p) (by simp)) hw
  have hr := (o.sameButHeads.isTable_iff r).1 hr
  by_cases ne : r = t
  · subst ne
    rw [chain_setNext wf ht hc hq hpl] at hmem
    rcases List.mem_append.1 hmem with hmem | hmem
    · exact hdis s hmem s (by simp) rfl
    · rcases List.mem_cons.1 hmem with rfl | hmem
      · exact hp List.mem_cons_self
      · exact hs (sub hmem)
  · rw [chain_setNext_of_ne wf ht (by rw [hc]; simp) hr ne] at hmem
    exact wf.disjoint r t hr ht ne hmem (by rw [hc]; simp)

/-- The first segment of a chain is given back. -/
theorem evolves_cut_head (wf : h.WellFormed) (ht : h.IsTable t) (hc : h.chain t = s :: l) :
    Evolves ∅ A h ((h.setTableHead t (h.next s)).freeSegment s) := by
  have hl := wf.linked t ht
  rw [hc] at hl
  obtain ⟨rfl, _, _, htail⟩ := id hl
  have ev : Evolves ∅ A h (h.setTableHead t (h.next (h.tableHead t))) :=
    evolves_setTableHead wf ht htail fun s' hs' => by rw [hc]; simp [hs']
  refine ev.trans' (evolves_freeSegment ev.wellFormed fun r hr hmem => ?_)
  have hr : h.IsTable r := by
    rwa [IsTable, isValid, kind, header_setTableHead] at hr
  by_cases ne : r = t
  · subst ne
    rw [chain_setTableHead wf.layout ht htail] at hmem
    exact (List.nodup_cons.1 hl.nodup).1 hmem
  · rw [chain_setTableHead_of_ne wf ht hr ne] at hmem
    exact wf.disjoint r t hr ht ne hmem (by rw [hc]; simp)

/-! ### Tables -/

theorem mem_pairSlots {q : PairSlot} (hq : q ∈ h.pairSlots t) :
    q.segment ∈ h.chain t ∧ q.pair < pairsPerSegment := by
  obtain ⟨s, hs, hq⟩ := List.mem_flatMap.1 hq
  obtain ⟨i, hi, rfl⟩ := List.mem_map.1 hq
  exact ⟨hs, List.mem_range.1 hi⟩

theorem evolves_setKey (wf : h.WellFormed) {q : PairSlot} (hs : q.segment.toNat < h.segmentSlots)
    (hq : q.pair < pairsPerSegment) {e : Option Ref} (he : ∀ r, e = some r → slotRef r ∈ A) :
    Evolves ∅ A h (h.setKey q e) ∧ (h.setKey q e).segmentSlots = h.segmentSlots := by
  have hk : 2 * q.pair < slotsPerSegment := by rw [slotsPerSegment]; omega
  exact ⟨evolves_setElement wf hs hk he, (writesIn_setElement h q.segment hk e).segmentSlots⟩

theorem evolves_setFieldValue (wf : h.WellFormed) {q : PairSlot}
    (hs : q.segment.toNat < h.segmentSlots) (hq : q.pair < pairsPerSegment) {e : Option Ref}
    (he : ∀ r, e = some r → slotRef r ∈ A) : Evolves ∅ A h (h.setFieldValue q e) :=
  evolves_setElement wf hs (by rw [slotsPerSegment]; omega) he

theorem evolves_writePair (wf : h.WellFormed) {q : PairSlot}
    (hs : q.segment.toNat < h.segmentSlots) (hq : q.pair < pairsPerSegment) {key value : Ref}
    (hk : slotRef key ∈ A) (hv : slotRef value ∈ A) : Evolves ∅ A h (h.writePair q key value) := by
  obtain ⟨ev, hslots⟩ := evolves_setKey (A := A) (e := some key) wf hs hq (by simpa using hk)
  exact ev.trans' (evolves_setFieldValue ev.wellFormed (by rw [hslots]; exact hs) hq
    (by simpa using hv))

/-- Before a segment of a list there is another one, unless it is the first. -/
theorem segmentBefore?_cases (hs : s ∈ l) :
    (∃ l₁ b l₂, l = l₁ ++ b :: s :: l₂ ∧ segmentBefore? l s = some b)
      ∨ ∃ l₂, l = s :: l₂ ∧ segmentBefore? l s = none := by
  fun_induction segmentBefore? l s with
  | case1 => exact .inr ⟨_, rfl, rfl⟩
  | case2 a rest s ne => exact .inl ⟨[], a, rest, rfl, rfl⟩
  | case3 a b rest s ne ne' ih =>
    rcases ih ((List.mem_cons.1 hs).resolve_left (Ne.symm ne)) with
      ⟨l₁, c, l₂, hl, hb⟩ | ⟨l₂, hl, _⟩
    · exact .inl ⟨a :: l₁, c, l₂, by rw [hl]; rfl, hb⟩
    · exact absurd (List.cons.inj hl).1 ne'
  | case4 l s hshort =>
    cases l with
    | nil => exact absurd hs List.not_mem_nil
    | cons x l =>
      cases l with
      | nil => exact .inr ⟨[], by rw [List.mem_singleton.1 hs], rfl⟩
      | cons y l => exact absurd rfl (hshort x y l)

theorem evolves_unlinkSegment (wf : h.WellFormed) (ht : h.IsTable t) (hs : s ∈ h.chain t) :
    Evolves ∅ A h (h.unlinkSegment t s) := by
  rw [unlinkSegment]
  rcases segmentBefore?_cases hs with ⟨l₁, b, l₂, hc, hb⟩ | ⟨l₂, hc, hb⟩
  · have hl := wf.linked t ht
    rw [hc, List.append_cons] at hl
    rw [hb]
    exact evolves_cut wf ht hc hl.of_append.2.2.2 (List.Subset.refl l₂)
  · rw [hb]
    simp only
    split
    · exact .refl wf
    · exact evolves_cut_head wf ht hc

theorem evolves_erasePair (wf : h.WellFormed) (ht : h.IsTable t) {q : PairSlot}
    (hq : q ∈ h.pairSlots t) : Evolves ∅ A h (h.erasePair t q) := by
  obtain ⟨hs, hp⟩ := mem_pairSlots hq
  have hlt := wf.segment_lt ht hs
  obtain ⟨ev₁, hslots⟩ := evolves_setKey (A := A) (e := none) wf hlt hp (by simp)
  have hlt₁ : q.segment.toNat < (h.setKey q none).segmentSlots := by rw [hslots]; exact hlt
  have ev₂ : Evolves ∅ A (h.setKey q none) ((h.setKey q none).setFieldValue q none) :=
    evolves_setFieldValue ev₁.wellFormed hlt₁ hp (by simp)
  have ev := ev₁.trans' ev₂
  have ht₁ := ev₁.isTable (Set.notMem_empty t) ht
  have hchain : ((h.setKey q none).setFieldValue q none).chain t = h.chain t := by
    rw [setFieldValue,
      chain_setElement ev₁.wellFormed hlt₁ (by rw [slotsPerSegment]; omega) none ht₁,
      setKey, chain_setElement wf hlt (by rw [slotsPerSegment]; omega) none ht]
  rw [erasePair]
  split
  · exact ev.trans' (evolves_unlinkSegment ev.wellFormed (ev.isTable (Set.notMem_empty t) ht)
      (by rw [hchain]; exact hs))
  · exact ev

theorem evolves_insertPair (wf : h.WellFormed) (ht : h.IsTable t) (hne : h.chain t ≠ [])
    {key value : Ref} (hk : slotRef key ∈ A) (hv : slotRef value ∈ A) :
    Ends (insertPair t key value) h (fun _ h' => Evolves ∅ A h h') fun _ h' => h' = h := by
  refine ends_get_bind ?_
  cases hf : h.freePair? t with
  | some q =>
    obtain ⟨hs, hp⟩ := mem_pairSlots (List.mem_of_find?_eq_some hf)
    exact ends_modify (evolves_writePair wf (wf.segment_lt ht hs) hp hk hv)
  | none =>
    refine ends_get_bind (ends_bind (newSegment_allocSegment wf.layout) fun s h₁ n => ?_)
    have hlast : (h.chain t).getLast?.getD noNext = (h.chain t).getLast hne := by
      rw [List.getLast?_eq_some_getLast hne, Option.getD_some]
    rw [hlast]
    obtain ⟨ev, hslot⟩ := evolves_append (A := A) wf ht (List.dropLast_append_getLast hne).symm n
    refine ends_bind (ends_modify (Q := fun _ h' => h' = h₁.setNext _ s) rfl) fun _ h₂ he => ?_
    subst he
    exact ends_modify (ev.trans' (evolves_writePair ev.wellFormed hslot (Nat.succ_pos _) hk hv))

/-- Storing under a key. An object that is not a table is left alone. -/
theorem evolves_tableSet (wf : h.WellFormed) (ht : h.kind t = .table → h.isValid t = true)
    {key value : Ref} (hk : slotRef key ∈ A) (hv : slotRef value ∈ A) :
    Ends (tableSet t key value) h (fun _ h' => Evolves ∅ A h h') fun _ h' => h' = h := by
  refine ends_get_bind ?_
  split
  · exact ends_pure (.refl wf)
  · next hcond =>
    rw [not_or] at hcond
    have hkind : h.kind t = .table := by
      by_contra hkind
      exact hcond.1 (by rw [tableHead, if_neg hkind])
    have ht : h.IsTable t := ⟨ht hkind, hkind⟩
    have hne : h.chain t ≠ [] := by
      intro hnil
      have hl := wf.linked t ht
      rw [hnil] at hl
      exact hcond.1 hl
    split
    · next q hq _ =>
      exact ends_set (evolves_erasePair wf ht (List.mem_of_find?_eq_some hq))
    · next q hq _ =>
      obtain ⟨hs, hp⟩ := mem_pairSlots (List.mem_of_find?_eq_some hq)
      exact ends_set (evolves_setFieldValue wf (wf.segment_lt ht hs) hp (by simpa using hv))
    · exact ends_pure (.refl wf)
    · exact evolves_insertPair wf ht hne hk hv

/-! ### Arrays -/

theorem length_untilGap_le : ∀ slots : List (Option Ref), (untilGap slots).length ≤ slots.length
  | [] => le_rfl
  | none :: _ => Nat.zero_le _
  | some _ :: rest => Nat.succ_le_succ (length_untilGap_le rest)

theorem arraySize_le (h : Heap) (a : Ref) :
    h.arraySize a ≤ slotsPerSegment * (h.chain a).length := by
  have hlen : (h.arraySlots a).length = slotsPerSegment * (h.chain a).length := by
    rw [arraySlots, List.length_flatMap]
    simp [elements, Nat.mul_comm]
  rw [← hlen]
  exact length_untilGap_le _

theorem slotOf_lt (position : Nat) : slotOf position < slotsPerSegment := Nat.mod_lt _ (by decide)

theorem isTable_of_segmentOf? {i : Nat} (ht : h.kind a = .table → h.isValid a = true)
    (hs : h.segmentOf? a i = some s) : h.IsTable a ∧ s ∈ h.chain a := by
  have hmem : s ∈ h.chain a := List.mem_of_getElem? hs
  have hk := kind_eq_table_of_mem_chain hmem
  exact ⟨⟨ht hk, hk⟩, hmem⟩

theorem evolves_arraySet (wf : h.WellFormed) (ht : h.kind a = .table → h.isValid a = true)
    (i : Nat) (hr : slotRef r ∈ A) : Evolves ∅ A h (h.arraySet a i r).2 := by
  rw [arraySet]
  split
  · next s hs =>
    split at hs
    · obtain ⟨htab, hmem⟩ := isTable_of_segmentOf? ht hs
      have hlt := wf.segment_lt htab hmem
      exact evolves_setElement (e := some r) wf hlt (slotOf_lt i) (by simpa using hr)
    · cases hs
  · exact .refl wf

/-- The segment of the last element of an array without a free slot is the last of the chain. -/
theorem chain_eq_append_of_full (hfull : h.segmentOf? a (h.arraySize a) = none)
    (hp : h.segmentOf? a (h.arraySize a - 1) = some p) :
    h.chain a = (h.chain a).dropLast ++ [p] := by
  have hle := arraySize_le h a
  have hlen := List.getElem?_eq_none_iff.1 hfull
  simp only [slotsPerSegment, pairsPerSegment] at hle hlen
  have hlast : (h.chain a)[(h.chain a).length - 1]? = some p := by
    rw [← hp, segmentOf?]
    congr 1
    simp only [slotsPerSegment, pairsPerSegment]
    omega
  have hget : (h.chain a).getLast? = some p := by rw [List.getLast?_eq_getElem?, hlast]
  exact (List.dropLast_append_getLast? p hget).symm

theorem evolves_extendChain (wf : h.WellFormed) (ht : h.kind a = .table → h.isValid a = true)
    (hfull : h.segmentOf? a (h.arraySize a) = none) : Ends (extendChain a (h.arraySize a)) h
      (fun s h' => Evolves ∅ A h h' ∧ s.toNat < h'.segmentSlots) fun _ h' => h' = h := by
  refine ends_get_bind ?_
  split
  · next p hp =>
    split at hp
    · cases hp
    · next hpos =>
      obtain ⟨htab, _⟩ := isTable_of_segmentOf? ht hp
      refine ends_bind (newSegment_allocSegment wf.layout) fun s h₁ n => ?_
      refine ends_bind (ends_modify (Q := fun _ h' => h' = h₁.setNext p s) rfl) fun _ h₂ he => ?_
      subst he
      exact ends_pure (evolves_append wf htab (chain_eq_append_of_full hfull hp) n)
  · exact ends_throw rfl

/-- Appending an element. -/
theorem evolves_arrayPush (wf : h.WellFormed) (ht : h.kind a = .table → h.isValid a = true)
    (hr : slotRef r ∈ A) :
    Ends (arrayPush a r) h (fun _ h' => Evolves ∅ A h h') fun _ h' => h' = h := by
  have fill : ∀ (s : SegRef) h₁, Evolves ∅ A h h₁ ∧ s.toNat < h₁.segmentSlots →
      Ends (modify (·.setElement s (slotOf (h.arraySize a)) (some r)) : HeapM Unit) h₁
        (fun _ h' => Evolves ∅ A h h') fun _ h' => h' = h := by
    intro s h₁ hs
    have ev : Evolves ∅ A h₁ (h₁.setElement s (slotOf (h.arraySize a)) (some r)) :=
      evolves_setElement hs.1.wellFormed hs.2 (slotOf_lt _) (by simpa using hr)
    exact ends_modify (hs.1.trans' ev)
  refine ends_get_bind ?_
  simp only
  split
  · next s hs =>
    obtain ⟨htab, hmem⟩ := isTable_of_segmentOf? ht hs
    exact fill s h ⟨.refl wf, wf.segment_lt htab hmem⟩
  · next hs => exact ends_bind (evolves_extendChain wf ht hs) fill

theorem evolves_arrayPushAll {rs : List Ref} (wf : h.WellFormed) (ht : h.isValid a = true)
    (hr : ∀ r ∈ rs, slotRef r ∈ A) : Ends (arrayPushAll a rs) h (fun _ h' => Evolves ∅ A h h')
      fun _ h' => Evolves ∅ A h h' := by
  induction rs generalizing h with
  | nil => exact ends_pure (.refl wf)
  | cons r rs ih =>
    refine ends_bind ((evolves_arrayPush wf (fun _ => ht) (hr r List.mem_cons_self)).imp
      (fun _ _ => id) ?_) fun _ h₁ ev => ?_
    · rintro _ _ rfl
      exact .refl wf
    · exact (ih ev.wellFormed (ev.isValid a (Set.notMem_empty a) ht)
        fun r' hr' => hr r' (List.mem_cons_of_mem _ hr')).imp
        (fun _ _ ev' => ev.trans' ev') fun _ _ ev' => ev.trans' ev'

theorem chain_eq_of_getElem? {i : Nat} {chain : List SegRef} (hp : chain[i]? = some p)
    (hs : chain[i + 1]? = some s) : chain = chain.take i ++ p :: s :: chain.drop (i + 2) := by
  obtain ⟨hi, rfl⟩ := List.getElem?_eq_some_iff.1 hp
  obtain ⟨hi', rfl⟩ := List.getElem?_eq_some_iff.1 hs
  rw [← List.drop_eq_getElem_cons hi', ← List.drop_eq_getElem_cons hi, List.take_append_drop]

/-- Dropping the last element. The segment that it leaves empty is cut off. -/
theorem evolves_arrayPop (wf : h.WellFormed) (ht : h.kind a = .table → h.isValid a = true) :
    Evolves ∅ A h (h.arrayPop a).2 := by
  rw [arrayPop]
  simp only
  split
  · exact .refl wf
  · split
    · exact .refl wf
    · next s hs =>
      obtain ⟨htab, hmem⟩ := isTable_of_segmentOf? ht hs
      have hlt := wf.segment_lt htab hmem
      have ev : Evolves ∅ A h (h.setElement s (slotOf (h.arraySize a - 1)) none) :=
        evolves_setElement wf hlt (slotOf_lt _) (by simp)
      split
      · next hcond =>
        split
        · next p hp =>
          rw [segmentOf?] at hs hp
          have hi : (h.arraySize a - 1) / slotsPerSegment
              = (h.arraySize a - 1 - slotsPerSegment) / slotsPerSegment + 1 := by
            have := hcond.2
            simp only [slotsPerSegment, pairsPerSegment] at this ⊢
            omega
          rw [hi] at hs
          have hchain := chain_eq_of_getElem? hp hs
          rw [← chain_setElement wf hlt (slotOf_lt (h.arraySize a - 1)) none htab] at hchain
          exact ev.trans' (evolves_cut ev.wellFormed (ev.isTable (Set.notMem_empty a) htab) hchain
            (l := []) rfl (List.nil_subset _))
        · exact ev
      · exact ev

theorem evolves_arrayPopMany (wf : h.WellFormed) (hv : h.isValid a = true) (n : Nat) :
    Evolves ∅ A h (h.arrayPopMany a n) := by
  induction n generalizing h with
  | zero => exact .refl wf
  | succ n ih =>
    have ev : Evolves ∅ A h (h.arrayPop a).2 := evolves_arrayPop wf fun _ => hv
    rw [arrayPopMany]
    split
    · next h₁ he =>
      rw [he] at ev
      exact ev.trans' (ih ev.wellFormed (ev.isValid a (Set.notMem_empty a) hv))
    · next h₁ he =>
      rw [he] at ev
      exact ev

/-- Dropping every element. -/
theorem evolves_arrayClear (wf : h.WellFormed) (ht : h.IsTable a) :
    Evolves ∅ A h (h.arrayClear a) := by
  have ev : Evolves ∅ A h (h.arrayPopMany a (h.arraySize a)) := evolves_arrayPopMany wf ht.1 _
  exact ev.trans' (evolves_setFlagB ev.wellFormed (ev.isTable (Set.notMem_empty a) ht) false)

theorem arrayClear_of_not_table (hk : h.kind a ≠ .table) :
    h.arrayClear a = h.setFlagB a false := by
  have hsize : h.arraySize a = 0 := by
    rw [arraySize, arrayElements, arraySlots, chain_of_not_table hk]
    rfl
  rw [arrayClear, hsize, arrayPopMany]

/-- Whatever object is cleared, it is still there, as permanent as it was, and points at nothing
new. -/
theorem clears_arrayClear (wf : h.WellFormed) (hv : h.isValid a = true) :
    Evolves {a} A h (h.arrayClear a) ∧ (h.arrayClear a).isValid a = true
      ∧ ((h.arrayClear a).header a).permanent = (h.header a).permanent
      ∧ ∀ e, (h.arrayClear a).PointsTo a e → h.PointsTo a e ∨ e ∈ A := by
  by_cases hk : h.kind a = .table
  · have ev : Evolves ∅ A h (h.arrayClear a) := evolves_arrayClear wf ⟨hv, hk⟩
    have ha := Set.notMem_empty a
    exact ⟨ev.weaken _, ev.isValid a ha hv, ev.permanent a ha hv, ev.pointsTo a ha hv⟩
  · rw [arrayClear_of_not_table hk]
    have hh : (h.setFlagB a false).header a = { h.header a with flagB := false } :=
      header_setHeader wf.layout (lt_objectSlots_of_isValid hv) (tag_header_lt h a)
    refine ⟨evolves_setHeader wf hv hv rfl, (congrArg Header.valid hh).trans hv, by rw [hh],
      fun e he => .inl ?_⟩
    refine pointsTo_setHeader_of_flagB wf hv ?_ ?_ ?_ he
    · exact hv
    · rfl
    · rfl

/-- A new array is empty. -/
theorem newObject_arrayNew (wf : h.WellFormed) : Ends arrayNew h
    (fun r h' => NewObject A h r h' ∧ h'.IsTable r) fun _ h' => Evolves ∅ A h h' := by
  refine ends_bind (newObject_allocTable (A := A) wf) fun r h₁ n => ?_
  refine ends_bind (ends_modify (Q := fun _ h' => h' = h₁.setFlagA r true) rfl) fun _ h₂ he => ?_
  subst he
  have ev : Evolves ∅ A h₁ (h₁.setFlagA r true) :=
    evolves_setFlagA n.1.evolves.wellFormed n.2 true
  exact ends_pure ⟨n.1.trans ev, ev.isTable (Set.notMem_empty r) n.2⟩

/-- A new array with the elements of another. When they do not fit, it is given back. -/
theorem newObject_arrayClone (wf : h.WellFormed) (hA : ∀ e ∈ h.arrayElements a, slotRef e ∈ A) :
    Ends (arrayClone a) h (fun r h' => NewObject A h r h' ∧ h'.IsTable r)
      fun _ h' => Evolves ∅ A h h' := by
  refine ends_get_bind (ends_bind (newObject_arrayNew (A := A) wf) fun r h₁ n => ends_get_bind ?_)
  have wf₁ := n.1.evolves.wellFormed
  have push := evolves_arrayPushAll (A := A) wf₁ n.1.isValid hA
  cases hp : arrayPushAll r (h.arrayElements a) h₁ with
  | ok u h₂ =>
    have ev₂ := push.of_ok hp
    have ht₂ := ev₂.isTable (Set.notMem_empty r) n.2
    have ev₃ : Evolves ∅ A h₂ (h₂.setFlagB r true) :=
      evolves_setFlagB ev₂.wellFormed ht₂ true
    refine ends_bind (ends_set (Q := fun _ h' => h' = h₂.setFlagB r true) rfl) fun _ h' he => ?_
    subst he
    exact ends_pure ⟨(n.1.trans ev₂).trans ev₃, ev₃.isTable (Set.notMem_empty r) ht₂⟩
  | error e h₂ =>
    have ev₂ := push.of_error hp
    have n₂ := n.1.trans ev₂
    have ev₃ : Evolves ∅ A h₂ (h₂.arrayClear r) :=
      evolves_arrayClear ev₂.wellFormed (ev₂.isTable (Set.notMem_empty r) n.2)
    refine ends_bind (ends_set (Q := fun _ h' => h' = (h₂.arrayClear r).invalidate r) rfl)
      fun _ h' he => ?_
    subst he
    refine ends_throw ((n₂.trans ev₃).evolves.trans (evolves_invalidate ev₃.wellFormed r)
      fun r' hr => .inr ?_)
    rw [Set.mem_singleton_iff.1 hr, n.1.free]

/-! ### Reading -/

theorem pointsTo_of_element? (wf : h.WellFormed) (ht : h.kind t = .table → h.isValid t = true)
    {k : Nat} (hs : s ∈ h.chain t) (hk : k < slotsPerSegment) (he : h.element? s k = some e) :
    h.PointsTo t e := by
  have hkind := kind_eq_table_of_mem_chain hs
  exact (wf.pointsTo_iff ⟨ht hkind, hkind⟩).2 ⟨s, hs, k, hk, he⟩

theorem pointsTo_of_tableGet? (wf : h.WellFormed) (ht : h.kind t = .table → h.isValid t = true)
    {key : Ref} (he : h.tableGet? t key = some e) : h.PointsTo t e := by
  obtain ⟨q, hq, he⟩ := Option.bind_eq_some_iff.1 he
  obtain ⟨hs, hp⟩ := mem_pairSlots (List.mem_of_find?_eq_some hq)
  exact pointsTo_of_element? wf ht hs (by rw [slotsPerSegment]; omega) he

theorem pointsTo_of_arrayGet? (wf : h.WellFormed) (ht : h.kind a = .table → h.isValid a = true)
    {i : Nat} (he : h.arrayGet? a i = some e) : h.PointsTo a e := by
  rw [arrayGet?] at he
  split at he
  · obtain ⟨s, hs, he⟩ := Option.bind_eq_some_iff.1 he
    exact pointsTo_of_element? wf ht (isTable_of_segmentOf? ht hs).2 (slotOf_lt i) he
  · cases he

theorem mem_of_mem_untilGap : ∀ {slots : List (Option Ref)}, e ∈ untilGap slots → some e ∈ slots
  | some r :: rest, he => by
    rcases List.mem_cons.1 he with rfl | he
    · exact List.mem_cons_self
    · exact List.mem_cons_of_mem _ (mem_of_mem_untilGap he)

theorem pointsTo_of_mem_arrayElements (wf : h.WellFormed)
    (ht : h.kind a = .table → h.isValid a = true) (he : e ∈ h.arrayElements a) :
    h.PointsTo a e := by
  obtain ⟨s, hs, he⟩ := List.mem_flatMap.1 (mem_of_mem_untilGap he)
  obtain ⟨k, hk, he⟩ := List.mem_map.1 he
  exact pointsTo_of_element? wf ht hs (List.mem_range.1 hk) he

end Heap

end SwarmVm
