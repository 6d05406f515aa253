import SwarmVm.Proofs.Heap.Lists

/-!
# What a failed allocation leaves behind

An operation that takes several slots may run out of room in the middle. Then it gives back what it
took, so that the same objects and segments are in use as before, each with what it held; only the
edges may have moved.

A copy of an array takes an object, a first segment and as many more as it needs. When these run
out it is emptied again and its object is given back. But an array that is emptied keeps its first
segment, since an array always has one; giving back the object only clears its header, and the
segment stays in use without an owner.

All of this is said by naming what a heap has more than another. An operation under way has more
objects and segments than before; what is new may be written to and given back, and nothing else is
touched.

## Main definitions

* `Heap.Adds` — a heap with certain objects and segments more
* `Heap.Restores` — a heap with the same objects and segments
* `Heap.Growing` — an array that is under construction
* `Heap.Request.succeeds` — a call does not run out of room

## Main results

* `Heap.adds_alloc`, `Heap.adds_arrayNew` — one object, with its segment if it needs one
* `Heap.Growing.arrayPushAll`, `Heap.Growing.arrayClear` — an array is filled and emptied
* `Heap.adds_arrayClone` — what is left of a copy that does not fit
* `Heap.failed_call_releases` — all calls that can run out of room
-/

namespace SwarmVm

namespace Heap

variable {h h' h'' : Heap} {a r : Ref} {s p : SegRef} {l : List Ref} {e : Ref} {R R' : Set Ref}
  {S S' : Set SegRef}

/-! ### More objects and segments -/

/-- The objects `R` and the segments `S` were free and are in use now, and what was in use is as it
was. -/
structure Adds (R : Set Ref) (S : Set SegRef) (h h' : Heap) : Prop where
  /-- The objects were free. -/
  freeObject : ∀ r ∈ R, h.isValid r = false
  /-- The segments were free. -/
  freeSegment : ∀ s ∈ S, h.segmentIsValid s = false
  /-- There are these objects now besides those there were. -/
  isValid : ∀ r, h'.isValid r = true ↔ h.isValid r = true ∨ r ∈ R
  /-- An object that was there has its header, -/
  header : ∀ r, h.isValid r = true → h'.header r = h.header r
  /-- and its value. -/
  value : ∀ r, h.isValid r = true → h'.value r = h.value r
  /-- These segments are in use now besides those that were. -/
  segmentIsValid : ∀ s, h'.segmentIsValid s = true ↔ h.segmentIsValid s = true ∨ s ∈ S
  /-- A segment that was in use has its link, -/
  link : ∀ s, h.segmentIsValid s = true → h'.link s = h.link s
  /-- and its elements. -/
  element? : ∀ s, h.segmentIsValid s = true → ∀ k < slotsPerSegment,
    h'.element? s k = h.element? s k

/-- The same objects and segments are in use, each with what it held. -/
def Restores (h h' : Heap) : Prop := Adds ∅ ∅ h h'

theorem Restores.refl (h : Heap) : Restores h h :=
  ⟨by simp, by simp, by simp, fun _ _ => rfl, fun _ _ => rfl, by simp, fun _ _ => rfl,
    fun _ _ _ _ => rfl⟩

namespace Adds

theorem trans (ad : Adds R S h h') (ad' : Adds R' S' h' h'') :
    Adds (R ∪ R') (S ∪ S') h h'' where
  freeObject r hr := by
    refine hr.elim (ad.freeObject r) fun hr => Bool.eq_false_iff.2 fun hv => ?_
    exact absurd ((ad.isValid r).2 (.inl hv)) (by rw [ad'.freeObject r hr]; simp)
  freeSegment s hs := by
    refine hs.elim (ad.freeSegment s) fun hs => Bool.eq_false_iff.2 fun hv => ?_
    exact absurd ((ad.segmentIsValid s).2 (.inl hv)) (by rw [ad'.freeSegment s hs]; simp)
  isValid r := by rw [ad'.isValid, ad.isValid, Set.mem_union, or_assoc]
  header r hv := (ad'.header r ((ad.isValid r).2 (.inl hv))).trans (ad.header r hv)
  value r hv := (ad'.value r ((ad.isValid r).2 (.inl hv))).trans (ad.value r hv)
  segmentIsValid s := by rw [ad'.segmentIsValid, ad.segmentIsValid, Set.mem_union, or_assoc]
  link s hv := (ad'.link s ((ad.segmentIsValid s).2 (.inl hv))).trans (ad.link s hv)
  element? s hv k hk :=
    (ad'.element? s ((ad.segmentIsValid s).2 (.inl hv)) k hk).trans (ad.element? s hv k hk)

/-- An object that was not there before is written, and may be given back. -/
theorem object (ad : Adds R S h h') (layout : h'.Layout) (hr : a.toNat < h'.objectSlots)
    (w : WritesIn (objectOffset a) (objectOffset a + 5) h' h'') (free : h.isValid a = false)
    (others : ∀ r, r ≠ a → (r ∈ R' ↔ r ∈ R)) (own : h''.isValid a = true ↔ a ∈ R') :
    Adds R' S h h'' := by
  have g := w.sameSegments_of_object layout hr
  have ne : ∀ r, h.isValid r = true → r ≠ a := by
    rintro r hv rfl
    rw [free] at hv
    cases hv
  refine ⟨fun r hr => ?_, ad.freeSegment, fun r => ?_,
    fun r hv => (w.header_of_ne (ne r hv)).trans (ad.header r hv),
    fun r hv => (w.value_of_ne (ne r hv)).trans (ad.value r hv), fun s => ?_,
    fun s hv => (g.link layout s).trans (ad.link s hv), fun s hv k hk => ?_⟩
  · by_cases he : r = a
    · exact he ▸ free
    · exact ad.freeObject r ((others r he).1 hr)
  · by_cases he : r = a
    · rw [he, own, free]
      simp
    · rw [Heap.isValid, w.header_of_ne he, ← Heap.isValid, ad.isValid, others r he]
  · rw [Heap.segmentIsValid, g.link layout, ← Heap.segmentIsValid, ad.segmentIsValid]
  · have hv' := (ad.segmentIsValid s).2 (.inl hv)
    exact (g.element? layout (lt_segmentSlots_of_isValid hv') k).trans (ad.element? s hv k hk)

/-- A segment that was free before is written, and may be given back. -/
theorem segment (ad : Adds R S h h') (layout : h'.Layout) (hs : s.toNat < h'.segmentSlots)
    (w : WritesIn (h'.segmentOffset s) (h'.segmentOffset s + 22) h' h'')
    (free : h.segmentIsValid s = false) (others : ∀ s', s' ≠ s → (s' ∈ S' ↔ s' ∈ S))
    (own : h''.segmentIsValid s = true ↔ s ∈ S') : Adds R S' h h'' := by
  have o := WritesIn.sameObjects_of_segment layout hs w
  have ne : ∀ s', h.segmentIsValid s' = true → s' ≠ s := by
    rintro s' hv rfl
    rw [free] at hv
    cases hv
  refine ⟨ad.freeObject, fun s' hs' => ?_, fun r => ?_,
    fun r hv => (o.header r).trans (ad.header r hv), fun r hv => (o.value r).trans (ad.value r hv),
    fun s' => ?_, fun s' hv => (WritesIn.link_of_ne layout hs (ne s' hv) w).trans (ad.link s' hv),
    fun s' hv k hk => ?_⟩
  · by_cases he : s' = s
    · exact he ▸ free
    · exact ad.freeSegment s' ((others s' he).1 hs')
  · rw [o.isValid, ad.isValid]
  · by_cases he : s' = s
    · rw [he, own, free]
      simp
    · rw [Heap.segmentIsValid, WritesIn.link_of_ne layout hs he w, ← Heap.segmentIsValid,
        ad.segmentIsValid, others s' he]
  · have hv' := (ad.segmentIsValid s').2 (.inl hv)
    exact (WritesIn.element?_of_ne layout hs (lt_segmentSlots_of_isValid hv') (ne s' hv) w hk).trans
      (ad.element? s' hv k hk)

/-- A segment that came without an object belongs to nobody. -/
theorem unowned (ad : Adds ∅ S h h') (wf : h.WellFormed) (hs : s ∈ S) : h'.Unowned s := by
  intro t ht hmem
  have ht₀ : h.IsTable t := by
    have hv : h.isValid t = true := by simpa using (ad.isValid t).1 ht.1
    refine ⟨hv, ?_⟩
    rw [kind, ← ad.header t hv]
    exact ht.2
  obtain ⟨tv, hv, hhead⟩ := ht₀.value
  have hchain : h'.chain t = h.chain t := by
    refine Linked.chain_eq ?_
    rw [← head_eq_tableHead ((ad.value t ht₀.1).trans hv), hhead]
    exact (wf.linked t ht₀).congr fun s' hs' => ad.link s' (wf.segmentIsValid ht₀ hs')
  rw [hchain] at hmem
  have hfree := ad.freeSegment s hs
  rw [wf.segmentIsValid ht₀ hmem] at hfree
  cases hfree

end Adds

/-! ### One slot -/

theorem adds_of_fresh (layout : h.Layout) (segments : SameSegments h h')
    (header : ∀ r', r' ≠ r → h'.header r' = h.header r')
    (value : ∀ r', r' ≠ r → h'.value r' = h.value r') (free : h.isValid r = false)
    (valid : h'.isValid r = true) : Adds {r} ∅ h h' := by
  have ne : ∀ r', h.isValid r' = true → r' ≠ r := by
    rintro r' hv rfl
    rw [free] at hv
    cases hv
  refine ⟨by simpa using free, by simp, fun r' => ?_, fun r' hv => header r' (ne r' hv),
    fun r' hv => value r' (ne r' hv), fun s => ?_, fun s _ => segments.link layout s,
    fun s hv k _ => segments.element? layout (lt_segmentSlots_of_isValid hv) k⟩
  · by_cases he : r' = r
    · simp [he, valid]
    · rw [isValid, header r' he, ← isValid]
      simp [he]
  · rw [segmentIsValid, segments.link layout, ← segmentIsValid]
    simp

/-- One object more, or nothing at all. -/
theorem adds_allocSlot (layout : h.Layout) :
    Ends allocSlot h (fun r h' => Adds {r} ∅ h h') fun _ h' => h' = h := by
  refine (allocSlot_takes layout).imp (fun r h' hr => ?_) fun _ _ he => he.1
  obtain ⟨-, h₀, m, rfl⟩ := hr
  exact adds_of_fresh layout m.sameSegments (fun _ => m.header_initObject_of_ne)
    (fun _ => m.value_initObject_of_ne) m.free m.isValid_initObject

/-- Taking a segment changes no other link, be it that of a segment in use or of a free one. -/
theorem link_allocSegment (layout : h.Layout) : Ends allocSegment h
    (fun s h' => ∀ s', s' ≠ s → h'.link s' = h.link s') fun _ _ => True := by
  refine (allocSegment_takes layout).imp (fun s h' hs => ?_) fun _ _ _ => trivial
  obtain ⟨-, h₀, m, rfl⟩ := hs
  intro s' ne
  exact (WritesIn.link_of_ne m.layout m.lt ne (writesIn_initSegment h₀ s)).trans (m.link s' ne)

/-- One segment more, or nothing at all. -/
theorem adds_allocSegment (layout : h.Layout) :
    Ends allocSegment h (fun s h' => h.NewSegment s h' ∧ Adds ∅ {s} h h') fun _ h' => h' = h := by
  refine ((newSegment_allocSegment layout).and (link_allocSegment layout)).imp
    (fun s h' hn => ?_) fun _ _ he => he.1
  obtain ⟨n, hlink⟩ := hn
  refine ⟨n, by simp, by simpa using n.free, fun r => ?_, fun r _ => n.objects.header r,
    fun r _ => n.objects.value r, fun s' => ?_, n.links, n.elements⟩
  · rw [n.objects.isValid]
    simp
  · by_cases he : s' = s
    · rw [he, segmentIsValid, n.link]
      simp
    · rw [segmentIsValid, hlink s' he, ← segmentIsValid]
      simp [he]

/-! ### New objects -/

/-- The segments of a table or array, as a set. -/
def owned (h : Heap) (t : Ref) : Set SegRef := {s | s ∈ h.chain t}

/-- A table and its first segment more. If there is none, the object is given back. -/
theorem adds_allocTable (wf : h.WellFormed) : Ends alloc.allocTable h
    (fun r h' => h'.WellFormed ∧ h'.IsTable r ∧ Adds {r} (h'.owned r) h h')
    fun _ h' => Restores h h' := by
  refine ends_bind (((adds_allocSlot wf.layout).and (newObject_allocSlot (A := Set.univ) wf)).imp
    (fun _ _ => id) ?_) fun r h₁ hn => ends_get_bind ?_
  · rintro _ _ ⟨rfl, _⟩
    exact .refl _
  obtain ⟨ad, n⟩ := hn
  have wf₁ := n.evolves.wellFormed
  cases ha : allocSegment h₁ with
  | ok s h₂ =>
    obtain ⟨ns, ad₂⟩ := (adds_allocSegment wf₁.layout).of_ok ha
    have ev₂ : Evolves ∅ Set.univ h₁ h₂ := ns.evolves wf₁
    have hv₂ := ev₂.isValid r (Set.notMem_empty r) n.isValid
    have hr := lt_objectSlots_of_isValid hv₂
    obtain ⟨ev, ht, hchain⟩ := evolves_setValue_table (A := Set.univ) (v := ⟨s, false, false⟩)
      ev₂.wellFormed hv₂ ns.linked fun s' hs => by
        rw [List.mem_singleton.1 hs]
        exact ns.unowned wf₁
    refine ends_bind (ends_set (Q := fun _ h' => h' = h₂.setValue r (.table ⟨s, false, false⟩)) rfl)
      fun _ h' he => ?_
    subst he
    refine ends_pure ⟨ev.wellFormed, ht, ?_⟩
    have howned : (h₂.setValue r (.table ⟨s, false, false⟩)).owned r = {s} := by
      ext s'
      rw [owned, hchain]
      simp
    rw [howned]
    have hadds : Adds {r} (∅ ∪ {s}) h (h₂.setValue r (.table ⟨s, false, false⟩)) :=
      (ad.trans ad₂).object ns.layout hr (writesIn_setValue h₂ r _) n.free (by simp)
        (by simpa using ht.1)
    simpa using hadds
  | error e h₂ =>
    have he := (newSegment_allocSegment wf₁.layout).of_error ha
    subst he
    have hr := lt_objectSlots_of_isValid n.isValid
    have hh : (h₂.setHeader r Header.free).header r = Header.free :=
      header_setHeader wf₁.layout hr (by decide)
    refine ends_bind (ends_set (Q := fun _ h' => Restores h h') ?_) fun _ _ hr => ends_throw hr
    rw [invalidate, if_pos hr]
    refine ad.object wf₁.layout hr (writesIn_setHeader h₂ r Header.free) n.free (by simp) ?_
    rw [isValid, hh]
    simp [Header.free]

theorem restores_allocValue (layout : h.Layout) (v : Value) :
    Ends (allocValue v) h (fun _ _ => True) fun _ h' => Restores h h' := by
  refine ends_bind ((adds_allocSlot layout).imp (fun _ _ _ => trivial) ?_) fun r h₁ _ =>
    ends_bind (ends_modify (Q := fun _ _ => True) trivial) fun _ _ _ => ends_pure trivial
  rintro _ _ rfl
  exact .refl _

theorem restores_alloc (wf : h.WellFormed) (kind : Kind) :
    Ends (alloc kind) h (fun _ _ => True) fun _ h' => Restores h h' := by
  cases kind with
  | table => exact (adds_allocTable wf).imp (fun _ _ _ => trivial) fun _ _ => id
  | _ => exact restores_allocValue wf.layout _

theorem restores_copy (layout : h.Layout) (r : Ref) :
    Ends (copy r) h (fun _ _ => True) fun _ h' => Restores h h' := by
  refine ends_get_bind ?_
  cases h.value r with
  | table t => exact ends_pure trivial
  | _ => exact restores_allocValue layout _

/-! ### Tables and arrays -/

/-- There are two ways to store a pair that is not there, and only a segment can be missing. -/
theorem restores_tableSet (layout : h.Layout) (t key value : Ref) :
    Ends (tableSet t key value) h (fun _ _ => True) fun _ h' => Restores h h' := by
  refine ends_get_bind ?_
  split
  · exact ends_pure trivial
  · split
    · exact ends_set trivial
    · exact ends_set trivial
    · exact ends_pure trivial
    · refine ends_get_bind ?_
      split
      · exact ends_modify trivial
      · refine ends_get_bind (ends_bind ((newSegment_allocSegment layout).imp
          (fun _ _ _ => trivial) ?_) fun s h₁ _ => ?_)
        · rintro _ _ rfl
          exact .refl _
        · exact ends_bind (ends_modify (Q := fun _ _ => True) trivial) fun _ _ _ =>
            ends_modify trivial

theorem restores_arrayPush (layout : h.Layout) (a r : Ref) :
    Ends (arrayPush a r) h (fun _ _ => True) fun _ h' => Restores h h' := by
  refine ends_get_bind ?_
  simp only
  split
  · exact ends_modify trivial
  · refine ends_bind (Q := fun _ _ => True) (ends_get_bind ?_) fun _ _ _ => ends_modify trivial
    split
    · refine ends_bind ((newSegment_allocSegment layout).imp (fun _ _ _ => trivial) ?_) fun s h₁ _ =>
        ends_bind (ends_modify (Q := fun _ _ => True) trivial) fun _ _ _ => ends_pure trivial
      rintro _ _ rfl
      exact .refl _
    · exact ends_throw (.refl _)

namespace Adds

/-- An element slot of a new array is written. -/
theorem setElement (ad : Adds R (h'.owned a) h h') (wf : h'.WellFormed) (ht : h'.IsTable a)
    (hs : s ∈ h'.chain a) {k : Nat} (hk : k < slotsPerSegment) (e : Option Ref) :
    Adds R ((h'.setElement s k e).owned a) h (h'.setElement s k e) := by
  have hlt := wf.segment_lt ht hs
  rw [owned, chain_setElement wf hlt hk e ht]
  refine ad.segment wf.layout hlt (writesIn_setElement h' s hk e) (ad.freeSegment s hs)
    (fun _ _ => Iff.rfl) (iff_of_true ?_ hs)
  rw [Heap.segmentIsValid, link_setElement wf.layout hlt hk]
  exact wf.segmentIsValid ht hs

/-- The chain of a new array goes on elsewhere behind one of its segments. -/
theorem setNext (ad : Adds R S h h') (layout : h'.Layout) (hp : h'.segmentIsValid p = true)
    (hS : p ∈ S) (hs : s.toNat < Link.range) : Adds R S h (h'.setNext p s) := by
  have hlt := lt_segmentSlots_of_isValid hp
  refine ad.segment layout hlt (writesIn_setLink h' p _) (ad.freeSegment p hS)
    (fun _ _ => Iff.rfl) (iff_of_true ?_ hS)
  rw [Heap.segmentIsValid, link_setNext layout hlt hs]
  exact hp

/-- A full chain gets one more segment. -/
theorem extendChain (ad : Adds R (h'.owned a) h h') (wf : h'.WellFormed) (ht : h'.IsTable a)
    (hfull : h'.segmentOf? a (h'.arraySize a) = none) : Ends (extendChain a (h'.arraySize a)) h'
      (fun _ h'' => Adds R (h''.owned a) h h'') fun _ h'' => h'' = h' := by
  refine ends_get_bind ?_
  split
  · next p hp =>
    split at hp
    · cases hp
    · have hsplit := chain_eq_append_of_full hfull hp
      have hmem : p ∈ h'.chain a := by rw [hsplit]; simp
      refine ends_bind (adds_allocSegment wf.layout) fun s h₁ hn => ?_
      obtain ⟨n, ad₁⟩ := hn
      refine ends_bind (ends_modify (Q := fun _ h'' => h'' = h₁.setNext p s) rfl) fun _ h'' he => ?_
      subst he
      obtain ⟨-, -, -, hchain⟩ := spares_append wf ht hsplit n
      have howned : (h₁.setNext p s).owned a = h'.owned a ∪ {s} := by
        ext s'
        rw [owned, hchain]
        simp [owned, or_comm]
      have hboth := ad.trans ad₁
      rw [Set.union_empty, ← howned] at hboth
      refine ends_pure (hboth.setNext n.layout ?_ ?_ (n.linked.lt_range n.layout))
      swap
      · rw [howned]
        exact .inl hmem
      rw [Heap.segmentIsValid, n.links p (wf.segmentIsValid ht hmem)]
      exact wf.segmentIsValid ht hmem
  · exact ends_throw rfl

/-- A new array gets one more element, and nothing happens when there is no room for it. -/
theorem arrayPush (ad : Adds R (h'.owned a) h h') (wf : h'.WellFormed) (ht : h'.IsTable a)
    (r : Ref) : Ends (arrayPush a r) h' (fun _ h'' => Adds R (h''.owned a) h h'')
      fun _ h'' => h'' = h' := by
  refine ends_get_bind ?_
  simp only
  split
  · next s hs =>
    exact ends_modify (ad.setElement wf ht (List.mem_of_getElem? hs) (slotOf_lt _) _)
  · next hfull =>
    refine ends_bind (((ad.extendChain wf ht hfull).and
      (spares_extendChain wf (fun _ => ht.1) hfull)).imp (fun _ _ => id) fun _ _ he => he.1)
      fun s h₁ hs => ?_
    obtain ⟨ad₁, -, wf₁, ht₁, hc₁⟩ := hs
    exact ends_modify (ad₁.setElement wf₁ ht₁ (by rw [hc₁]; simp) (slotOf_lt _) _)

/-- The last segment of a new array is cut off and given back. -/
theorem cut (ad : Adds R (h'.owned a) h h') (wf : h'.WellFormed) (ht : h'.IsTable a)
    (segments : List SegRef) (hc : h'.chain a = segments ++ [p, s]) :
    Adds R (((h'.setNext p noNext).freeSegment s).owned a) h
      ((h'.setNext p noNext).freeSegment s) := by
  have hp : p ∈ h'.chain a := by rw [hc]; simp
  have hs : s ∈ h'.chain a := by rw [hc]; simp
  have hlt := wf.segment_lt ht hs
  have hnodup := (wf.linked a ht).nodup
  rw [hc] at hnodup
  have w : WritesIn _ _ h' (h'.setNext p noNext) := writesIn_setLink h' p _
  have hlt' : s.toNat < (h'.setNext p noNext).segmentSlots := by rwa [w.segmentSlots]
  have hnext := ad.setNext (s := noNext) wf.layout (wf.segmentIsValid ht hp) hp (by decide)
  rw [owned, chain_cut wf ht hc (q := noNext) (l := []) rfl (List.nil_subset _), Heap.freeSegment,
    if_pos hlt']
  have hfree : ((h'.setNext p noNext).setLink s {}).link s = {} :=
    link_setLink (wf.layout.of_writesIn w) hlt' (by decide)
  refine hnext.segment (wf.layout.of_writesIn w) hlt' (writesIn_setLink _ s {}) (ad.freeSegment s hs)
    (fun s' ne => ?_) (iff_of_false ?_ ?_)
  · simp [owned, hc, ne]
  · rw [Heap.segmentIsValid, hfree]
    simp
  · simp only [List.nodup_append, List.nodup_cons, List.mem_cons] at hnodup
    simp only [Set.mem_ofPred_eq, List.mem_append, List.mem_singleton, not_or]
    grind

end Adds

/-- `h'` is `h` with one more array, which holds a sequence in as few segments as possible and owns
the new segments. -/
structure Growing (h : Heap) (a : Ref) (l : List Ref) (h' : Heap) : Prop where
  /-- The heap is well formed. -/
  wellFormed : h'.WellFormed
  /-- The array holds the sequence. -/
  packed : h'.Packed a l
  /-- Nothing else is new. -/
  adds : Adds {a} (h'.owned a) h h'

/-- A new array owns the segment that is new. -/
theorem growing_arrayNew (wf : h.WellFormed) :
    Ends arrayNew h (fun a h' => Growing h a [] h') fun _ h' => Restores h h' := by
  have hnew : Ends arrayNew h (fun a h' => h'.WellFormed ∧ Adds {a} (h'.owned a) h h')
      fun _ h' => Restores h h' := by
    refine ends_bind (adds_allocTable wf) fun r h₁ hn => ?_
    obtain ⟨wf₁, ht, ad⟩ := hn
    have hr := lt_objectSlots_of_isValid ht.1
    have tag : ({ h₁.header r with flagA := true } : Header).tag = (h₁.header r).tag := rfl
    have ev : Evolves ∅ Set.univ h₁ (h₁.setFlagA r true) := evolves_setFlagA wf₁ ht true
    have hchain : (h₁.setFlagA r true).chain r = h₁.chain r := (chain_setHeader wf₁.layout hr tag).1
    refine ends_bind (ends_modify (Q := fun _ h₂ => h₂ = h₁.setFlagA r true) rfl) fun _ h₂ he => ?_
    subst he
    refine ends_pure ⟨ev.wellFormed, ?_⟩
    rw [owned, hchain]
    exact ad.object wf₁.layout hr (writesIn_setHeader h₁ r _) (ad.freeObject r rfl) (by simp)
      (by simpa using ev.isValid r (Set.notMem_empty r) ht.1)
  exact (hnew.and (packed_arrayNew wf)).imp (fun _ _ hn => ⟨hn.1.1, hn.2, hn.1.2⟩)
    fun _ _ he => he.1

namespace Growing

/-- One step of filling the array. -/
theorem arrayPush (g : Growing h a l h') (r : Ref) :
    Ends (arrayPush a r) h' (fun _ h'' => Growing h a (l ++ [slotRef r]) h'')
      fun _ h'' => h'' = h' := by
  have ev := evolves_arrayPush (A := Set.univ) (a := a) (r := r) g.wellFormed
    (fun _ => g.packed.isValid) (Set.mem_univ _)
  exact ((packed_arrayPush g.wellFormed g.packed r).and
    (ev.and (g.adds.arrayPush g.wellFormed g.packed.isTable r))).imp
    (fun _ _ hn => ⟨hn.2.1.wellFormed, hn.1, hn.2.2⟩) fun _ _ he => he.1

/-- However far the array was filled, it is still the only thing that is new. -/
theorem arrayPushAll (g : Growing h a l h') (rs : List Ref) :
    Ends (arrayPushAll a rs) h' (fun _ _ => True) fun _ h'' => ∃ l', Growing h a l' h'' := by
  induction rs generalizing h' l with
  | nil => exact ends_pure trivial
  | cons r rs ih =>
    refine ends_bind ((g.arrayPush r).imp (fun _ _ => id) ?_) fun _ h₁ g₁ => ih g₁
    rintro _ _ rfl
    exact ⟨l, g⟩

/-- One step of emptying it. -/
theorem arrayPop (g : Growing h a (l ++ [e]) h') :
    ∃ h'', h'.arrayPop a = (true, h'') ∧ Growing h a l h'' := by
  have wf := g.wellFormed
  have ht := g.packed.isTable
  obtain ⟨h'', hpop, hpacked⟩ := packed_arrayPop wf g.packed
  have ev : Evolves ∅ Set.univ h' (h'.arrayPop a).2 := evolves_arrayPop wf fun _ => ht.1
  rw [hpop] at ev
  refine ⟨h'', hpop, ev.wellFormed, hpacked, ?_⟩
  obtain ⟨s, hs, ⟨-, he⟩ | ⟨segments, p, hsplit, -, he⟩⟩ := g.packed.arrayPop_cases
  · rw [(Prod.mk.inj (hpop.symm.trans he)).2]
    exact g.adds.setElement wf ht (List.mem_of_getElem? hs) (slotOf_lt _) none
  · have hlt := wf.segment_lt ht (List.mem_of_getElem? hs)
    have ev₁ : Evolves ∅ Set.univ h' (h'.setElement s (slotOf l.length) none) :=
      evolves_setElement wf hlt (slotOf_lt _) (by simp)
    rw [(Prod.mk.inj (hpop.symm.trans he)).2]
    refine (g.adds.setElement wf ht (List.mem_of_getElem? hs) (slotOf_lt _) none).cut
      ev₁.wellFormed (ev₁.isTable (Set.notMem_empty a) ht) segments ?_
    rw [chain_setElement wf hlt (slotOf_lt _) none ht, hsplit]

theorem arrayPopMany (g : Growing h a l h') : Growing h a [] (h'.arrayPopMany a l.length) := by
  induction l using List.reverseRecOn generalizing h' with
  | nil => exact g
  | append_singleton l e ih =>
    obtain ⟨h'', hpop, g'⟩ := g.arrayPop
    rw [List.length_append, List.length_singleton, Heap.arrayPopMany, hpop]
    exact ih g'

/-- An array that is emptied owns its first segment. -/
theorem arrayClear (g : Growing h a l h') : Growing h a [] (h'.arrayClear a) := by
  have g' := g.arrayPopMany
  have ht := g'.packed.isTable
  have hr := lt_objectSlots_of_isValid ht.1
  rw [Heap.arrayClear, g.packed.arraySize]
  have ev : Evolves ∅ Set.univ _ ((h'.arrayPopMany a l.length).setFlagB a false) :=
    evolves_setFlagB g'.wellFormed ht false
  have hpacked := g'.packed.setFlagB g'.wellFormed false
  refine ⟨ev.wellFormed, hpacked, ?_⟩
  have tag : ({ (h'.arrayPopMany a l.length).header a with flagB := false } : Header).tag
      = ((h'.arrayPopMany a l.length).header a).tag := rfl
  have hchain : ((h'.arrayPopMany a l.length).setFlagB a false).chain a
      = (h'.arrayPopMany a l.length).chain a := (chain_setHeader g'.wellFormed.layout hr tag).1
  rw [owned, hchain]
  exact g'.adds.object g'.wellFormed.layout hr (writesIn_setHeader _ a _) (g'.adds.freeObject a rfl)
    (by simp) (by simpa using hpacked.isValid)

/-- Giving back the object of an empty array leaves its first segment in use. -/
theorem invalidate (g : Growing h a [] h') : ∃ s, Adds ∅ {s} h (h'.invalidate a) := by
  have layout := g.wellFormed.layout
  have hr := lt_objectSlots_of_isValid g.packed.isValid
  obtain ⟨s, hs⟩ := List.length_eq_one_iff.1 g.packed.length_chain
  refine ⟨s, ?_⟩
  have howned : h'.owned a = {s} := by
    ext s'
    rw [owned, hs]
    simp
  have ad := g.adds
  rw [howned] at ad
  rw [Heap.invalidate, if_pos hr]
  refine ad.object layout hr (writesIn_setHeader h' a Header.free) (ad.freeObject a rfl) (by simp) ?_
  rw [isValid, header_setHeader layout hr (by decide)]
  simp [Header.free]

end Growing

/-- **What is left of a copy that does not fit.** When not even an empty array fits, nothing is. When
only the elements do not fit, a segment is, and no object owns it. -/
theorem adds_arrayClone (wf : h.WellFormed) (a : Ref) : Ends (arrayClone a) h (fun _ _ => True)
    fun _ h' => if answers arrayNew h then ∃ s, Adds ∅ {s} h h' else Restores h h' := by
  have new := growing_arrayNew wf
  refine ends_get_bind (ends_bind
    (Q := fun r h₁ => Growing h r [] h₁ ∧ answers arrayNew h = true)
    ⟨fun hs => ⟨new.of_ok hs, by rw [answers, hs]⟩, fun hs => ?_⟩ fun r h₁ hn => ends_get_bind ?_)
  · rw [if_neg (by simp [answers, hs])]
    exact new.of_error hs
  obtain ⟨g, hyes⟩ := hn
  simp only [hyes, if_true]
  cases hpush : Heap.arrayPushAll r (h.arrayElements a) h₁ with
  | ok u h₂ =>
    exact ends_bind (ends_set (Q := fun _ _ => True) trivial) fun _ _ _ => ends_pure trivial
  | error e h₂ =>
    obtain ⟨l, g₂⟩ := (g.arrayPushAll _).of_error hpush
    exact ends_bind (ends_set (Q := fun _ h' => ∃ s, Adds ∅ {s} h h') g₂.arrayClear.invalidate)
      fun _ _ hs => ends_throw hs

/-! ### Calls that run out of room -/

/-- The call does not run out of room. -/
def Request.succeeds (h : Heap) : Request → Bool
  | alloc kind => answers (Heap.alloc kind) h
  | allocValue v => answers (Heap.allocValue v) h
  | copy r => answers (Heap.copy r) h
  | tableNew => answers Heap.tableNew h
  | tableSet t key value => answers (Heap.tableSet t key value) h
  | arrayNew => answers Heap.arrayNew h
  | arrayPush a r => answers (Heap.arrayPush a r) h
  | arrayClone a => answers (Heap.arrayClone a) h
  | _ => true

theorem after_of_failed {α : Type} {x : HeapM α} {P : Heap → Prop}
    (hx : Ends x h (fun _ _ => True) fun _ => P) (failed : answers x h = false) : P (after x h) := by
  obtain ⟨e, h', he⟩ := exists_error_of_answers failed
  rw [after, he]
  exact hx.of_error he

theorem Adds.not_restores (ad : Adds ∅ {s} h h') : ¬ Restores h h' := by
  intro hr
  have hv := (hr.segmentIsValid s).1 ((ad.segmentIsValid s).2 (.inr rfl))
  have hfree := ad.freeSegment s rfl
  simp [hfree] at hv

/-- **What a call that runs out of room leaves behind.** It leaves the objects and segments that were
in use as they were, and no others, unless it was to copy an array and there was room for an empty
one. Then exactly one segment more is in use, which no object owns. -/
theorem failed_call_releases (wf : h.WellFormed) {q : Request} (failed : q.succeeds h = false) :
    (Restores h (q.perform h) ↔ ∀ a, q = .arrayClone a → answers arrayNew h = false)
      ∧ ∀ a, q = .arrayClone a → answers arrayNew h = true →
        ∃ s, Adds ∅ {s} h (q.perform h) ∧ (q.perform h).Unowned s := by
  have stranded : ∀ a, q = .arrayClone a → answers arrayNew h = true →
      ∃ s, Adds ∅ {s} h (q.perform h) ∧ (q.perform h).Unowned s := by
    rintro a rfl hnew
    have hclone := after_of_failed (adds_arrayClone wf a) failed
    rw [if_pos hnew] at hclone
    obtain ⟨s, ad⟩ := hclone
    exact ⟨s, ad, ad.unowned wf rfl⟩
  refine ⟨⟨?_, fun hno => ?_⟩, stranded⟩
  · intro hr a hq
    by_contra hnew
    obtain ⟨s, ad, -⟩ := stranded a hq (Bool.eq_true_of_not_eq_false hnew)
    exact ad.not_restores hr
  · cases q with
    | alloc kind => exact after_of_failed (restores_alloc wf kind) failed
    | allocValue v => exact after_of_failed (restores_allocValue wf.layout v) failed
    | copy r => exact after_of_failed (restores_copy wf.layout r) failed
    | tableNew => exact after_of_failed (restores_alloc wf .table) failed
    | tableSet t key value =>
      exact after_of_failed (restores_tableSet wf.layout t key value) failed
    | arrayNew =>
      exact after_of_failed ((growing_arrayNew wf).imp (fun _ _ _ => trivial) fun _ _ => id) failed
    | arrayPush a r => exact after_of_failed (restores_arrayPush wf.layout a r) failed
    | arrayClone a =>
      have hclone := after_of_failed (adds_arrayClone wf a) failed
      rwa [if_neg (by simp [hno a rfl])] at hclone
    | _ => cases failed

/-- An array of two segments, in a heap that has room for an object and one segment more. -/
def crowded : Heap :=
  (.arrayNew :: List.replicate 11 (.arrayPush 0 0)).foldl Request.perform (make 80)

/-- The same heap with an integer in it, in which an object fits, but no segment. -/
def squeezed : Heap := Request.perform crowded (.allocValue (.int 5))

theorem wellFormed_crowded : crowded.WellFormed ∧ squeezed.WellFormed := by
  have hcrowded : Built crowded := Built.foldl (.make (by decide)) (by simp [Request.Allowed])
  have hsqueezed : Built squeezed := hcrowded.perform (by simp [Request.Allowed])
  exact ⟨hcrowded.wellFormed.1, hsqueezed.wellFormed.1⟩

theorem crowded_evaluates : (Request.arrayClone 0).succeeds crowded = false
    ∧ answers arrayNew crowded = true ∧ crowded.segmentIsValid 2 = false
    ∧ ((Request.arrayClone 0).perform crowded).segmentIsValid 2 = true
    ∧ Request.tableNew.succeeds squeezed = false := by
  decide +kernel

/-- A table takes an object before there turns out to be no segment for it, and gives it back. A copy
does not give back its segment. -/
theorem failed_call_releases_crowded : (crowded.WellFormed
      ∧ (Request.arrayClone 0).succeeds crowded = false ∧ answers arrayNew crowded = true
      ∧ ∃ s, Adds ∅ {s} crowded ((Request.arrayClone 0).perform crowded)
        ∧ ((Request.arrayClone 0).perform crowded).Unowned s)
    ∧ squeezed.WellFormed ∧ Request.tableNew.succeeds squeezed = false
      ∧ Restores squeezed (Request.tableNew.perform squeezed) := by
  obtain ⟨wf, wf'⟩ := wellFormed_crowded
  obtain ⟨failed, hnew, -, -, failed'⟩ := crowded_evaluates
  exact ⟨⟨wf, failed, hnew, (failed_call_releases wf failed).2 0 rfl hnew⟩, wf', failed',
    (failed_call_releases wf' failed').1.2 fun _ h => nomatch h⟩

/-- The third segment was free, and is in use after the copy has failed. -/
theorem failed_copy_keeps_segment : crowded.WellFormed
    ∧ (Request.arrayClone 0).succeeds crowded = false
    ∧ crowded.segmentIsValid 2 = false
    ∧ ((Request.arrayClone 0).perform crowded).segmentIsValid 2 = true
    ∧ ¬ Restores crowded ((Request.arrayClone 0).perform crowded) := by
  obtain ⟨failed, -, before, after, -⟩ := crowded_evaluates
  refine ⟨wellFormed_crowded.1, failed, before, after, fun hr => ?_⟩
  have hv := (hr.segmentIsValid 2).1 after
  simp [before] at hv

end Heap

end SwarmVm
