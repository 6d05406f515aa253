import SwarmVm.Proofs.Heap.Invariant

/-!
# What an operation leaves alone

`Heap.Evolves` lets every table lose elements, because that is all that reachability needs to know.
Here is the other side: an operation on a table or array alters that one object, and every other
object is left exactly as it was, with its value and with the contents of its segments. An operation
that makes an object alters none.

As in `Evolves`, what an operation does is read off from the few writes it is made of. A write to a
segment concerns the table that owns it and nobody else, since tables share no segments.

## Main definitions

* `Heap.Unaltered` — an object that is as it was, with the contents of its segments
* `Heap.Spares` — every object but the given ones is unaltered
* `Heap.Grows` — there are new objects, and none is altered

## Main results

* `Heap.spares_tableSet`, `Heap.spares_arrayPush`, `Heap.spares_arrayClear` — changes
* `Heap.spares_allocValue`, `Heap.spares_arrayClone` and the like — new objects
* `Heap.unaltered_collect` — what a collection keeps, it leaves as it was
* `Heap.Request.Leaves.unaltered` — a call leaves every object as it was that it is not about
-/

namespace SwarmVm

namespace Heap

variable {h h' h'' : Heap} {r t a : Ref} {s p q : SegRef} {l l₁ l₂ : List SegRef} {X Y : Set Ref}

/-! ### Unaltered objects -/

/-- The object is there with its value, and its slots hold what they held. -/
structure Unaltered (h h' : Heap) (r : Ref) : Prop where
  /-- It is there. -/
  isValid : h'.isValid r = true
  /-- It has its value. -/
  value : h'.value r = h.value r
  /-- Its slots are the same. -/
  slots : h'.arraySlots r = h.arraySlots r

instance (h h' : Heap) (r : Ref) : Decidable (Unaltered h h' r) :=
  decidable_of_iff (h'.isValid r = true ∧ h'.value r = h.value r
    ∧ h'.arraySlots r = h.arraySlots r) ⟨fun ⟨isValid, value, slots⟩ => ⟨isValid, value, slots⟩,
      fun u => ⟨u.isValid, u.value, u.slots⟩⟩

/-- Where free slots are tidy, what is not nil is there. -/
theorem Tidy.isValid_of_kind (tidy : h.Tidy) (hk : h.kind r ≠ .nil) : h.isValid r = true := by
  by_contra hv
  exact hk (tidy r (by simpa using hv))

theorem kind_eq_kind_value (hv : h.isValid r = true) : h.kind r = (h.value r).kind := by
  by_cases hn : h.value r = .nil
  · have hnil := value_of_isValid hv
    rw [hn, Value.unpack] at hnil
    rw [hn, kind, Header.kind]
    split at hnil <;> simp_all [Value.kind]
  · exact (kind_of_value rfl hn).2

namespace Unaltered

theorem refl (hv : h.isValid r = true) : Unaltered h h r := ⟨hv, rfl, rfl⟩

theorem trans (u : Unaltered h h' r) (u' : Unaltered h' h'' r) : Unaltered h h'' r :=
  ⟨u'.isValid, u'.value.trans u.value, u'.slots.trans u.slots⟩

theorem kind (u : Unaltered h h' r) (hv : h.isValid r = true) : h'.kind r = h.kind r := by
  rw [kind_eq_kind_value u.isValid, kind_eq_kind_value hv, u.value]

theorem isTable (u : Unaltered h h' r) (ht : h.IsTable r) : h'.IsTable r :=
  ⟨u.isValid, (u.kind ht.1).trans ht.2⟩

theorem arrayElements (u : Unaltered h h' r) : h'.arrayElements r = h.arrayElements r := by
  rw [Heap.arrayElements, u.slots, Heap.arrayElements]

/-- An array is still one. -/
theorem isArray (u : Unaltered h h' r) (ht : h.IsTable r) : h'.isArray r = h.isArray r := by
  have hv := value_of_kind_table ht.1 ht.2
  have hv' := value_of_kind_table (u.isTable ht).1 (u.isTable ht).2
  rw [u.value, hv, Value.table.injEq, TableValue.mk.injEq] at hv'
  rw [Heap.isArray, Heap.isArray, u.kind ht.1, hv'.2.1]

end Unaltered

theorem arraySlots_congr (hc : h'.chain r = h.chain r)
    (he : ∀ s ∈ h.chain r, ∀ k < slotsPerSegment, h'.element? s k = h.element? s k) :
    h'.arraySlots r = h.arraySlots r := by
  rw [arraySlots, arraySlots, hc]
  refine List.flatMap_congr fun s hs => List.map_congr_left fun k hk => ?_
  exact he s hs k (List.mem_range.1 hk)

/-- An object is unaltered when it has its value and nothing is written to its segments. -/
theorem unaltered_of_segments (wf : h.WellFormed) (hv : h.isValid r = true)
    (hv' : h'.isValid r = true) (value : h'.value r = h.value r)
    (link : h.IsTable r → ∀ s ∈ h.chain r, h'.link s = h.link s)
    (element : h.IsTable r → ∀ s ∈ h.chain r, ∀ k < slotsPerSegment,
      h'.element? s k = h.element? s k) : Unaltered h h' r := by
  refine ⟨hv', value, ?_⟩
  by_cases hk : h.kind r = .table
  · have ht : h.IsTable r := ⟨hv, hk⟩
    obtain ⟨tv, htv, hhead⟩ := ht.value
    refine arraySlots_congr (Linked.chain_eq ?_) (element ht)
    rw [← head_eq_tableHead (value.trans htv), hhead]
    exact (wf.linked r ht).congr (link ht)
  · have hk' : h'.kind r ≠ .table := by
      rwa [kind_eq_kind_value hv', value, ← kind_eq_kind_value hv]
    rw [arraySlots, arraySlots, chain_of_not_table hk, chain_of_not_table hk', List.flatMap_nil,
      List.flatMap_nil]

/-! ### Operations that spare objects -/

/-- Every object but those of `X` is unaltered. -/
def Spares (X : Set Ref) (h h' : Heap) : Prop := ∀ r ∉ X, h.isValid r = true → Unaltered h h' r

namespace Spares

theorem refl (X : Set Ref) (h : Heap) : Spares X h h := fun _ _ hv => .refl hv

theorem trans (sp : Spares X h h') (sp' : Spares X h' h'') : Spares X h h'' := by
  intro r hr hv
  have u := sp r hr hv
  exact u.trans (sp' r hr u.isValid)

theorem mono (sp : Spares X h h') (sub : X ⊆ Y) : Spares Y h h' :=
  fun r hr hv => sp r (fun hx => hr (sub hx)) hv

/-- Altering an object that was not there alters none. -/
theorem of_free (sp : Spares X h h') (free : ∀ r ∈ X, h.isValid r = false) : Spares ∅ h h' := by
  intro r _ hv
  refine sp r (fun hx => ?_) hv
  rw [free r hx] at hv
  cases hv

theorem widen (sp : Spares ∅ h h') : Spares X h h' := sp.mono (Set.empty_subset X)

/-- An object that was made and then altered was not there before. -/
theorem alter (sp : Spares ∅ h h') (sp' : Spares {a} h' h'') (free : h.isValid a = false) :
    Spares ∅ h h'' :=
  (sp.widen.trans sp').of_free fun r hr => by rw [Set.mem_singleton_iff.1 hr, free]

theorem unaltered (sp : Spares ∅ h h') (hv : h.isValid r = true) : Unaltered h h' r :=
  sp r (Set.notMem_empty r) hv

theorem unaltered_of_ne (sp : Spares {t} h h') (ne : r ≠ t) (hv : h.isValid r = true) :
    Unaltered h h' r :=
  sp r ne hv

end Spares

/-! ### Single writes -/

/-- A write to an object slot. -/
theorem spares_of_object (wf : h.WellFormed) (hr : t.toNat < h.objectSlots)
    (w : WritesIn (objectOffset t) (objectOffset t + 5) h h') : Spares {t} h h' := by
  intro r ne hv
  have g := w.sameSegments_of_object wf.layout hr
  refine unaltered_of_segments wf hv ?_ (w.value_of_ne ne) (fun _ s _ => g.link wf.layout s)
    fun ht s hs k _ => g.element? wf.layout (wf.segment_lt ht hs) k
  rw [isValid, w.header_of_ne ne]
  exact hv

/-- A write to a segment slot concerns the tables that own the segment. -/
theorem spares_of_segment (wf : h.WellFormed) (hs : s.toNat < h.segmentSlots)
    (hout : ∀ r ∉ X, h.IsTable r → s ∉ h.chain r)
    (w : WritesIn (h.segmentOffset s) (h.segmentOffset s + 22) h h') : Spares X h h' := by
  intro r hr hv
  have o := WritesIn.sameObjects_of_segment wf.layout hs w
  have ne : h.IsTable r → ∀ s' ∈ h.chain r, s' ≠ s := by
    rintro ht s' hs' rfl
    exact hout r hr ht hs'
  refine unaltered_of_segments wf hv ((o.isValid r).trans hv) (o.value r)
    (fun ht s' hs' => WritesIn.link_of_ne wf.layout hs (ne ht s' hs') w)
    fun ht s' hs' k hk => WritesIn.element?_of_ne wf.layout hs (wf.segment_lt ht hs') (ne ht s' hs')
      w hk

/-- A segment of a table is no other table's. -/
theorem WellFormed.notMem_chain (wf : h.WellFormed) (ht : h.IsTable t) (hs : s ∈ h.chain t) :
    ∀ r ∉ ({t} : Set Ref), h.IsTable r → s ∉ h.chain r := by
  intro r ne hr hs'
  exact wf.disjoint r t hr ht ne hs' hs

theorem spares_setElement (wf : h.WellFormed) (ht : h.IsTable t) (hs : s ∈ h.chain t) {k : Nat}
    (hk : k < slotsPerSegment) (e : Option Ref) : Spares {t} h (h.setElement s k e) :=
  spares_of_segment wf (wf.segment_lt ht hs) (wf.notMem_chain ht hs) (writesIn_setElement h s hk e)

theorem spares_setNext (wf : h.WellFormed) (ht : h.IsTable t) (hp : p ∈ h.chain t) (q : SegRef) :
    Spares {t} h (h.setNext p q) :=
  spares_of_segment wf (wf.segment_lt ht hp) (wf.notMem_chain ht hp) (writesIn_setLink h p _)

theorem spares_setTableHead (wf : h.WellFormed) (ht : h.IsTable t) (q : SegRef) :
    Spares {t} h (h.setTableHead t q) :=
  spares_of_object wf (lt_objectSlots_of_isValid ht.1) (writesIn_setTableHead h t q)

theorem spares_setHeader (wf : h.WellFormed) (hv : h.isValid t = true) (header : Header) :
    Spares {t} h (h.setHeader t header) :=
  spares_of_object wf (lt_objectSlots_of_isValid hv) (writesIn_setHeader h t header)

theorem spares_invalidate (wf : h.WellFormed) (t : Ref) : Spares {t} h (h.invalidate t) := by
  rw [invalidate]
  split
  · next hr => exact spares_of_object wf hr (writesIn_setHeader h t Header.free)
  · exact .refl _ _

/-- Permanence is not part of what an object is. -/
theorem spares_setPermanent (wf : h.WellFormed) (t : Ref) (permanent : Bool) :
    Spares ∅ h (h.setPermanent t permanent) := by
  intro r _ hv
  obtain ⟨hvalid, hvalue⟩ := value_setPermanent wf.layout t r permanent
  rw [setPermanent] at hvalid hvalue ⊢
  split
  · next ht =>
    rw [if_pos ht] at hvalid hvalue
    by_cases ne : r = t
    · subst ne
      have hr := lt_objectSlots_of_isValid hv
      have g := (writesIn_setHeader h r { h.header r with permanent }).sameSegments_of_object
        wf.layout hr
      have tag : ({ h.header r with permanent } : Header).tag = (h.header r).tag := rfl
      have hc := (chain_setHeader wf.layout hr tag).1
      refine ⟨hvalid.trans hv, hvalue, arraySlots_congr hc
        fun s hs k _ => g.element? wf.layout ?_ k⟩
      have hk := kind_eq_table_of_mem_chain hs
      exact wf.segment_lt ⟨hv, hk⟩ hs
    · exact (spares_setHeader wf ht _).unaltered_of_ne ne hv
  · exact .refl hv

theorem NewSegment.spares (n : h.NewSegment s h') (wf : h.WellFormed) : Spares ∅ h h' := by
  intro r _ hv
  exact unaltered_of_segments wf hv ((n.objects.isValid r).trans hv) (n.objects.value r)
    (fun ht s' hs' => n.links s' (wf.segmentIsValid ht hs'))
    fun ht s' hs' => n.elements s' (wf.segmentIsValid ht hs')

/-! ### New objects -/

theorem spares_allocSlot (wf : h.WellFormed) :
    Ends allocSlot h (fun _ h' => Spares ∅ h h') fun _ h' => h' = h := by
  refine (allocSlot_takes wf.layout).imp (fun r h' hr => ?_) fun _ _ he => he.1
  obtain ⟨-, h₀, m, rfl⟩ := hr
  intro r' _ hv
  have ne : r' ≠ r := by
    rintro rfl
    rw [m.free] at hv
    cases hv
  refine unaltered_of_segments wf hv ?_ (m.value_initObject_of_ne ne)
    (fun _ s _ => m.sameSegments.link wf.layout s)
    fun ht s hs k _ => m.sameSegments.element? wf.layout (wf.segment_lt ht hs) k
  rw [isValid, m.header_initObject_of_ne ne]
  exact hv

theorem spares_allocValue (wf : h.WellFormed) (v : Value) :
    Ends (allocValue v) h (fun _ h' => Spares ∅ h h') fun _ h' => h' = h := by
  refine ends_bind (((spares_allocSlot wf).and (newObject_allocSlot (A := Set.univ) wf)).imp
    (fun _ _ => id) fun _ _ he => he.1) fun r h₁ hn => ?_
  obtain ⟨sp, n⟩ := hn
  refine ends_bind (ends_modify (Q := fun _ h₂ => Spares ∅ h h₂) ?_) fun _ _ sp₂ => ends_pure sp₂
  exact sp.alter (spares_of_object n.evolves.wellFormed (lt_objectSlots_of_isValid n.isValid)
    (writesIn_setValue h₁ r v)) n.free

theorem spares_copy (wf : h.WellFormed) (r : Ref) :
    Ends (copy r) h (fun _ h' => Spares ∅ h h') fun _ h' => h' = h := by
  refine ends_get_bind ?_
  cases h.value r with
  | table t => exact ends_pure (.refl _ _)
  | _ => exact spares_allocValue wf _

theorem spares_allocTable (wf : h.WellFormed) :
    Ends alloc.allocTable h (fun _ h' => Spares ∅ h h') fun _ h' => Spares ∅ h h' := by
  refine ends_bind (((spares_allocSlot wf).and (newObject_allocSlot (A := Set.univ) wf)).imp
    (fun _ _ => id) ?_) fun r h₁ hn => ends_get_bind ?_
  · rintro _ _ ⟨rfl, _⟩
    exact .refl _ _
  obtain ⟨sp, n⟩ := hn
  have wf₁ := n.evolves.wellFormed
  have seg := newSegment_allocSegment wf₁.layout
  cases ha : allocSegment h₁ with
  | ok s h₂ =>
    have ns := seg.of_ok ha
    have ev₂ : Evolves ∅ Set.univ h₁ h₂ := ns.evolves wf₁
    have hv₂ := ev₂.isValid r (Set.notMem_empty r) n.isValid
    have sp₂ := sp.trans (ns.spares wf₁)
    refine ends_bind (ends_set (Q := fun _ h' => Spares ∅ h h') ?_) fun _ _ sp₃ => ends_pure sp₃
    exact sp₂.alter (spares_of_object ev₂.wellFormed (lt_objectSlots_of_isValid hv₂)
      (writesIn_setValue h₂ r _)) n.free
  | error e h₂ =>
    have he := seg.of_error ha
    subst he
    refine ends_bind (ends_set (Q := fun _ h' => Spares ∅ h h') ?_) fun _ _ sp₃ => ends_throw sp₃
    exact sp.alter (spares_invalidate wf₁ r) n.free

theorem spares_arrayNew (wf : h.WellFormed) :
    Ends arrayNew h (fun _ h' => Spares ∅ h h') fun _ h' => Spares ∅ h h' := by
  refine ends_bind (((spares_allocTable wf).and (newObject_allocTable (A := Set.univ) wf)).imp
    (fun _ _ => id) fun _ _ he => he.1) fun r h₁ hn => ?_
  obtain ⟨sp, n, _⟩ := hn
  refine ends_bind (ends_modify (Q := fun _ h₂ => Spares ∅ h h₂) ?_) fun _ _ sp₂ => ends_pure sp₂
  exact sp.alter (spares_setHeader n.evolves.wellFormed n.isValid _) n.free

/-! ### Tables -/

/-- A chain grows by a segment at its end, which is the table's now. -/
theorem spares_append (wf : h.WellFormed) (ht : h.IsTable t) (hc : h.chain t = l ++ [p])
    (n : h.NewSegment s h') : Spares {t} h (h'.setNext p s)
      ∧ (h'.setNext p s).WellFormed ∧ (h'.setNext p s).IsTable t
      ∧ (h'.setNext p s).chain t = h.chain t ++ [s] := by
  have ev : Evolves ∅ Set.univ h h' := n.evolves wf
  have ht' := ev.isTable (Set.notMem_empty t) ht
  have hc' : h'.chain t = l ++ p :: [] := (n.chain wf ht).trans hc
  have hp : p ∈ h'.chain t := by rw [hc']; simp
  have hps : p ∉ [s] := by
    rw [List.mem_singleton]
    rintro rfl
    exact n.unowned wf t ht' hp
  have ev' := (evolves_append (A := Set.univ) wf ht hc n).1
  refine ⟨(n.spares wf).widen.trans (spares_setNext ev.wellFormed ht' hp s), ev'.wellFormed,
    ev'.isTable (Set.notMem_empty t) ht, ?_⟩
  rw [chain_setNext ev.wellFormed ht' hc' n.linked hps, hc]
  simp

theorem spares_cut (wf : h.WellFormed) (ht : h.IsTable t) (hc : h.chain t = l₁ ++ p :: s :: l₂)
    {q : SegRef} (hq : h.Linked q l) (sub : l ⊆ l₂) :
    Spares {t} h ((h.setNext p q).freeSegment s) := by
  have hl := wf.linked t ht
  rw [hc] at hl
  have hlt : s.toNat < h.segmentSlots := hl.lt (by simp)
  have hp : p ∈ h.chain t := by rw [hc]; simp
  have hs : s ∈ h.chain t := by rw [hc]; simp
  have w : WritesIn (h.segmentOffset p) (h.segmentOffset p + 22) h (h.setNext p q) :=
    writesIn_setLink h p _
  have wf' : (h.setNext p q).WellFormed := by
    have hnodup := hl.nodup
    refine (evolves_setNext (A := Set.univ) wf ht hc hq (fun hpl => ?_)
      (fun s' hs' => .inl (by simp [sub hs'])) fun _ _ _ _ _ _ _ => Set.mem_univ _).wellFormed
    simp only [List.nodup_append, List.nodup_cons, List.mem_cons, not_or] at hnodup
    exact hnodup.2.1.1.2 (sub hpl)
  refine (spares_setNext wf ht hp q).trans ?_
  rw [freeSegment]
  split
  · next hlt' =>
    refine spares_of_segment wf' hlt' (fun r hr htr hmem => ?_) (writesIn_setLink _ s {})
    have hr' : h.IsTable r := by
      have o := WritesIn.sameObjects_of_segment wf.layout (wf.segment_lt ht hp) w
      exact (o.sameButHeads.isTable_iff r).1 htr
    rw [chain_setNext_of_ne wf ht hp hr' hr] at hmem
    exact wf.disjoint r t hr' ht hr hmem hs
  · exact .refl _ _

theorem spares_cut_head (wf : h.WellFormed) (ht : h.IsTable t) (hc : h.chain t = s :: l) :
    Spares {t} h ((h.setTableHead t (h.next s)).freeSegment s) := by
  have hl := wf.linked t ht
  rw [hc] at hl
  obtain ⟨rfl, _, _, htail⟩ := id hl
  have hs : h.tableHead t ∈ h.chain t := by rw [hc]; simp
  have wf' : (h.setTableHead t (h.next (h.tableHead t))).WellFormed :=
    (evolves_setTableHead (A := Set.univ) wf ht htail
      fun s' hs' => by rw [hc]; simp [hs']).wellFormed
  refine (spares_setTableHead wf ht (h.next (h.tableHead t))).trans ?_
  rw [freeSegment]
  split
  · next hlt =>
    refine spares_of_segment wf' hlt (fun r hr htr hmem => ?_) (writesIn_setLink _ _ {})
    rw [IsTable, isValid, kind, header_setTableHead] at htr
    rw [chain_setTableHead_of_ne wf ht htr hr] at hmem
    exact wf.disjoint r t htr ht hr hmem hs
  · exact .refl _ _

/-! ### Chains that lose a segment -/

theorem elements_setNext (layout : h.Layout) (hp : p.toNat < h.segmentSlots)
    (hs : s.toNat < h.segmentSlots) (q : SegRef) : (h.setNext p q).elements s = h.elements s :=
  List.map_congr_left fun _ hk => element?_setLink layout hp _ hs (List.mem_range.1 hk)

theorem elements_freeSegment (layout : h.Layout) (hs : s.toNat < h.segmentSlots) (p : SegRef) :
    (h.freeSegment p).elements s = h.elements s := by
  rw [freeSegment]
  split
  · next hp =>
    exact List.map_congr_left fun _ hk => element?_setLink layout hp _ hs (List.mem_range.1 hk)
  · rfl

theorem SameObjects.trans (o : SameObjects h h') (o' : SameObjects h' h'') : SameObjects h h'' :=
  ⟨o'.slots.trans o.slots, fun i hi => (o'.byte i (by rwa [o.slots])).trans (o.byte i hi)⟩

theorem sameObjects_freeSegment (layout : h.Layout) (s : SegRef) :
    SameObjects h (h.freeSegment s) := by
  rw [freeSegment]
  split
  · next hlt => exact WritesIn.sameObjects_of_segment layout hlt (writesIn_setLink h s {})
  · exact ⟨rfl, fun _ _ => rfl⟩

theorem sameObjects_cut (layout : h.Layout) (hp : p.toNat < h.segmentSlots) (q s : SegRef) :
    SameObjects h ((h.setNext p q).freeSegment s) := by
  have w : WritesIn _ _ h (h.setNext p q) := writesIn_setLink h p _
  exact (WritesIn.sameObjects_of_segment layout hp w).trans
    (sameObjects_freeSegment (layout.of_writesIn w) s)

theorem chain_freeSegment (layout : h.Layout) (hl : h.Linked (h.tableHead t) l) (hs : s ∉ l) :
    (h.freeSegment s).chain t = l := by
  refine Linked.chain_eq ?_
  rw [(sameObjects_freeSegment layout s).tableHead]
  refine hl.congr fun x hx => ?_
  rw [freeSegment]
  split
  · next hlt =>
    exact WritesIn.link_of_ne layout hlt (ne_of_mem_of_not_mem hx hs) (writesIn_setLink h s {})
  · rfl

/-- What is left of a chain that goes on somewhere behind one of its segments. -/
theorem chain_cut (wf : h.WellFormed) (ht : h.IsTable t) (hc : h.chain t = l₁ ++ p :: s :: l₂)
    {q : SegRef} (hq : h.Linked q l) (sub : l ⊆ l₂) :
    ((h.setNext p q).freeSegment s).chain t = l₁ ++ p :: l := by
  have hnodup := (wf.linked t ht).nodup
  rw [hc] at hnodup
  simp only [List.nodup_append, List.nodup_cons, List.mem_cons, not_or] at hnodup
  obtain ⟨_, ⟨⟨hps, hp⟩, hs, _⟩, hdis⟩ := hnodup
  have w : WritesIn _ _ h (h.setNext p q) := writesIn_setLink h p _
  refine chain_freeSegment (wf.layout.of_writesIn w)
    (linked_setNext wf ht hc hq fun hpl => hp (sub hpl)) ?_
  simp only [List.mem_append, List.mem_cons, not_or]
  exact ⟨fun hs₁ => hdis s hs₁ s (.inr (.inl rfl)) rfl, Ne.symm hps, fun hsl => hs (sub hsl)⟩

theorem elements_cut (layout : h.Layout) (hp : p.toNat < h.segmentSlots) {x : SegRef}
    (hx : x.toNat < h.segmentSlots) (q s : SegRef) :
    ((h.setNext p q).freeSegment s).elements x = h.elements x := by
  have w : WritesIn _ _ h (h.setNext p q) := writesIn_setLink h p _
  rw [elements_freeSegment (layout.of_writesIn w) (by rwa [w.segmentSlots]),
    elements_setNext layout hp hx]

/-- What is left of a chain that loses its first segment. -/
theorem chain_cut_head (wf : h.WellFormed) (ht : h.IsTable t) (hc : h.chain t = s :: l) :
    ((h.setTableHead t (h.next s)).freeSegment s).chain t = l := by
  have hl := wf.linked t ht
  rw [hc] at hl
  have hs := (List.nodup_cons.1 hl.nodup).1
  obtain ⟨rfl, _, _, htail⟩ := hl
  have w := writesIn_setTableHead h t (h.next (h.tableHead t))
  exact chain_freeSegment (wf.layout.of_writesIn w) (linked_setTableHead wf.layout ht htail) hs

theorem elements_cut_head (layout : h.Layout) (ht : h.IsTable t) {x : SegRef}
    (hx : x.toNat < h.segmentSlots) (q s : SegRef) :
    ((h.setTableHead t q).freeSegment s).elements x = h.elements x := by
  have w := writesIn_setTableHead h t q
  have g := w.sameSegments_of_object layout (lt_objectSlots_of_isValid ht.1)
  rw [elements_freeSegment (layout.of_writesIn w) (by rwa [w.segmentSlots])]
  exact List.map_congr_left fun k _ => g.element? layout hx k

/-! ### Pairs -/

theorem spares_unlinkSegment (wf : h.WellFormed) (ht : h.IsTable t) (hs : s ∈ h.chain t) :
    Spares {t} h (h.unlinkSegment t s) := by
  rw [unlinkSegment]
  rcases segmentBefore?_cases hs with ⟨l₁, b, l₂, hc, hb⟩ | ⟨l₂, hc, hb⟩
  · have hl := wf.linked t ht
    rw [hc, List.append_cons] at hl
    rw [hb]
    exact spares_cut wf ht hc hl.of_append.2.2.2 (List.Subset.refl l₂)
  · rw [hb]
    simp only
    split
    · exact .refl _ _
    · exact spares_cut_head wf ht hc

theorem PairSlot.key_lt {q : PairSlot} (hq : q.pair < pairsPerSegment) :
    2 * q.pair < slotsPerSegment ∧ 2 * q.pair + 1 < slotsPerSegment := by
  rw [slotsPerSegment]
  omega

/-- Both slots of a pair are written, and the chain stays. -/
theorem spares_setPair (wf : h.WellFormed) (ht : h.IsTable t) {q : PairSlot}
    (hs : q.segment ∈ h.chain t) (hq : q.pair < pairsPerSegment) (key value : Option Ref) :
    Spares {t} h ((h.setKey q key).setFieldValue q value)
      ∧ ((h.setKey q key).setFieldValue q value).WellFormed
      ∧ ((h.setKey q key).setFieldValue q value).IsTable t
      ∧ ((h.setKey q key).setFieldValue q value).chain t = h.chain t := by
  obtain ⟨hk, hk'⟩ := PairSlot.key_lt hq
  have hlt := wf.segment_lt ht hs
  have ev₁ : Evolves ∅ Set.univ h (h.setKey q key) := evolves_setElement wf hlt hk (by simp)
  have ht₁ := ev₁.isTable (Set.notMem_empty t) ht
  have hc₁ : (h.setKey q key).chain t = h.chain t := chain_setElement wf hlt hk key ht
  have hs₁ : q.segment ∈ (h.setKey q key).chain t := by rwa [hc₁]
  have hlt₁ := ev₁.wellFormed.segment_lt ht₁ hs₁
  have ev₂ : Evolves ∅ Set.univ (h.setKey q key) ((h.setKey q key).setFieldValue q value) :=
    evolves_setElement ev₁.wellFormed hlt₁ hk' (by simp)
  refine ⟨(spares_setElement wf ht hs hk key).trans
    (spares_setElement ev₁.wellFormed ht₁ hs₁ hk' value), ev₂.wellFormed,
    ev₂.isTable (Set.notMem_empty t) ht₁, ?_⟩
  rw [setFieldValue, chain_setElement ev₁.wellFormed hlt₁ hk' value ht₁, hc₁]

theorem spares_erasePair (wf : h.WellFormed) (ht : h.IsTable t) {q : PairSlot}
    (hq : q ∈ h.pairSlots t) : Spares {t} h (h.erasePair t q) := by
  obtain ⟨hs, hp⟩ := mem_pairSlots hq
  obtain ⟨sp, wf', ht', hc⟩ := spares_setPair wf ht hs hp none none
  rw [erasePair]
  split
  · exact sp.trans (spares_unlinkSegment wf' ht' (by rwa [hc]))
  · exact sp

theorem spares_insertPair (wf : h.WellFormed) (ht : h.IsTable t) (hne : h.chain t ≠ [])
    (key value : Ref) :
    Ends (insertPair t key value) h (fun _ h' => Spares {t} h h') fun _ h' => h' = h := by
  refine ends_get_bind ?_
  cases hf : h.freePair? t with
  | some q =>
    obtain ⟨hs, hp⟩ := mem_pairSlots (List.mem_of_find?_eq_some hf)
    exact ends_modify (spares_setPair wf ht hs hp _ _).1
  | none =>
    refine ends_get_bind (ends_bind (newSegment_allocSegment wf.layout) fun s h₁ n => ?_)
    rw [List.getLast?_eq_some_getLast hne, Option.getD_some]
    obtain ⟨sp, wf', ht', hc⟩ := spares_append wf ht (List.dropLast_append_getLast hne).symm n
    refine ends_bind (ends_modify (Q := fun _ h' => h' = h₁.setNext _ s) rfl) fun _ h₂ he => ?_
    subst he
    have hs : s ∈ (h₁.setNext ((h.chain t).getLast hne) s).chain t := by rw [hc]; simp
    exact ends_modify (sp.trans (spares_setPair (q := ⟨s, 0⟩) wf' ht' hs (Nat.succ_pos _) _ _).1)

/-- Storing under a key alters the table. -/
theorem spares_tableSet (wf : h.WellFormed) (ht : h.kind t = .table → h.isValid t = true)
    (key value : Ref) :
    Ends (tableSet t key value) h (fun _ h' => Spares {t} h h') fun _ h' => h' = h := by
  refine ends_get_bind ?_
  split
  · exact ends_pure (.refl _ _)
  · next hcond =>
    rw [not_or] at hcond
    have hkind : h.kind t = .table := by
      by_contra hkind
      exact hcond.1 (by rw [tableHead, if_neg hkind])
    have ht : h.IsTable t := ⟨ht hkind, hkind⟩
    have hne : h.chain t ≠ [] := by
      intro hnil
      have hl := wf.linked t ht
      rw [hnil] at hl
      exact hcond.1 hl
    split
    · next q hq _ => exact ends_set (spares_erasePair wf ht (List.mem_of_find?_eq_some hq))
    · next q hq _ =>
      obtain ⟨hs, hp⟩ := mem_pairSlots (List.mem_of_find?_eq_some hq)
      exact ends_set (spares_setElement wf ht hs (PairSlot.key_lt hp).2 _)
    · exact ends_pure (.refl _ _)
    · exact spares_insertPair wf ht hne key value

/-! ### Arrays -/

theorem spares_arraySet (wf : h.WellFormed) (ht : h.kind a = .table → h.isValid a = true)
    (i : Nat) (r : Ref) : Spares {a} h (h.arraySet a i r).2 := by
  rw [arraySet]
  split
  · next s hs =>
    split at hs
    · obtain ⟨htab, hmem⟩ := isTable_of_segmentOf? ht hs
      exact spares_setElement wf htab hmem (slotOf_lt i) (some r)
    · cases hs
  · exact .refl _ _

theorem spares_extendChain (wf : h.WellFormed) (ht : h.kind a = .table → h.isValid a = true)
    (hfull : h.segmentOf? a (h.arraySize a) = none) : Ends (extendChain a (h.arraySize a)) h
      (fun s h' => Spares {a} h h' ∧ h'.WellFormed ∧ h'.IsTable a ∧ h'.chain a = h.chain a ++ [s])
      fun _ h' => h' = h := by
  refine ends_get_bind ?_
  split
  · next p hp =>
    split at hp
    · cases hp
    · obtain ⟨htab, _⟩ := isTable_of_segmentOf? ht hp
      refine ends_bind (newSegment_allocSegment wf.layout) fun s h₁ n => ?_
      refine ends_bind (ends_modify (Q := fun _ h' => h' = h₁.setNext p s) rfl) fun _ h₂ he => ?_
      subst he
      exact ends_pure (spares_append wf htab (chain_eq_append_of_full hfull hp) n)
  · exact ends_throw rfl

/-- Appending an element alters the array. -/
theorem spares_arrayPush (wf : h.WellFormed) (ht : h.kind a = .table → h.isValid a = true)
    (r : Ref) : Ends (arrayPush a r) h (fun _ h' => Spares {a} h h') fun _ h' => h' = h := by
  refine ends_get_bind ?_
  simp only
  split
  · next s hs =>
    obtain ⟨htab, hmem⟩ := isTable_of_segmentOf? ht hs
    exact ends_modify (spares_setElement wf htab hmem (slotOf_lt _) (some r))
  · next hfull =>
    refine ends_bind (spares_extendChain wf ht hfull) fun s h₁ hs => ?_
    obtain ⟨sp, wf', ht', hc⟩ := hs
    have hmem : s ∈ h₁.chain a := by rw [hc]; simp
    exact ends_modify (sp.trans (spares_setElement wf' ht' hmem (slotOf_lt _) (some r)))

theorem spares_arrayPushAll (wf : h.WellFormed) (hv : h.isValid a = true) (rs : List Ref) :
    Ends (arrayPushAll a rs) h (fun _ h' => Spares {a} h h') fun _ h' => Spares {a} h h' := by
  induction rs generalizing h with
  | nil => exact ends_pure (.refl _ _)
  | cons r rs ih =>
    have ev := evolves_arrayPush (A := Set.univ) (a := a) (r := r) wf (fun _ => hv) (Set.mem_univ _)
    have sp := spares_arrayPush wf (fun _ => hv) r
    refine ends_bind ((sp.and ev).imp (fun _ _ => id) ?_) fun _ h₁ hs => ?_
    · rintro _ _ ⟨rfl, _⟩
      exact .refl _ _
    · obtain ⟨sp₁, ev₁⟩ := hs
      exact (ih ev₁.wellFormed (ev₁.isValid a (Set.notMem_empty a) hv)).imp
        (fun _ _ sp₂ => sp₁.trans sp₂) fun _ _ sp₂ => sp₁.trans sp₂

theorem spares_arrayPop (wf : h.WellFormed) (ht : h.kind a = .table → h.isValid a = true) :
    Spares {a} h (h.arrayPop a).2 := by
  rw [arrayPop]
  simp only
  split
  · exact .refl _ _
  · split
    · exact .refl _ _
    · next s hs =>
      obtain ⟨htab, hmem⟩ := isTable_of_segmentOf? ht hs
      have hlt := wf.segment_lt htab hmem
      have ev : Evolves ∅ Set.univ h (h.setElement s (slotOf (h.arraySize a - 1)) none) :=
        evolves_setElement wf hlt (slotOf_lt _) (by simp)
      have sp : Spares {a} h (h.setElement s (slotOf (h.arraySize a - 1)) none) :=
        spares_setElement wf htab hmem (slotOf_lt _) none
      split
      · next hcond =>
        split
        · next p hp =>
          rw [segmentOf?] at hs hp
          have hi : (h.arraySize a - 1) / slotsPerSegment
              = (h.arraySize a - 1 - slotsPerSegment) / slotsPerSegment + 1 := by
            have := hcond.2
            simp only [slotsPerSegment, pairsPerSegment] at this ⊢
            omega
          rw [hi] at hs
          have hchain := chain_eq_of_getElem? hp hs
          rw [← chain_setElement wf hlt (slotOf_lt (h.arraySize a - 1)) none htab] at hchain
          exact sp.trans (spares_cut ev.wellFormed (ev.isTable (Set.notMem_empty a) htab) hchain
            (l := []) rfl (List.nil_subset _))
        · exact sp
      · exact sp

theorem spares_arrayPopMany (wf : h.WellFormed) (hv : h.isValid a = true) (n : Nat) :
    Spares {a} h (h.arrayPopMany a n) := by
  induction n generalizing h with
  | zero => exact .refl _ _
  | succ n ih =>
    have ev : Evolves ∅ Set.univ h (h.arrayPop a).2 := evolves_arrayPop wf fun _ => hv
    have sp : Spares {a} h (h.arrayPop a).2 := spares_arrayPop wf fun _ => hv
    rw [arrayPopMany]
    split
    · next h₁ he =>
      rw [he] at ev sp
      exact sp.trans (ih ev.wellFormed (ev.isValid a (Set.notMem_empty a) hv))
    · next h₁ he =>
      rw [he] at sp
      exact sp

/-- Dropping every element alters the array. -/
theorem spares_arrayClear (wf : h.WellFormed) (hv : h.isValid a = true) :
    Spares {a} h (h.arrayClear a) := by
  have ev : Evolves ∅ Set.univ h (h.arrayPopMany a (h.arraySize a)) := evolves_arrayPopMany wf hv _
  exact (spares_arrayPopMany wf hv _).trans
    (spares_setHeader ev.wellFormed (ev.isValid a (Set.notMem_empty a) hv) _)

/-- A copy of an array is new, and what it takes when it does not fit is given back. -/
theorem spares_arrayClone (wf : h.WellFormed) (a : Ref) :
    Ends (arrayClone a) h (fun _ h' => Spares ∅ h h') fun _ h' => Spares ∅ h h' := by
  refine ends_get_bind (ends_bind (((spares_arrayNew wf).and
    (newObject_arrayNew (A := Set.univ) wf)).imp (fun _ _ => id) fun _ _ he => he.1)
    fun r h₁ hn => ends_get_bind ?_)
  obtain ⟨sp, n, ht⟩ := hn
  have wf₁ := n.evolves.wellFormed
  have evs := evolves_arrayPushAll (A := Set.univ) wf₁ n.isValid
    fun e (_ : e ∈ h.arrayElements a) => Set.mem_univ _
  have sps := spares_arrayPushAll wf₁ n.isValid (h.arrayElements a)
  cases hp : arrayPushAll r (h.arrayElements a) h₁ with
  | ok u h₂ =>
    have ev₂ := evs.of_ok hp
    have hv₂ := ev₂.isValid r (Set.notMem_empty r) n.isValid
    refine ends_bind (ends_set (Q := fun _ h' => Spares ∅ h h') ?_) fun _ _ sp₃ => ends_pure sp₃
    exact sp.alter ((sps.of_ok hp).trans (spares_setHeader ev₂.wellFormed hv₂ _)) n.free
  | error e h₂ =>
    have ev₂ := evs.of_error hp
    have hv₂ := ev₂.isValid r (Set.notMem_empty r) n.isValid
    have ev₃ : Evolves ∅ Set.univ h₂ (h₂.arrayClear r) :=
      evolves_arrayClear ev₂.wellFormed (ev₂.isTable (Set.notMem_empty r) ht)
    refine ends_bind (ends_set (Q := fun _ h' => Spares ∅ h h') ?_) fun _ _ sp₃ => ends_throw sp₃
    exact sp.alter (((sps.of_error hp).trans (spares_arrayClear ev₂.wellFormed hv₂)).trans
      (spares_invalidate ev₃.wellFormed r)) n.free

/-! ### Collections -/

/-- What a collection keeps is as it was. -/
theorem unaltered_collect (wf : h.WellFormed) {roots : List Ref}
    (hv : (h.collect roots).2.isValid r = true) : Unaltered h (h.collect roots).2 r := by
  refine ⟨hv, value_collect wf.layout hv, ?_⟩
  have hk := kind_collect wf.layout hv
  by_cases hkind : h.kind r = .table
  · have ht : (h.collect roots).2.IsTable r := ⟨hv, hk.trans hkind⟩
    refine arraySlots_congr (chain_collect wf ht) fun s hs k hlt => ?_
    exact element?_collect wf.layout (wf.segment_lt (isTable_of_collect wf.layout ht) hs) hlt
  · rw [arraySlots, arraySlots, chain_of_not_table hkind, chain_of_not_table (hk.symm ▸ hkind),
      List.flatMap_nil, List.flatMap_nil]

/-! ### Calls -/

theorem spares_alloc (wf : h.WellFormed) (kind : Kind) :
    Ends (alloc kind) h (fun _ h' => Spares ∅ h h') fun _ h' => Spares ∅ h h' := by
  have scalar : ∀ v, Ends (allocValue v) h (fun _ h' => Spares ∅ h h')
      fun _ h' => Spares ∅ h h' := by
    intro v
    refine (spares_allocValue wf v).imp (fun _ _ => id) ?_
    rintro _ _ rfl
    exact .refl _ _
  cases kind with
  | table => exact spares_allocTable wf
  | _ => exact scalar _

/-- The call is not about the object: it does not change it, and a collection keeps it. -/
def Request.Leaves (h : Heap) (r : Ref) : Request → Prop
  | clear => False
  | invalidate r' | setValue r' _ | tableSet r' _ _ | arrayPush r' _ | arrayPop r'
  | arraySet r' _ _ | arrayClear r' => r' ≠ r
  | collect roots => (h.collect roots).2.isValid r = true
  | _ => True

/-- An object that a call is not about is left as it was. -/
theorem Request.Leaves.unaltered {q : Request} (wf : h.WellFormed) (tidy : h.Tidy)
    (allowed : q.Allowed h) (hv : h.isValid r = true) (hq : q.Leaves h r) :
    Unaltered h (q.perform h) r := by
  have htable : ∀ t, h.kind t = .table → h.isValid t = true :=
    fun t ht => tidy.isValid_of_kind (by rw [ht]; decide)
  have new : ∀ {α : Type} {x : HeapM α}, Ends x h (fun _ h' => Spares ∅ h h')
      (fun _ h' => Spares ∅ h h') → Unaltered h (after x h) r := by
    intro α x hx
    exact (after_of_ends (P := fun h' => Spares ∅ h h') hx).unaltered hv
  have write : ∀ {α : Type} {x : HeapM α} {t : Ref}, t ≠ r →
      Ends x h (fun _ h' => Spares {t} h h') (fun _ h' => h' = h) → Unaltered h (after x h) r := by
    intro α x t ne hx
    refine Spares.unaltered_of_ne (after_of_ends (P := fun h' => Spares {t} h h')
      (hx.imp (fun _ _ => id) ?_)) ne.symm hv
    rintro _ _ rfl
    exact .refl _ _
  have same : ∀ {α : Type} {x : HeapM α}, Ends x h (fun _ h' => Spares ∅ h h')
      (fun _ h' => h' = h) → Unaltered h (after x h) r := by
    intro α x hx
    refine new (hx.imp (fun _ _ => id) ?_)
    rintro _ _ rfl
    exact .refl _ _
  cases q with
  | clear => exact hq.elim
  | alloc kind => exact new (spares_alloc wf kind)
  | allocValue v => exact same (spares_allocValue wf v)
  | copy r' => exact same (spares_copy wf r')
  | invalidate r' => exact (spares_invalidate wf r').unaltered_of_ne (Ne.symm hq) hv
  | makePermanent r' => exact (spares_setPermanent wf r' true).unaltered hv
  | clearPermanent r' => exact (spares_setPermanent wf r' false).unaltered hv
  | setValue r' v =>
    exact (spares_of_object wf (lt_objectSlots_of_isValid allowed.1)
      (writesIn_setValue h r' v)).unaltered_of_ne (Ne.symm hq) hv
  | tableNew => exact new (spares_allocTable wf)
  | tableSet t key value => exact write hq (spares_tableSet wf (htable t) key value)
  | arrayNew => exact new (spares_arrayNew wf)
  | arrayPush a e => exact write hq (spares_arrayPush wf (htable a) e)
  | arrayPop a => exact (spares_arrayPop wf (htable a)).unaltered_of_ne (Ne.symm hq) hv
  | arraySet a i e => exact (spares_arraySet wf (htable a) i e).unaltered_of_ne (Ne.symm hq) hv
  | arrayClone a => exact new (spares_arrayClone wf a)
  | arrayClear a => exact (spares_arrayClear wf allowed).unaltered_of_ne (Ne.symm hq) hv
  | collect roots => exact unaltered_collect wf hq

/-! ### Growth -/

/-- The heap `h'` has objects that `h` has not, and no object of `h` is altered. -/
structure Grows (h h' : Heap) : Prop where
  /-- The heap is well formed. -/
  wellFormed : h'.WellFormed
  /-- Free slots stay tidy. -/
  tidy : h.Tidy → h'.Tidy
  /-- Objects are as they were. -/
  spares : Spares ∅ h h'

theorem Grows.refl (wf : h.WellFormed) : Grows h h := ⟨wf, id, .refl _ _⟩

theorem Grows.trans (g : Grows h h') (g' : Grows h' h'') : Grows h h'' :=
  ⟨g'.wellFormed, fun ht => g'.tidy (g.tidy ht), g.spares.trans g'.spares⟩

theorem grows_setPermanent (wf : h.WellFormed) (r : Ref) (permanent : Bool) :
    Grows h (h.setPermanent r permanent) := by
  have ev : Evolves {r} ∅ h (h.setPermanent r permanent) := evolves_setPermanent wf r permanent
  exact ⟨ev.wellFormed, ev.tidy, spares_setPermanent wf r permanent⟩

theorem grows_allocValue (wf : h.WellFormed) {v : Value} (ht : ∀ t, v ≠ .table t) :
    Ends (allocValue v) h (fun r h' => Grows h h' ∧ h'.isValid r = true ∧ h'.value r = v)
      fun _ h' => h' = h := by
  refine ((spares_allocValue wf v).and (newObject_allocValue (A := Set.univ) wf ht
    fun _ _ _ _ => Set.mem_univ _)).imp (fun r h' hn => ?_) fun _ _ he => he.2
  obtain ⟨spares, n, hv⟩ := hn
  exact ⟨⟨n.evolves.wellFormed, n.evolves.tidy, spares⟩, n.isValid, hv⟩

/-- A copy has the value of the original. -/
theorem grows_copy (wf : h.WellFormed) (r : Ref) : Ends (copy r) h
    (fun r' h' => Grows h h' ∧ h'.isValid r' = true ∧ h'.value r' = h.value r)
      fun _ h' => h' = h := by
  refine ends_get_bind ?_
  cases hv : h.value r with
  | table t => exact ends_pure ⟨.refl wf, (kind_of_value hv (by simp)).1, hv⟩
  | _ => exact grows_allocValue wf (by simp)

/-- Where free slots are tidy, the kind of an object is that of its value. -/
theorem Tidy.kind_eq (tidy : h.Tidy) (r : Ref) : h.kind r = (h.value r).kind := by
  cases hv : h.isValid r with
  | true => exact kind_eq_kind_value hv
  | false =>
    rw [tidy r hv, value]
    rw [isValid] at hv
    simp only [hv, Bool.false_eq_true, if_false]
    rfl

end Heap

end SwarmVm
