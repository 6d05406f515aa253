import SwarmVm.Proofs.Heap.Segments

/-!
# Objects come and go

A new object is in a slot that held none, so every object that was there is left alone. Tables are
the exception to the rule that an object is made by one write: a new table takes a segment as well,
and when there is none, the object is given back.

Whoever gives back or overwrites a table leaves its segments in use without an owner. The heap stays
well formed, since ownership is a matter of the tables there are.

## Main definitions

* `Heap.NewObject` — an object that was not there before

## Main results

* `Heap.allocSlot_takes` — where a new object is put, and when there is no place for it
* `Heap.newObject_allocValue`, `Heap.newObject_alloc` — allocation
* `Heap.evolves_setValue`, `Heap.evolves_invalidate` — an object is overwritten or given back
* `Heap.evolves_setFlagA`, `Heap.evolves_setFlagB`, `Heap.evolves_setPermanent` — flags
-/

namespace SwarmVm

namespace Heap

variable {h h' h'' h₀ : Heap} {r t e : Ref} {s : SegRef} {A X : Set Ref} {v : Value}

/-- `r` was free and is an object now. It points at given objects at most. -/
structure NewObject (A : Set Ref) (h : Heap) (r : Ref) (h' : Heap) : Prop where
  /-- Nothing else is different. -/
  evolves : Evolves ∅ A h h'
  /-- The slot was free. -/
  free : h.isValid r = false
  /-- It is not any more. -/
  isValid : h'.isValid r = true
  /-- The object points at given ones. -/
  pointsTo : ∀ e, h'.PointsTo r e → e ∈ A

namespace NewObject

/-- A new object may be overwritten. -/
theorem overwrite (n : NewObject A h r h') (ev : Evolves {r} A h' h'')
    (hv : h''.isValid r = true) (hp : ∀ e, h''.PointsTo r e → e ∈ A) : NewObject A h r h'' where
  evolves := n.evolves.trans ev fun _ hr => .inr (by rw [Set.mem_singleton_iff.1 hr, n.free])
  free := n.free
  isValid := hv
  pointsTo := hp

theorem trans (n : NewObject A h r h') (ev : Evolves ∅ A h' h'') : NewObject A h r h'' where
  evolves := n.evolves.trans' ev
  free := n.free
  isValid := ev.isValid r (Set.notMem_empty r) n.isValid
  pointsTo e he := (ev.pointsTo r (Set.notMem_empty r) n.isValid e he).elim (n.pointsTo e) id

end NewObject

/-! ### Fresh slots -/

theorem not_pointsTo_of_value (hv : h.value r = v) (ht : ∀ t, v ≠ .table t)
    (hc : ∀ c, v ≠ .closure c) : ¬ h.PointsTo r e := by
  intro he
  cases he with
  | element hv' _ _ _ => exact ht _ (hv ▸ hv')
  | captured hv' _ => exact hc _ (hv ▸ hv')

theorem newObject_of_fresh (wf : h.WellFormed) (layout : h'.Layout) (segments : SameSegments h h')
    (header : ∀ r', r' ≠ r → h'.header r' = h.header r')
    (value : ∀ r', r' ≠ r → h'.value r' = h.value r') (free : h.isValid r = false)
    (fresh : h'.header r = Header.fresh) : NewObject A h r h' := by
  have hvalid : h'.isValid r = true := by rw [isValid, fresh]; rfl
  have hkind : h'.kind r = .nil := by rw [kind, fresh]; rfl
  have hnil : h'.value r = .nil := by rw [Heap.value, fresh]; rfl
  refine ⟨(evolves_of_object wf layout segments r header value (fun hf => ?_)
    fun ht => ?_).of_free fun r' hr => ?_, free, hvalid, fun e he => ?_⟩
  · rw [hvalid] at hf
    cases hf
  · rw [ht.2] at hkind
    cases hkind
  · rw [Set.mem_singleton_iff.1 hr, free]
  · exact absurd he (not_pointsTo_of_value hnil (by simp) (by simp))

/-- The heap with the edge of the objects moved out by one slot. -/
def withObjectSlot (h : Heap) : Heap := { h with objectEnd := h.objectEnd + objectSize }

theorem layout_withObjectSlot (layout : h.Layout)
    (room : h.objectEnd + objectSize ≤ h.segmentStart) : h.withObjectSlot.Layout := by
  have ho := layout.objectEnd_eq
  refine ⟨layout.accepted, room, layout.inside, ⟨h.objectSlots + 1, ?_⟩, layout.segments⟩
  change h.objectEnd + 5 = 5 * (h.objectSlots + 1)
  omega

theorem objectSlots_withObjectSlot (layout : h.Layout) :
    h.withObjectSlot.objectSlots = h.objectSlots + 1 := by
  have ho := layout.objectEnd_eq
  change (h.objectEnd + 5) / 5 = h.objectSlots + 1
  omega

theorem header_withObjectSlot (layout : h.Layout) (ne : r.toNat ≠ h.objectSlots) :
    h.withObjectSlot.header r = h.header r := by
  rw [header, header, objectSlots_withObjectSlot layout]
  by_cases hr : r.toNat < h.objectSlots
  · rw [if_pos hr, if_pos (by omega)]
    rfl
  · rw [if_neg hr, if_neg (by omega)]

theorem value_withObjectSlot (layout : h.Layout) (ne : r.toNat ≠ h.objectSlots) :
    h.withObjectSlot.value r = h.value r := by
  rw [value, value, header_withObjectSlot layout ne]
  rfl

/-- `h₀` has a slot for the object `r`, which is free in `h`, and is the same otherwise. -/
structure ObjectRoom (h : Heap) (r : Ref) (h₀ : Heap) : Prop where
  /-- The edges are in place. -/
  layout : h₀.Layout
  /-- No slot is lost, -/
  slots : h.objectSlots ≤ h₀.objectSlots
  /-- and that of the object is there. -/
  lt : r.toNat < h₀.objectSlots
  /-- It is free. -/
  free : h.isValid r = false
  /-- The edge of the segments is where it was. -/
  segmentStart : h₀.segmentStart = h.segmentStart
  /-- The segments are the same. -/
  segments : SameSegments h h₀
  /-- The other objects have their headers, -/
  header : ∀ r', r' ≠ r → h₀.header r' = h.header r'
  /-- and their values. -/
  value : ∀ r', r' ≠ r → h₀.value r' = h.value r'

/-- The object is put into the lowest free slot, or into a new one when none is free. It fails when
there is neither. -/
theorem allocSlot_takes (layout : h.Layout) : Ends allocSlot h
    (fun r h' => (∀ r' < r, h.isValid r' = true)
      ∧ ∃ h₀, ObjectRoom h r h₀ ∧ h' = h₀.initObject r)
    fun _ h' => h' = h ∧ (∀ r, r.toNat < h.objectSlots → h.isValid r = true)
      ∧ h.freeBytes < objectSize := by
  have hle := layout.objectSlots_le
  rw [ends_iff, allocSlot]
  cases hf : h.freeSlot? with
  | some i =>
    obtain ⟨hr, free, lower⟩ := lowest_of_find?_eq_some (by omega) hf
    exact ⟨lower, h, ⟨layout, le_rfl, hr, free, rfl, ⟨rfl, rfl, fun _ _ => rfl⟩, fun _ _ => rfl,
      fun _ _ => rfl⟩, rfl⟩
  | none =>
    by_cases room : h.objectEnd + objectSize ≤ h.segmentStart
    · simp only [room, if_true]
      have hn : (UInt16.ofNat h.objectSlots).toNat = h.objectSlots := toNat_ofNat_of_lt (by omega)
      have hslots := objectSlots_withObjectSlot layout
      have ne : ∀ r', r' ≠ UInt16.ofNat h.objectSlots → r'.toNat ≠ h.objectSlots :=
        fun r' ne he => ne (UInt16.toNat_inj.1 (he.trans hn.symm))
      refine ⟨fun r' hr' => used_of_find?_eq_none hf ((UInt16.lt_iff_toNat_lt.1 hr').trans_eq hn),
        h.withObjectSlot, ⟨layout_withObjectSlot layout room, by omega, by omega, ?_, rfl,
          ⟨rfl, rfl, fun _ _ => rfl⟩, fun r' hr' => header_withObjectSlot layout (ne r' hr'),
          fun r' hr' => value_withObjectSlot layout (ne r' hr')⟩, rfl⟩
      rw [isValid, header, hn, if_neg (lt_irrefl _)]
      rfl
    · simp only [room, if_false]
      refine ⟨trivial, fun _ => used_of_find?_eq_none hf, ?_⟩
      rw [freeBytes]
      rw [objectSize] at room ⊢
      omega

namespace ObjectRoom

/-- A slot that is behind all others takes its bytes from the room between the regions. -/
theorem objectSize_le (m : ObjectRoom h r h₀) (layout : h.Layout)
    (full : ∀ r, r.toNat < h.objectSlots → h.isValid r = true) : objectSize ≤ h.freeBytes := by
  have behind : h.objectSlots ≤ r.toNat := by
    by_contra hr
    have hv := full r (by omega)
    rw [m.free] at hv
    cases hv
  have hend := layout.objectEnd_eq
  have hend₀ := m.layout.objectEnd_eq
  have hordered₀ := m.layout.ordered
  have hlt := m.lt
  rw [m.segmentStart] at hordered₀
  rw [objectSize, freeBytes]
  omega

theorem header_initObject_of_ne (m : ObjectRoom h r h₀) {r' : Ref} (ne : r' ≠ r) :
    (h₀.initObject r).header r' = h.header r' :=
  ((writesIn_initObject h₀ r).header_of_ne ne).trans (m.header r' ne)

theorem value_initObject_of_ne (m : ObjectRoom h r h₀) {r' : Ref} (ne : r' ≠ r) :
    (h₀.initObject r).value r' = h.value r' :=
  ((writesIn_initObject h₀ r).value_of_ne ne).trans (m.value r' ne)

theorem header_initObject (m : ObjectRoom h r h₀) : (h₀.initObject r).header r = Header.fresh :=
  Heap.header_initObject m.layout m.lt

theorem isValid_initObject (m : ObjectRoom h r h₀) : (h₀.initObject r).isValid r = true := by
  rw [isValid, m.header_initObject]
  rfl

theorem layout_initObject (m : ObjectRoom h r h₀) : (h₀.initObject r).Layout :=
  m.layout.of_writesIn (writesIn_initObject h₀ r)

theorem sameSegments (m : ObjectRoom h r h₀) : SameSegments h (h₀.initObject r) := by
  have g := (writesIn_initObject h₀ r).sameSegments_of_object m.layout m.lt
  exact ⟨g.size.trans m.segments.size, g.slots.trans m.segments.slots,
    fun o ho => (g.byte o (m.segmentStart ▸ ho)).trans (m.segments.byte o ho)⟩

end ObjectRoom

/-- A slot is taken where there was no object. -/
theorem newObject_allocSlot (wf : h.WellFormed) :
    Ends allocSlot h (fun r h' => NewObject A h r h') fun _ h' => h' = h := by
  refine (allocSlot_takes wf.layout).imp (fun r h' hr => ?_) fun _ _ he => he.1
  obtain ⟨-, h₀, m, rfl⟩ := hr
  exact newObject_of_fresh wf m.layout_initObject m.sameSegments
    (fun _ => m.header_initObject_of_ne) (fun _ => m.value_initObject_of_ne) m.free
    m.header_initObject

/-! ### Overwriting an object -/

/-- An object may get any value but a table. -/
theorem evolves_setValue (wf : h.WellFormed) (hv : h.isValid r = true) (ht : ∀ t, v ≠ .table t) :
    Evolves {r} A h (h.setValue r v) := by
  have hr := lt_objectSlots_of_isValid hv
  have w := writesIn_setValue h r v
  refine evolves_of_object wf (wf.layout.of_writesIn w) (w.sameSegments_of_object wf.layout hr) r
    (fun r' ne => w.header_of_ne ne) (fun r' ne => w.value_of_ne ne) (fun hf => ?_) fun htab => ?_
  · rw [isValid_setValue wf.layout hr, hv] at hf
    cases hf
  · rw [IsTable, kind_setValue wf.layout hr] at htab
    cases v with
    | table t => exact absurd rfl (ht t)
    | _ => exact absurd htab.2 (by simp [Value.kind])

/-- An object becomes a table with a chain that nobody owns. -/
theorem evolves_setValue_table (wf : h.WellFormed) (hv : h.isValid r = true)
    {l : List SegRef} {v : TableValue} (hl : h.Linked v.head l) (hfree : ∀ s ∈ l, h.Unowned s) :
    Evolves {r} A h (h.setValue r (.table v))
      ∧ (h.setValue r (.table v)).IsTable r ∧ (h.setValue r (.table v)).chain r = l := by
  have hr := lt_objectSlots_of_isValid hv
  have w := writesIn_setValue h r (.table v)
  have g := w.sameSegments_of_object wf.layout hr
  have hv' := isValid_setValue wf.layout hr (.table v) r
  rw [hv] at hv'
  have hlinked : (h.setValue r (.table v)).Linked ((h.setValue r (.table v)).tableHead r) l := by
    rw [← head_eq_tableHead (value_setValue wf.layout hv (.table v))]
    exact hl.congr fun s _ => g.link wf.layout s
  refine ⟨evolves_of_object wf (wf.layout.of_writesIn w) g r (fun r' ne => w.header_of_ne ne)
    (fun r' ne => w.value_of_ne ne) (fun hf => ?_) fun _ => ⟨l, hlinked, fun s hs r' _ ht' =>
    hfree s hs r' ht'⟩, ⟨hv', kind_setValue wf.layout hr _⟩, hlinked.chain_eq⟩
  rw [hv'] at hf
  cases hf

/-- A slot is given free. -/
theorem evolves_invalidate (wf : h.WellFormed) (r : Ref) : Evolves {r} A h (h.invalidate r) := by
  rw [invalidate]
  split
  · next hr =>
    have w := writesIn_setHeader h r Header.free
    have hh : (h.setHeader r Header.free).header r = Header.free :=
      header_setHeader wf.layout hr (by decide)
    refine evolves_of_object wf (wf.layout.of_writesIn w) (w.sameSegments_of_object wf.layout hr) r
      (fun r' ne => w.header_of_ne ne) (fun r' ne => w.value_of_ne ne) (fun _ => ?_) fun ht => ?_
    · rw [kind, hh]
      rfl
    · rw [IsTable, isValid, hh] at ht
      cases ht.1
  · exact .refl wf

/-! ### Flags -/

theorem kind_setHeader (layout : h.Layout) (hr : r.toNat < h.objectSlots) {header : Header}
    (tag : header.tag = (h.header r).tag) : (h.setHeader r header).kind r = h.kind r := by
  rw [kind, header_setHeader layout hr (tag ▸ tag_header_lt h r), kind, Header.kind, Header.kind,
    Header.kind?, Header.kind?, tag]

theorem chain_setHeader (layout : h.Layout) (hr : r.toNat < h.objectSlots) {header : Header}
    (tag : header.tag = (h.header r).tag) : (h.setHeader r header).chain r = h.chain r
      ∧ (h.setHeader r header).tableHead r = h.tableHead r := by
  have g := (writesIn_setHeader h r header).sameSegments_of_object layout hr
  have w := writesIn_setByte h (objectOffset r) header.toByte
  have hhead : (h.setHeader r header).tableHead r = h.tableHead r := by
    rw [tableHead, tableHead, kind_setHeader layout hr tag, setHeader, w.word (by omega)]
  refine ⟨?_, hhead⟩
  have hnext : ∀ n s, (h.setHeader r header).chainFrom n s = h.chainFrom n s := by
    intro n
    induction n with
    | zero => intro s; rfl
    | succ n ih =>
      intro s
      rw [chainFrom, chainFrom, next, g.link layout, ih]
      rfl
  rw [chain, chain, chainBound, g.slots, hhead, hnext, chainBound]

/-- The header of an object may change in everything but its tag. -/
theorem evolves_setHeader (wf : h.WellFormed) (hv : h.isValid r = true) {header : Header}
    (valid : header.valid = true) (tag : header.tag = (h.header r).tag) :
    Evolves {r} A h (h.setHeader r header) := by
  have hr := lt_objectSlots_of_isValid hv
  have w := writesIn_setHeader h r header
  have g := w.sameSegments_of_object wf.layout hr
  refine evolves_of_object wf (wf.layout.of_writesIn w) g r (fun r' ne => w.header_of_ne ne)
    (fun r' ne => w.value_of_ne ne) (fun hf => ?_)
    fun ht => ⟨h.chain r, ?_, fun s hs r' ne ht' hs' => ?_⟩
  · rw [isValid, header_setHeader wf.layout hr (tag ▸ tag_header_lt h r), valid] at hf
    cases hf
  · rw [(chain_setHeader wf.layout hr tag).2]
    rw [IsTable, kind_setHeader wf.layout hr tag] at ht
    exact (wf.linked r ⟨hv, ht.2⟩).congr fun s _ => g.link wf.layout s
  · rw [IsTable, kind_setHeader wf.layout hr tag] at ht
    exact wf.disjoint r r' ⟨hv, ht.2⟩ ht' ne.symm hs hs'

/-- The object that may change is in fact as it was, except for what tables may lose. -/
theorem Evolves.keep (ev : Evolves {r} A h h') (isValid : h'.isValid r = true)
    (permanent : (h'.header r).permanent = (h.header r).permanent) (kind : h'.kind r = h.kind r)
    (scalar : h.kind r ≠ .table → h'.value r = h.value r)
    (pointsTo : ∀ e, h'.PointsTo r e → h.PointsTo r e ∨ e ∈ A) : Evolves ∅ A h h' := by
  refine ⟨ev.wellFormed, ev.size, ev.tidy, fun r' _ hv => ?_, fun r' _ hv => ?_, fun r' _ hv => ?_,
    fun r' _ hv ht => ?_, fun r' _ hv e he => ?_⟩ <;> by_cases ne : r' = r
  · exact ne ▸ isValid
  · exact ev.isValid r' ne hv
  · exact ne ▸ permanent
  · exact ev.permanent r' ne hv
  · exact ne ▸ kind
  · exact ev.kind r' ne hv
  · subst ne
    exact scalar ht
  · exact ev.scalar r' ne hv ht
  · subst ne
    exact pointsTo e he
  · exact ev.pointsTo r' ne hv e he

theorem pointsTo_setHeader_of_table (wf : h.WellFormed) (ht : h.IsTable r) {header : Header}
    (valid : header.valid = true) (tag : header.tag = (h.header r).tag)
    (he : (h.setHeader r header).PointsTo r e) : h.PointsTo r e := by
  have hr := lt_objectSlots_of_isValid ht.1
  have g := (writesIn_setHeader h r header).sameSegments_of_object wf.layout hr
  have wf' : (h.setHeader r header).WellFormed :=
    (evolves_setHeader (A := ∅) wf ht.1 valid tag).wellFormed
  obtain ⟨s, hs, k, hkl, he⟩ := (wf'.pointsTo_iff
    ⟨he.isValid, (kind_setHeader wf.layout hr tag).trans ht.2⟩).1 he
  rw [(chain_setHeader wf.layout hr tag).1] at hs
  rw [g.element? wf.layout (wf.segment_lt ht hs)] at he
  exact (wf.pointsTo_iff ht).2 ⟨s, hs, k, hkl, he⟩

theorem captured_of_unpack {header : Header} {word aux : UInt16} {c : Closure}
    (hc : Value.unpack header word aux = .closure c) :
    header.kind? = some .closure ∧ c.captured = if header.flagB then some aux else none := by
  rw [Value.unpack] at hc
  split at hc <;> simp_all
  rw [← hc]

/-- The two flags of a table may change. -/
theorem evolves_setFlags (wf : h.WellFormed) (ht : h.IsTable r) {header : Header}
    (valid : header.valid = true) (tag : header.tag = (h.header r).tag)
    (permanent : header.permanent = (h.header r).permanent) :
    Evolves ∅ A h (h.setHeader r header) := by
  have hr := lt_objectSlots_of_isValid ht.1
  have hh := header_setHeader wf.layout hr (tag ▸ tag_header_lt h r)
  exact (evolves_setHeader wf ht.1 valid tag).keep (by rw [isValid, hh, valid])
    (by rw [hh, permanent]) (kind_setHeader wf.layout hr tag) (fun hk => absurd ht.2 hk)
    fun _ he => .inl (pointsTo_setHeader_of_table wf ht valid tag he)

theorem evolves_setFlagA (wf : h.WellFormed) (ht : h.IsTable r) (flag : Bool) :
    Evolves ∅ A h (h.setFlagA r flag) := evolves_setFlags wf ht ht.1 rfl rfl

theorem evolves_setFlagB (wf : h.WellFormed) (ht : h.IsTable r) (flag : Bool) :
    Evolves ∅ A h (h.setFlagB r flag) := evolves_setFlags wf ht ht.1 rfl rfl

/-- A closure without the flag has no record. -/
theorem pointsTo_setHeader_of_flagB (wf : h.WellFormed) (hv : h.isValid r = true) {header : Header}
    (valid : header.valid = true) (tag : header.tag = (h.header r).tag)
    (flagB : header.flagB = false) (he : (h.setHeader r header).PointsTo r e) :
    h.PointsTo r e := by
  have hr := lt_objectSlots_of_isValid hv
  cases he with
  | element hv' hs hk he =>
    have ht := (isTable_of_value hv').2
    rw [kind_setHeader wf.layout hr tag] at ht
    exact pointsTo_setHeader_of_table wf ⟨hv, ht⟩ valid tag (.element hv' hs hk he)
  | captured hc he =>
    rw [value_setHeader wf.layout hr (tag ▸ tag_header_lt h r), if_pos valid] at hc
    have hb := (captured_of_unpack hc).2
    rw [he, flagB] at hb
    cases hb

theorem evolves_setPermanent (wf : h.WellFormed) (r : Ref) (permanent : Bool) :
    Evolves {r} A h (h.setPermanent r permanent) := by
  rw [setPermanent]
  split
  · next hv => exact evolves_setHeader wf hv hv rfl
  · exact .refl wf

/-- An object is what it was, whether or not it is permanent. -/
theorem value_setPermanent (layout : h.Layout) (r r' : Ref) (permanent : Bool) :
    (h.setPermanent r permanent).isValid r' = h.isValid r'
      ∧ (h.setPermanent r permanent).value r' = h.value r' := by
  rw [setPermanent]
  split
  · next hv =>
    have hr := lt_objectSlots_of_isValid hv
    have w := writesIn_setHeader h r { h.header r with permanent }
    by_cases ne : r' = r
    · subst ne
      have htag : ({ h.header r' with permanent } : Header).tag < 8 := tag_header_lt h r'
      rw [isValid, header_setHeader layout hr htag, value_setHeader layout hr htag,
        value_of_isValid hv, if_pos (show ({ h.header r' with permanent } : Header).valid from hv)]
      exact ⟨rfl, rfl⟩
    · rw [isValid, w.header_of_ne ne, w.value_of_ne ne, isValid]
      exact ⟨rfl, rfl⟩
  · exact ⟨rfl, rfl⟩

theorem header_setPermanent (layout : h.Layout) (r r' : Ref) (permanent : Bool) :
    (h.setPermanent r permanent).header r' = if r' = r ∧ h.isValid r = true
      then { h.header r with permanent } else h.header r' := by
  rw [setPermanent]
  by_cases hv : h.isValid r = true
  · by_cases ne : r' = r
    · rw [if_pos hv, if_pos ⟨ne, hv⟩, ne]
      exact header_setHeader layout (lt_objectSlots_of_isValid hv) (tag_header_lt h r)
    · rw [if_pos hv, if_neg fun hc => ne hc.1]
      exact (writesIn_setHeader h r _).header_of_ne ne
  · rw [if_neg hv, if_neg fun hc => hv hc.2]

theorem kind_setPermanent (layout : h.Layout) (r r' : Ref) (permanent : Bool) :
    (h.setPermanent r permanent).kind r' = h.kind r' := by
  rw [kind, header_setPermanent layout, kind]
  split
  · next hc => rw [hc.1]; rfl
  · rfl

theorem pointsTo_setPermanent (wf : h.WellFormed) {r r' : Ref} {permanent : Bool}
    (he : (h.setPermanent r permanent).PointsTo r' e) : h.PointsTo r' e := by
  obtain ⟨hvalid, hvalue⟩ := value_setPermanent wf.layout r r' permanent
  have hv : h.isValid r' = true := hvalid ▸ he.isValid
  by_cases hk : h.kind r' = .table
  · by_cases ne : r' = r
    · subst ne
      rw [setPermanent, if_pos hv] at he
      refine pointsTo_setHeader_of_table wf ⟨hv, hk⟩ ?_ ?_ he
      · exact hv
      · rfl
    · have ev : Evolves {r} ∅ h _ := evolves_setPermanent wf r permanent
      exact (ev.pointsTo r' ne hv e he).resolve_right (Set.notMem_empty e)
  · exact (pointsTo_congr_of_not_table hvalue hk).1 he

/-! ### Allocation -/

theorem captured_of_pointsTo (hv : h.value r = v) (ht : ∀ t, v ≠ .table t)
    (he : h.PointsTo r e) : ∃ c, v = .closure c ∧ c.captured = some e := by
  cases he with
  | element hv' _ _ _ => exact absurd (hv ▸ hv') (ht _)
  | captured hv' hc => exact ⟨_, hv ▸ hv', hc⟩

/-- A new object has the value it was made with. -/
theorem newObject_allocValue (wf : h.WellFormed) (ht : ∀ t, v ≠ .table t)
    (hA : ∀ c e, v = .closure c → c.captured = some e → e ∈ A) :
    Ends (allocValue v) h (fun r h' => NewObject A h r h' ∧ h'.value r = v) fun _ h' => h' = h := by
  refine ends_bind (newObject_allocSlot (A := A) wf) fun r h' n => ?_
  have wf' := n.evolves.wellFormed
  have hvalue := value_setValue wf'.layout n.isValid v
  refine ends_bind (ends_modify (Q := fun _ h'' => h'' = h'.setValue r v) rfl) fun _ h'' he => ?_
  subst he
  refine ends_pure ⟨n.overwrite (evolves_setValue wf' n.isValid ht) ?_ fun e he => ?_, hvalue⟩
  · rw [isValid_setValue wf'.layout (lt_objectSlots_of_isValid n.isValid), n.isValid]
  · obtain ⟨c, hc, he⟩ := captured_of_pointsTo hvalue ht he
    exact hA c e hc he

/-- A new table is empty. When there is no segment for it, its object is given back. -/
theorem newObject_allocTable (wf : h.WellFormed) : Ends alloc.allocTable h
    (fun r h' => NewObject A h r h' ∧ h'.IsTable r)
    fun _ h' => Evolves ∅ A h h' := by
  refine ends_bind ((newObject_allocSlot (A := A) wf).imp (fun _ _ => id) ?_) fun r h₁ n => ?_
  · rintro _ _ rfl
    exact .refl wf
  · have wf₁ := n.evolves.wellFormed
    have seg := newSegment_allocSegment wf₁.layout
    refine ends_get_bind ?_
    cases ha : allocSegment h₁ with
    | ok s h₂ =>
      have ns := seg.of_ok ha
      have ev₂ : Evolves ∅ A h₁ h₂ := ns.evolves wf₁
      have n₂ := n.trans ev₂
      obtain ⟨ev, ht, hchain⟩ := evolves_setValue_table (A := A) (v := ⟨s, false, false⟩)
        ev₂.wellFormed n₂.isValid ns.linked
        (fun s' hs => by rw [List.mem_singleton.1 hs]; exact ns.unowned wf₁)
      have hlt : s.toNat < h₂.segmentSlots := ns.linked.lt List.mem_cons_self
      have g := (writesIn_setValue h₂ r (.table ⟨s, false, false⟩)).sameSegments_of_object
        ns.layout (lt_objectSlots_of_isValid n₂.isValid)
      have hempty : ∀ k < slotsPerSegment,
          (h₂.setValue r (.table ⟨s, false, false⟩)).element? s k = none := by
        intro k hk
        rw [g.element? ns.layout hlt, ns.empty k hk]
      refine ends_bind (ends_set (Q := by
        intro _ h'
        exact h' = h₂.setValue r (.table ⟨s, false, false⟩)) rfl) fun _ h' he => ?_
      subst he
      refine ends_pure ⟨n₂.overwrite ev ht.1 fun e he => ?_, ht⟩
      obtain ⟨s', hs', k, hk, he⟩ := (ev.wellFormed.pointsTo_iff ht).1 he
      rw [hchain, List.mem_singleton] at hs'
      rw [hs', hempty k hk] at he
      cases he
    | error e h₂ =>
      have he := seg.of_error ha
      subst he
      refine ends_bind (ends_set (Q := fun _ h' => h' = h₂.invalidate r) rfl) fun _ h' he => ?_
      subst he
      refine ends_throw (n.evolves.trans (evolves_invalidate wf₁ r) fun r' hr => .inr ?_)
      rw [Set.mem_singleton_iff.1 hr, n.free]

/-- Whatever its kind, a new object points at nothing. -/
theorem newObject_alloc (wf : h.WellFormed) (kind : Kind) : Ends (alloc kind) h
    (fun r h' => NewObject A h r h') fun _ h' => Evolves ∅ A h h' := by
  have scalar : ∀ v : Value, (∀ t, v ≠ .table t) → (∀ c, v = .closure c → c.captured = none) →
      Ends (allocValue v) h (fun r h' => NewObject A h r h') fun _ h' => Evolves ∅ A h h' := by
    intro v ht hc
    refine (newObject_allocValue wf ht fun c e hv he => ?_).imp (fun _ _ hn => hn.1) ?_
    · rw [hc c hv] at he
      cases he
    · rintro _ _ rfl
      exact .refl wf
  cases kind with
  | table => exact (newObject_allocTable wf).imp (fun _ _ hn => hn.1) fun _ _ => id
  | closure =>
    refine scalar _ (by simp) fun c hc => ?_
    rw [← Value.closure.inj hc]
    rfl
  | _ => exact scalar _ (by simp) (by simp)

/-- A copy is new, except that of a table, which is the table itself. -/
theorem evolves_copy (wf : h.WellFormed) (hA : ∀ e, h.PointsTo r e → e ∈ A) : Ends (copy r) h
    (fun r' h' => r' = r ∧ h' = h ∨ NewObject A h r' h') fun _ h' => h' = h := by
  refine ends_get_bind ?_
  cases hv : h.value r with
  | table t => exact ends_pure (.inl ⟨rfl, rfl⟩)
  | closure c =>
    refine (newObject_allocValue wf (by simp) fun c' e hc he => ?_).imp (fun _ _ hn => .inr hn.1)
      fun _ _ => id
    rw [Value.closure.inj hc] at hv
    exact hA e (.captured hv he)
  | _ =>
    exact (newObject_allocValue wf (by simp) (by simp)).imp (fun _ _ hn => .inr hn.1) fun _ _ => id

end Heap

end SwarmVm
