import SwarmVm.Proofs.Heap.Reachability

/-!
# Well-formed heaps

A heap is well formed when every table and array owns a chain that ends, and no two of them share a
segment. Segments that are on no chain may be in use: a freed or overwritten table leaves them
behind, until the next collection.

Operations are described by how the heap changes, not only by what they keep. `Evolves` says that
every object is still there, that all but tables have their values, and that tables point at nothing
new except at the objects the operation was given. It composes, so that an operation on a
table is described by describing the few writes it is made of; and well-formedness, the absence of
dangling references and the safety of the machine's own objects are all read off from it.

## Main definitions

* `Heap.IsTable`, `Heap.WellFormed` — tables and arrays, and the structural invariant
* `Heap.Tidy` — free slots hold nothing that looks like an object
* `Heap.Evolves` — how a heap may change

## Main results

* `Heap.WellFormed.pointsTo_iff` — what a table of a well-formed heap points at
* `Heap.evolves_of_chain` — one table gets another chain, made of its own segments and of segments
  that no table owns
* `Heap.evolves_of_object` — one object is written
-/

namespace SwarmVm

namespace Heap

variable {h h' h'' : Heap} {r t e : Ref} {s : SegRef} {A X Y : Set Ref}

/-- The object is a table or an array. -/
def IsTable (h : Heap) (t : Ref) : Prop := h.isValid t = true ∧ h.kind t = .table

/-- Every table owns a chain of segments in use that ends, and different tables own different
segments. -/
structure WellFormed (h : Heap) : Prop where
  /-- The edges are in place. -/
  layout : h.Layout
  /-- The chain of a table ends. -/
  linked : ∀ t, h.IsTable t → h.Linked (h.tableHead t) (h.chain t)
  /-- Two tables share no segment. -/
  disjoint : ∀ t t', h.IsTable t → h.IsTable t' → t ≠ t' → List.Disjoint (h.chain t) (h.chain t')

/-- A free slot has no kind. -/
def Tidy (h : Heap) : Prop := ∀ r, h.isValid r = false → h.kind r = .nil

theorem IsTable.value (ht : h.IsTable t) : ∃ tv, h.value t = .table tv ∧ tv.head = h.tableHead t :=
  ⟨_, value_of_kind_table ht.1 ht.2, rfl⟩

theorem isTable_of_value {tv : TableValue} (hv : h.value t = .table tv) : h.IsTable t :=
  kind_of_value hv (by simp)

theorem head_eq_tableHead {tv : TableValue} (hv : h.value t = .table tv) :
    tv.head = h.tableHead t := by
  obtain ⟨_, hv', hh⟩ := (isTable_of_value hv).value
  rw [hv, Value.table.injEq] at hv'
  rw [hv', hh]

theorem chain_of_not_table (ht : h.kind t ≠ .table) : h.chain t = [] := by
  rw [chain, tableHead, if_neg ht]
  rfl

theorem kind_eq_table_of_mem_chain (hs : s ∈ h.chain t) : h.kind t = .table := by
  by_contra ht
  rw [chain_of_not_table ht] at hs
  exact List.not_mem_nil hs

/-! ### Well-formed heaps -/

namespace WellFormed

/-- A table points at the elements of its chain. -/
theorem pointsTo_iff (wf : h.WellFormed) (ht : h.IsTable t) :
    h.PointsTo t e ↔ ∃ s ∈ h.chain t, ∃ k < slotsPerSegment, h.element? s k = some e := by
  obtain ⟨tv, hv, hh⟩ := ht.value
  constructor
  · intro he
    cases he with
    | element hv' hs hk he =>
      rw [hv, Value.table.injEq] at hv'
      subst hv'
      rw [hh] at hs
      exact ⟨_, (onChain_iff_mem (wf.linked t ht)).1 hs, _, hk, he⟩
    | captured hv' _ => rw [hv] at hv'; cases hv'
  · rintro ⟨s, hs, k, hk, he⟩
    exact .element hv (hh ▸ (onChain_iff_mem (wf.linked t ht)).2 hs) hk he

theorem segmentIsValid (wf : h.WellFormed) (ht : h.IsTable t) (hs : s ∈ h.chain t) :
    h.segmentIsValid s = true :=
  (wf.linked t ht).isValid s hs

theorem segment_lt (wf : h.WellFormed) (ht : h.IsTable t) (hs : s ∈ h.chain t) :
    s.toNat < h.segmentSlots :=
  lt_segmentSlots_of_isValid (wf.segmentIsValid ht hs)

/-- Nothing strays on a table. -/
theorem isIntact (wf : h.WellFormed) (ht : h.kind t = .table → h.isValid t = true) :
    h.isIntact t = true := by
  by_cases hk : h.kind t = .table
  · have hl := wf.linked t ⟨ht hk, hk⟩
    rw [Heap.isIntact, Bool.and_eq_true, decide_eq_true_eq, List.all_eq_true]
    refine ⟨hl.length_le.trans_lt (by rw [chainBound]; omega), fun s hs => ?_⟩
    exact decide_eq_true (hl.lt hs)
  · rw [Heap.isIntact, chain_of_not_table hk]
    simp [chainBound]

end WellFormed

/-! ### How a heap may change -/

/-- `h'` comes from `h` by an operation that was given the objects of `A`. The objects of `X` may be
changed in any way, every other object is still there with its permanence and its kind and, unless
it is a table, with its value; a table may point at less than before, and at objects of `A`. -/
structure Evolves (X A : Set Ref) (h h' : Heap) : Prop where
  /-- The heap is well formed. -/
  wellFormed : h'.WellFormed
  /-- The row is as long as it was. -/
  size : h'.size = h.size
  /-- Free slots are still tidy. -/
  tidy : h.Tidy → h'.Tidy
  /-- Objects are still there, -/
  isValid : ∀ r ∉ X, h.isValid r = true → h'.isValid r = true
  /-- and have their permanence, -/
  permanent : ∀ r ∉ X, h.isValid r = true → (h'.header r).permanent = (h.header r).permanent
  /-- their kind, -/
  kind : ∀ r ∉ X, h.isValid r = true → h'.kind r = h.kind r
  /-- and, unless they are tables, their value. -/
  scalar : ∀ r ∉ X, h.isValid r = true → h.kind r ≠ .table → h'.value r = h.value r
  /-- They point at nothing new but the given objects. -/
  pointsTo : ∀ r ∉ X, h.isValid r = true → ∀ e, h'.PointsTo r e → h.PointsTo r e ∨ e ∈ A

namespace Evolves

theorem refl (wf : h.WellFormed) : Evolves X A h h :=
  ⟨wf, rfl, id, fun _ _ hv => hv, fun _ _ _ => rfl, fun _ _ _ => rfl, fun _ _ _ _ => rfl,
    fun _ _ _ _ he => .inl he⟩

/-- Changes compose. An object that the second one changes must be new, or be among those that may
change anyway. -/
theorem trans (ev : Evolves X A h h') (ev' : Evolves Y A h' h'')
    (hY : ∀ r ∈ Y, r ∈ X ∨ h.isValid r = false) : Evolves X A h h'' := by
  have hout : ∀ r ∉ X, h.isValid r = true → r ∉ Y := by
    intro r hr hv hy
    exact (hY r hy).elim hr fun hf => by rw [hv] at hf; cases hf
  refine ⟨ev'.wellFormed, ev'.size.trans ev.size, fun ht => ev'.tidy (ev.tidy ht),
    fun r hr hv => ?_, fun r hr hv => ?_, fun r hr hv => ?_, fun r hr hv hk => ?_,
    fun r hr hv e he => ?_⟩
  · exact ev'.isValid r (hout r hr hv) (ev.isValid r hr hv)
  · rw [ev'.permanent r (hout r hr hv) (ev.isValid r hr hv), ev.permanent r hr hv]
  · rw [ev'.kind r (hout r hr hv) (ev.isValid r hr hv), ev.kind r hr hv]
  · have hk' := ev.kind r hr hv
    rw [ev'.scalar r (hout r hr hv) (ev.isValid r hr hv) (hk' ▸ hk), ev.scalar r hr hv hk]
  · rcases ev'.pointsTo r (hout r hr hv) (ev.isValid r hr hv) e he with he | he
    · exact ev.pointsTo r hr hv e he
    · exact .inr he

theorem trans' (ev : Evolves X A h h') (ev' : Evolves ∅ A h' h'') : Evolves X A h h'' :=
  ev.trans ev' fun _ hr => absurd hr (Set.notMem_empty _)

/-- Changing an object that was not there is no change. -/
theorem of_free (ev : Evolves X A h h') (hX : ∀ r ∈ X, h.isValid r = false) :
    Evolves ∅ A h h' := by
  have hout : ∀ r, h.isValid r = true → r ∉ X := by
    intro r hv hr
    rw [hX r hr] at hv; cases hv
  exact ⟨ev.wellFormed, ev.size, ev.tidy, fun r _ hv => ev.isValid r (hout r hv) hv,
    fun r _ hv => ev.permanent r (hout r hv) hv, fun r _ hv => ev.kind r (hout r hv) hv,
    fun r _ hv => ev.scalar r (hout r hv) hv, fun r _ hv => ev.pointsTo r (hout r hv) hv⟩

theorem weaken (ev : Evolves ∅ A h h') (X : Set Ref) : Evolves X A h h' := by
  have hout := Set.notMem_empty (α := Ref)
  exact ⟨ev.wellFormed, ev.size, ev.tidy, fun r _ => ev.isValid r (hout r),
    fun r _ => ev.permanent r (hout r), fun r _ => ev.kind r (hout r),
    fun r _ => ev.scalar r (hout r), fun r _ => ev.pointsTo r (hout r)⟩

theorem isTable (ev : Evolves X A h h') (hr : t ∉ X) (ht : h.IsTable t) : h'.IsTable t :=
  ⟨ev.isValid t hr ht.1, (ev.kind t hr ht.1).trans ht.2⟩

end Evolves

/-! ### Changing a chain -/

theorem pointsTo_congr_of_not_table (hv : h'.value r = h.value r) (hk : h.kind r ≠ .table) :
    h'.PointsTo r e ↔ h.PointsTo r e := by
  have key : ∀ g : Heap, g.value r = h.value r → (g.PointsTo r e ↔
      ∃ c, h.value r = .closure c ∧ c.captured = some e) := by
    intro g hg
    constructor
    · intro he
      cases he with
      | element hv' _ _ _ => exact absurd (isTable_of_value (hg ▸ hv')).2 hk
      | captured hv' he => exact ⟨_, hg ▸ hv', he⟩
    · rintro ⟨c, hc, he⟩
      exact .captured (hg.trans hc) he
  rw [key h' hv, key h rfl]

/-- The objects of `h'` are those of `h`, except that a table may name another first segment. -/
structure SameButHeads (h h' : Heap) : Prop where
  /-- The same slots are in use. -/
  isValid : ∀ r, h'.isValid r = h.isValid r
  /-- Permanence is the same. -/
  permanent : ∀ r, (h'.header r).permanent = (h.header r).permanent
  /-- The kinds are the same. -/
  kind : ∀ r, h'.kind r = h.kind r
  /-- What is no table has its value. -/
  value : ∀ r, h.kind r ≠ .table → h'.value r = h.value r

theorem SameObjects.sameButHeads (o : SameObjects h h') : SameButHeads h h' :=
  ⟨o.isValid, fun r => by rw [o.header], o.kind, fun r _ => o.value r⟩

theorem SameButHeads.isTable_iff (o : SameButHeads h h') (t : Ref) :
    h'.IsTable t ↔ h.IsTable t := by
  rw [IsTable, IsTable, o.isValid, o.kind]

/-- A segment that no table owns. -/
def Unowned (h : Heap) (s : SegRef) : Prop := ∀ t, h.IsTable t → s ∉ h.chain t

theorem unowned_of_not_valid (wf : h.WellFormed) (hs : h.segmentIsValid s = false) :
    h.Unowned s := by
  intro _ ht hmem
  rw [wf.segmentIsValid ht hmem] at hs
  cases hs

/-- The other tables keep their chains, and `t` gets one that is made of its own segments and of
segments that no table owns. -/
theorem evolves_of_chain (wf : h.WellFormed) (layout : h'.Layout) (size : h'.size = h.size)
    (objects : SameButHeads h h') (t : Ref)
    (heads : ∀ r, r ≠ t → h.IsTable r → h'.tableHead r = h.tableHead r)
    (links : ∀ r, r ≠ t → h.IsTable r → ∀ s ∈ h.chain r, h'.link s = h.link s)
    (elements : ∀ r, r ≠ t → h.IsTable r → ∀ s ∈ h.chain r, ∀ k < slotsPerSegment, ∀ e,
      h'.element? s k = some e → h.element? s k = some e ∨ e ∈ A)
    (own : h.IsTable t → ∃ l, h'.Linked (h'.tableHead t) l
      ∧ (∀ s ∈ l, s ∈ h.chain t ∨ h.Unowned s)
      ∧ ∀ s ∈ l, ∀ k < slotsPerSegment, ∀ e, h'.element? s k = some e → h.PointsTo t e ∨ e ∈ A) :
    Evolves ∅ A h h' := by
  have hother : ∀ r, r ≠ t → h.IsTable r → h'.Linked (h'.tableHead r) (h.chain r) := by
    intro r ne hr
    rw [heads r ne hr]
    exact (wf.linked r hr).congr (links r ne hr)
  have hchain : ∀ r, r ≠ t → h.IsTable r → h'.chain r = h.chain r := by
    intro r ne hr
    exact (hother r ne hr).chain_eq
  -- what `t` owns now, the others do not own
  have hown : ∀ r, r ≠ t → h.IsTable r → h.IsTable t → List.Disjoint (h'.chain t) (h.chain r) := by
    intro r ne hr ht s hs hs'
    obtain ⟨l, hl, hsub, _⟩ := own ht
    rw [hl.chain_eq] at hs
    rcases hsub s hs with hmem | hfree
    · exact wf.disjoint t r ht hr ne.symm hmem hs'
    · exact hfree r hr hs'
  have wf' : h'.WellFormed := by
    refine ⟨layout, fun r hr => ?_, fun r r' hr hr' ne => ?_⟩
    · have hr := (objects.isTable_iff r).1 hr
      by_cases ne : r = t
      · subst ne
        obtain ⟨l, hl, _⟩ := own hr
        rw [hl.chain_eq]
        exact hl
      · rw [hchain r ne hr]
        exact hother r ne hr
    · have hr := (objects.isTable_iff r).1 hr
      have hr' := (objects.isTable_iff r').1 hr'
      by_cases ht : r = t
      · subst ht
        rw [hchain r' ne.symm hr']
        exact hown r' ne.symm hr' hr
      · rw [hchain r ht hr]
        by_cases ht' : r' = t
        · subst ht'
          exact (hown r ht hr hr').symm
        · rw [hchain r' ht' hr']
          exact wf.disjoint r r' hr hr' ne
  refine ⟨wf', size, fun tidy r hr => ?_, fun r _ hv => ?_, fun r _ _ => objects.permanent r,
    fun r _ _ => objects.kind r, fun r _ _ hk => objects.value r hk, fun r _ hv e he => ?_⟩
  · rw [objects.kind]
    exact tidy r (objects.isValid r ▸ hr)
  · rw [objects.isValid, hv]
  · by_cases hk : h.kind r = .table
    · have hr : h.IsTable r := ⟨hv, hk⟩
      obtain ⟨s, hs, k, hk, he⟩ := (wf'.pointsTo_iff ((objects.isTable_iff r).2 hr)).1 he
      by_cases ne : r = t
      · subst ne
        obtain ⟨l, hl, _, hel⟩ := own hr
        rw [hl.chain_eq] at hs
        exact hel s hs k hk e he
      · rw [hchain r ne hr] at hs
        rcases elements r ne hr s hs k hk e he with he | he
        · exact .inl ((wf.pointsTo_iff hr).2 ⟨s, hs, k, hk, he⟩)
        · exact .inr he
    · exact .inl ((pointsTo_congr_of_not_table (objects.value r hk) hk).1 he)

/-- Every table keeps its chain, and gets no other elements than the given ones. -/
theorem evolves_of_elements (wf : h.WellFormed) (layout : h'.Layout) (size : h'.size = h.size)
    (objects : SameObjects h h')
    (links : ∀ r, h.IsTable r → ∀ s ∈ h.chain r, h'.link s = h.link s)
    (elements : ∀ r, h.IsTable r → ∀ s ∈ h.chain r, ∀ k < slotsPerSegment, ∀ e,
      h'.element? s k = some e → h.element? s k = some e ∨ e ∈ A) : Evolves ∅ A h h' := by
  refine evolves_of_chain wf layout size objects.sameButHeads 0 (fun r _ _ => objects.tableHead r)
    (fun r _ => links r) (fun r _ => elements r) fun ht => ⟨h.chain 0, ?_, fun s hs => .inl hs, ?_⟩
  · rw [objects.tableHead]
    exact (wf.linked 0 ht).congr (links 0 ht)
  · intro s hs k hk e he
    refine (elements 0 ht s hs k hk e he).imp_left fun he => ?_
    exact (wf.pointsTo_iff ht).2 ⟨s, hs, k, hk, he⟩

/-! ### Changing an object -/

/-- One object is written. If it is a table now, it owns no segment of another one. -/
theorem evolves_of_object (wf : h.WellFormed) (layout : h'.Layout) (segments : SameSegments h h')
    (r : Ref) (header : ∀ r', r' ≠ r → h'.header r' = h.header r')
    (value : ∀ r', r' ≠ r → h'.value r' = h.value r')
    (free : h'.isValid r = false → h'.kind r = .nil)
    (own : h'.IsTable r → ∃ l, h'.Linked (h'.tableHead r) l
      ∧ ∀ s ∈ l, ∀ r', r' ≠ r → h.IsTable r' → s ∉ h.chain r') :
    Evolves {r} A h h' := by
  have hvalid : ∀ r', r' ≠ r → h'.isValid r' = h.isValid r' := by
    intro r' ne
    rw [isValid, isValid, header r' ne]
  have hkind : ∀ r', r' ≠ r → h'.kind r' = h.kind r' := by
    intro r' ne
    rw [kind, kind, header r' ne]
  have htable : ∀ r', r' ≠ r → (h'.IsTable r' ↔ h.IsTable r') := by
    intro r' ne
    rw [IsTable, IsTable, hvalid r' ne, hkind r' ne]
  have hhead : ∀ r', r' ≠ r → h.IsTable r' → h'.tableHead r' = h.tableHead r' := by
    intro r' ne ht
    obtain ⟨tv, hv, hh⟩ := ht.value
    obtain ⟨tv', hv', hh'⟩ := ((htable r' ne).2 ht).value
    rw [value r' ne, hv, Value.table.injEq] at hv'
    rw [← hh, ← hh', hv']
  have hlinked : ∀ r', r' ≠ r → h.IsTable r' → h'.Linked (h'.tableHead r') (h.chain r') := by
    intro r' ne ht
    rw [hhead r' ne ht]
    exact (wf.linked r' ht).congr fun s _ => segments.link wf.layout s
  have hchain : ∀ r', r' ≠ r → h.IsTable r' → h'.chain r' = h.chain r' := by
    intro r' ne ht
    exact (hlinked r' ne ht).chain_eq
  have hown : ∀ r', r' ≠ r → h.IsTable r' → h'.IsTable r → List.Disjoint (h'.chain r) (h.chain r')
      := by
    intro r' ne ht' ht s hs hs'
    obtain ⟨l, hl, hfree⟩ := own ht
    rw [hl.chain_eq] at hs
    exact hfree s hs r' ne ht' hs'
  have wf' : h'.WellFormed := by
    refine ⟨layout, fun t ht => ?_, fun t t' ht ht' ne => ?_⟩
    · by_cases hr : t = r
      · subst hr
        obtain ⟨l, hl, _⟩ := own ht
        rw [hl.chain_eq]
        exact hl
      · have ht := (htable t hr).1 ht
        rw [hchain t hr ht]
        exact hlinked t hr ht
    · by_cases hr : t = r
      · subst hr
        have ht' := (htable t' ne.symm).1 ht'
        rw [hchain t' ne.symm ht']
        exact hown t' ne.symm ht' ht
      · have ht := (htable t hr).1 ht
        rw [hchain t hr ht]
        by_cases hr' : t' = r
        · subst hr'
          exact (hown t hr ht ht').symm
        · have ht' := (htable t' hr').1 ht'
          rw [hchain t' hr' ht']
          exact wf.disjoint t t' ht ht' ne
  refine ⟨wf', segments.size, fun tidy t ht => ?_, fun t ne hv => ?_, fun t ne _ => ?_,
    fun t ne _ => hkind t ne, fun t ne _ _ => value t ne, fun t ne hv e he => .inl ?_⟩
  · by_cases hr : t = r
    · subst hr
      exact free ht
    · rw [hkind t hr]
      exact tidy t (hvalid t hr ▸ ht)
  · rw [hvalid t ne, hv]
  · rw [header t ne]
  · by_cases hk : h.kind t = .table
    · have ht : h.IsTable t := ⟨hv, hk⟩
      obtain ⟨s, hs, k, hk, he⟩ := (wf'.pointsTo_iff ((htable t ne).2 ht)).1 he
      rw [hchain t ne ht] at hs
      rw [segments.element? wf.layout (wf.segment_lt ht hs)] at he
      exact (wf.pointsTo_iff ht).2 ⟨s, hs, k, hk, he⟩
    · exact (pointsTo_congr_of_not_table (value t ne) hk).1 he

end Heap

end SwarmVm
